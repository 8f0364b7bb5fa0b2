import Mathlib.Logic.Function.Iterate
import ScriptLint.Proofs.Parser.Steady
import ScriptLint.Syntax.Parse

/-!
The number of groups around a cursor. A parse knows how many levels of nesting are left to it; the cursor
counts the groups that are open. The two agree wherever a group is met, because what is read leaves as many
groups open as there were. So a parse that asks the cursor before it opens a group, and that could read
groups inside of groups without end, does the same as one that has the levels counted for it.
-/

namespace ScriptLint

open ScriptLint.Parser

/-- Both cursors are inside of `depth` groups. -/
def AtDepth (depth : Nat) (c d : Cursor) : Prop := c.depth = depth ∧ d.depth = depth

instance (depth : Nat) : Steady (AtDepth depth) where
  trans h h' := ⟨h.1, h'.2⟩
  right h := ⟨h.2, h.2⟩
  pass h _ := h
  skip _ h := h
  cut h _ _ := h
  report h _ := h

instance (depth : Nat) : Nests (AtDepth depth) (AtDepth (depth + 1)) where
  enter h := ⟨congrArg (· + 1) h.1, congrArg (· + 1) h.1⟩
  leave h h' hn := ⟨h.1, Nat.succ.inj (hn.symm.trans h'.2)⟩

namespace Parse

variable {g g' : Groups} {depth : Nat}

/-- How a group is read that is opened only if the number of groups around the cursor allows it. The
groups inside are read as `inside` says, which need not heed any bound. -/
def counted (inside : Groups) : Groups where
  block := do if (← get).depth < maxNesting then (opened inside).block else (groups 0).block
  subexpression := do
    if (← get).depth < maxNesting then (opened inside).subexpression else (groups 0).subexpression
  hashtable := do
    if (← get).depth < maxNesting then (opened inside).hashtable else (groups 0).hashtable

theorem keeps_choice {α : Type} {m m' m₀ : Parser α}
    (h : Keeps (AtDepth depth) (if depth < maxNesting then m else m') m₀) :
    Keeps (AtDepth depth) (get >>= fun c => if c.depth < maxNesting then m else m') m₀ := by
  intro c hc
  obtain rfl := hc.1
  exact h c hc

/-- Inside of `depth` groups, with levels left up to the last one, the counter tells no other than the
number of levels. Behind the last level no group is opened, so it does not matter how far the reading of
groups inside of groups would go on. -/
theorem counted_keeps (levels : Nat) (hdepth : depth + levels = maxNesting) {n : Nat}
    (hn : levels < n) : (counted^[n] g).Keeps (AtDepth depth) (groups levels) := by
  induction levels generalizing depth n with
  | zero =>
      obtain ⟨n, rfl⟩ : ∃ m, n = m + 1 := ⟨n - 1, by omega⟩
      rw [Function.iterate_succ_apply']
      have hfull : ¬ depth < maxNesting := by omega
      refine ⟨keeps_choice ?_, keeps_choice ?_, keeps_choice ?_⟩
      all_goals rw [if_neg hfull]
      · exact skipped_keeps.block
      · exact skipped_keeps.subexpression
      · exact skipped_keeps.hashtable
  | succ levels ih =>
      obtain ⟨n, rfl⟩ : ∃ m, n = m + 1 := ⟨n - 1, by omega⟩
      rw [Function.iterate_succ_apply', groups_succ]
      have hleft : depth < maxNesting := by omega
      have hinside : (counted^[n] g).Keeps (AtDepth (depth + 1)) (groups levels) :=
        ih (by omega) (by omega)
      refine ⟨keeps_choice ?_, keeps_choice ?_, keeps_choice ?_⟩
      all_goals rw [if_pos hleft]
      · exact (opened_keeps hinside).block
      · exact (opened_keeps hinside).subexpression
      · exact (opened_keeps hinside).hashtable

/-- A run in which the cursor counts the groups is the run of a parse. -/
theorem run_counted (source : String) {n : Nat} (hn : maxNesting < n) :
    (statements (counted^[n] g) none).run (.ofSource source) = run source :=
  (keeps_statements (counted_keeps maxNesting (Nat.zero_add _) hn) none (.ofSource source)
    ⟨rfl, rfl⟩).1

end Parse

end ScriptLint
