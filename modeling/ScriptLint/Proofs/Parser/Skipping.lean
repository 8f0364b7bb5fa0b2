import ScriptLint.Proofs.Parser.Safety.Group
import ScriptLint.Proofs.Syntax.Balance

/-!
A group past the last level is passed over without being read: the tokens up to its closer are counted, and
as many of them are passed. Where every bracket inside of the group is closed, these are the tokens of the
group, and the cursor stands behind its closer as if it had read an empty group. The group is reported from
its opener to its closer.
-/

namespace ScriptLint.Parse

open ScriptLint.Parser Cursor

variable {c : Cursor} {o cl : Token} {gs inside ts : List Token}

/-- Blanks and comments are passed without a trace. -/
theorem passTokens_append (hgs : ∀ t ∈ gs, t.kind.isSpacing) (hrest : c.rest = gs ++ ts) (n : Nat) :
    passTokens (gs.length + n) c = passTokens n { c with rest := ts } := by
  induction gs generalizing c with
  | nil =>
      rw [← show c.rest = ts from hrest, List.length_nil, Nat.zero_add]
  | cons t gs ih =>
      have hpass : c.pass t (gs ++ ts) = { c with rest := gs ++ ts } := by
        rw [Cursor.pass, if_pos (hgs t List.mem_cons_self)]
      have hsucc : (t :: gs).length + n = gs.length + n + 1 := by
        rw [List.length_cons]
        omega
      rw [hsucc, passTokens, bind_run, advance_of_rest hrest]
      show passTokens (gs.length + n) (c.pass t (gs ++ ts)) = _
      rw [hpass, ih (fun u hu => hgs u (List.mem_cons_of_mem t hu)) rfl]

/-- Of tokens that end with one that counts only this one is remembered. -/
theorem passTokens_through (hcl : cl.kind.isSpacing = false) (hrest : c.rest = gs ++ cl :: ts) (n : Nat) :
    passTokens (gs.length + 1 + n) c = passTokens n (c.pass cl ts) := by
  induction gs generalizing c with
  | nil =>
      rw [List.length_nil, Nat.zero_add, Nat.add_comm, passTokens, bind_run, advance_of_rest hrest]
      rfl
  | cons t gs ih =>
      have hsucc : (t :: gs).length + 1 + n = gs.length + 1 + n + 1 := by
        rw [List.length_cons]
        omega
      have hpass : (c.pass t (gs ++ cl :: ts)).pass cl ts = c.pass cl ts := by
        simp [Cursor.pass, hcl]
      rw [hsucc, passTokens, bind_run, advance_of_rest hrest, ← hpass]
      exact ih rfl

theorem isSpacing_of_closedBy (h : o.ClosedBy cl) : cl.kind.isSpacing = false := by
  obtain ⟨closer, -, hcl⟩ := Option.map_eq_some_iff.mp h
  rw [← hcl]
  cases closer <;> rfl

/-- The tokens of a group, one by one. -/
theorem passTokens_of_closedBy (hclosed : o.ClosedBy cl) (hrest : c.rest = o :: (inside ++ cl :: ts)) (n : Nat) :
    passTokens (inside.length + 2 + n) c = passTokens n (c.pass cl ts) := by
  have hrest : c.rest = (o :: inside) ++ cl :: ts := hrest
  exact passTokens_through (isSpacing_of_closedBy hclosed) hrest n

/-- A group past the last level whose brackets are all closed is passed over to its closer. -/
theorem skipGroup_of_closedBy (hrest : c.rest = o :: (inside ++ cl :: ts)) (hclosed : o.ClosedBy cl)
    (hnested : Nested (brackets inside)) (hle : o.start ≤ cl.stop) :
    skipGroup c = .ok (⟨o.start, cl.stop⟩,
      (c.pass cl ts).report (.nestingTooDeep maxNesting) ⟨o.start, cl.stop⟩) := by
  have hpass : passTokens (inside.length + 2) c = .ok ((), c.pass cl ts) :=
    passTokens_of_closedBy hclosed hrest 0
  have hlength : groupLength? 0 c.rest = some (inside.length + 2) := by
    rw [hrest]
    exact groupLength?_of_closedBy hclosed hnested ts
  have hend : (c.pass cl ts).lastEnd = cl.stop := lastEnd_pass (isSpacing_of_closedBy hclosed)
  rw [skipGroup, bind_run, current_of_rest hrest, Except.bind, get_bind_run]
  dsimp only
  rw [hlength, Option.getD_some, Option.isSome_some, bind_run, hpass, Except.bind, get_bind_run, if_pos rfl,
    hend, bind_run, span_of_le hle]
  rfl

end ScriptLint.Parse

namespace ScriptLint.Cursor

theorem Sound.offset_through {c : Cursor} {cl : Token} {gs ts : List Token} (hc : c.Sound)
    (hrest : c.rest = gs ++ cl :: ts) : (c.pass cl ts).offset = cl.stop := by
  have htiles := hc.tiles
  rw [hrest] at htiles
  obtain ⟨m, -, -, -, hbehind⟩ := Tiles.append.mp htiles
  exact offset_eq_of_tiles (c := c.pass cl ts) hbehind

/-- A token stands in front of the end of what is ahead behind it. -/
theorem Sound.start_lt_stop_of_mem {c : Cursor} {t u : Token} {ts : List Token} (hc : c.Sound)
    (hrest : c.rest = t :: ts) (hu : u ∈ ts) : t.start < u.stop := by
  have hpairwise := hc.tiles.pairwise_stop_le
  rw [hrest] at hpairwise
  have hle := (List.pairwise_cons.mp hpairwise).1 u hu
  have hlt := hc.start_lt_stop hrest
  have hstop : u.start ≤ u.stop := Nat.le_add_right _ _
  omega

/-- Where a cursor is that has passed tokens up to one that counts. -/
theorem Sound.reaches_through {c : Cursor} {cl : Token} {gs ts : List Token} (hc : c.Sound)
    (hcl : cl.kind.isSpacing = false) (hrest : c.rest = gs ++ cl :: ts) : Reaches c (c.pass cl ts) := by
  induction gs generalizing c with
  | nil => exact hc.reaches_pass hrest
  | cons t gs ih =>
      have hpass : (c.pass t (gs ++ cl :: ts)).pass cl ts = c.pass cl ts := by
        simp [Cursor.pass, hcl]
      have hfirst := hc.reaches_pass hrest
      rw [← hpass]
      exact hfirst.trans (ih hfirst.sound rfl)

end ScriptLint.Cursor
