import ScriptLint.Proofs.Parser.Depth
import ScriptLint.Proofs.Parser.Mirror.Script
import ScriptLint.Proofs.Parser.Refusal

/-!
What stands inside of a group that is refused does not matter. The script without it has the same tree and the
same diagnostics, but for the place of what stands behind the group.
-/

namespace ScriptLint

open ScriptLint.Parser ScriptLint.Parse Cursor

/-- A tree without the bytes from `start` to `stop`. -/
def View.without (start stop : Nat) : View := ⟨fun n => min n start + (n - stop), true⟩

namespace ClosedGroup

variable {source : String} (G : ClosedGroup source) {m n : Nat} {t : Token}

/-- How the script is told without the interior of the group. -/
def view : View := View.without G.opener.stop G.closer.start

theorem offset_of_le (h : n ≤ G.opener.stop) : G.view.offset n = n := by
  have hle := G.stop_le_start
  simp only [view, View.without]
  omega

theorem offset_add_width (h : G.closer.start ≤ n + G.width) : G.view.offset (n + G.width) = n := by
  have hle := G.stop_le_start
  have hwidth := G.start_add_width
  simp only [view, View.without]
  omega

theorem monotone_offset : Monotone G.view.offset := by
  intro m n h
  simp only [view, View.without]
  omega

/-- No place in front of the interior, and none behind it, comes to be where one further to the front is. -/
theorem offset_inj (hn : n ≤ G.opener.stop ∨ G.closer.start < n) (hm : m ≤ n)
    (h : G.view.offset m = G.view.offset n) : m = n := by
  have hle := G.stop_le_start
  simp only [view, View.without] at h
  omega

theorem closer_start_lt : G.closer.start < source.utf8ByteSize :=
  Nat.lt_of_lt_of_le G.closer_lt ((tiles_tokenize source).stop_le G.closer_mem)

theorem size_emptied : G.emptied.utf8ByteSize = G.view.offset source.utf8ByteSize := by
  obtain ⟨behind, -, -, hsize⟩ := G.tokenize_emptied
  have hlt := G.closer_start_lt
  rw [← hsize] at hlt ⊢
  exact (G.offset_add_width (Nat.le_of_lt hlt)).symm

end ClosedGroup

namespace Mirror

variable {source : String} (G : ClosedGroup source) {t : Token}

/-- A script beside the one without the interior of a group. -/
def emptying : Mirror where
  offset := G.view.offset
  mono := G.monotone_offset
  comments := true
  size := source.utf8ByteSize
  size' := G.emptied.utf8ByteSize
  tail := []
  limit? := none
  excluded := fun _ => False
  size_eq := fun _ => G.size_emptied
  size_apart := fun _ hm h => G.offset_inj (.inr G.closer_start_lt) hm h
  tail_head := fun _ _ h => absurd h.symm (List.cons_ne_nil _ _)
  excluded_all := excludes_nothing
  emptied? := some G.opener

variable {G}

/-- A token in front of the interior stays where it is. -/
theorem same_front (h : t.stop ≤ G.opener.stop) : (emptying G).Same t t := by
  have hle {head tail : String} (htext : t.text = head ++ tail) :
      t.start + head.utf8ByteSize ≤ G.opener.stop := by
    refine Nat.le_trans ?_ h
    rw [Token.stop, htext, String.utf8ByteSize_append]
    omega
  exact ⟨rfl, rfl, fun head tail htext => (G.offset_of_le (hle htext)).symm,
    Telling.suits_of_eq_none rfl t, Nat.zero_le _, fun head tail htext m => G.offset_inj (.inl (hle htext))⟩

/-- A token behind the interior moves to the front. -/
theorem same_behind (h : G.closer.start < t.start + G.width) : (emptying G).Same (t.move G.width) t := by
  refine ⟨rfl, rfl, fun head _ _ => ?_, Telling.suits_of_eq_none rfl _, Nat.zero_le _,
    fun head _ _ m => G.offset_inj (.inr (Nat.lt_of_lt_of_le h (Nat.le_add_right _ _)))⟩
  show t.start + head.utf8ByteSize = G.view.offset (t.start + G.width + head.utf8ByteSize)
  rw [Nat.add_right_comm]
  exact (G.offset_add_width (by omega)).symm

/-- The group stands empty in the other script. -/
theorem emptied_emptying : (emptying G).Emptied G.opener G.closer G.inside G.opener G.facing where
  opener := rfl
  met := (same_front (Nat.le_refl _)).met
  closed := G.closed
  nested := G.nested
  kind_eq := rfl
  stop_eq := by
    have hstop : G.closer.stop = G.facing.stop + G.width := by
      rw [Token.stop, ← G.start_add_width, Nat.add_right_comm]
      rfl
    rw [hstop]
    refine (G.offset_add_width ?_).symm
    rw [← hstop]
    exact Nat.le_add_right _ _
  unlimited := rfl

theorem beside_behind {free : Bool} {behind : List Token}
    (h : ∀ t ∈ behind, G.closer.start < t.start + G.width) :
    (emptying G).Beside free (behind.map (Token.move G.width)) behind := by
  induction behind generalizing free with
  | nil => exact .nil
  | cons t behind ih =>
      obtain ⟨ht, hbehind⟩ := List.forall_mem_cons.mp h
      exact .cons (same_behind ht) (ih hbehind)

theorem beside_front {free : Bool} {front ts ts' : List Token} (h : ∀ t ∈ front, t.stop ≤ G.opener.stop)
    (hbeside : ∀ free, (emptying G).Beside free ts ts') :
    (emptying G).Beside free (front ++ ts) (front ++ ts') := by
  induction front generalizing free with
  | nil => exact hbeside free
  | cons t front ih =>
      obtain ⟨ht, hfront⟩ := List.forall_mem_cons.mp h
      exact .cons (same_front ht) (ih hfront)

variable (G) in
/-- The tokens of a script lie beside those of the script without the interior of the group. -/
theorem beside_emptying (free : Bool) :
    (emptying G).Beside free (tokenize source) (tokenize G.emptied) := by
  obtain ⟨behind, htokens, hbehind, -⟩ := G.tokenize_emptied
  have hstops := (tiles_tokenize source).pairwise_stop_le
  rw [G.tokens_eq] at hstops
  obtain ⟨-, hgroup, hfront⟩ := List.pairwise_append.mp hstops
  have hinside := (List.pairwise_cons.mp hgroup).2
  rw [G.tokens_eq, htokens, hbehind]
  refine beside_front (fun t ht => ?_) fun free => .emptied emptied_emptying (beside_behind fun t ht => ?_)
  · exact Nat.le_trans (hfront t ht G.opener List.mem_cons_self) (Nat.le_of_lt G.opener_lt)
  · have hmem : t.move G.width ∈ G.behind := hbehind ▸ List.mem_map_of_mem ht
    have hle := (List.pairwise_cons.mp (List.pairwise_append.mp hinside).2.1).1 _ hmem
    exact Nat.lt_of_lt_of_le G.closer_lt hle

variable (G) in
theorem faces_emptying : (emptying G).Faces source G.emptied where
  size_eq := rfl
  size_eq' := rfl
  offset_zero := G.offset_of_le (Nat.zero_le _)
  tail_eq := rfl
  unlimited := rfl
  beside := beside_emptying G true

end Mirror

namespace ClosedGroup

variable {source : String} (G : ClosedGroup source) {c : Cursor}

/-- Where a cursor is that has passed over the group and reported it. -/
def past (c : Cursor) : Cursor := (c.pass G.closer G.behind).report (.nestingTooDeep maxNesting) G.span

theorem skipGroup_eq (hrest : c.rest = G.opener :: (G.inside ++ G.closer :: G.behind)) :
    skipGroup c = .ok (G.span, G.past c) :=
  skipGroup_of_closedBy hrest G.closed G.nested (Nat.le_of_lt G.span_lt)

/-- With no level left the group is read as an empty one, whatever stands inside of it. -/
theorem counted_eq (inside : Groups) (hdepth : c.depth = maxNesting)
    (hrest : c.rest = G.opener :: (G.inside ++ G.closer :: G.behind)) :
    (counted inside).block c = .ok (⟨[], G.span⟩, G.past c) ∧
      (counted inside).subexpression c = .ok (.subexpression G.opener.text [] G.span, G.past c) ∧
      (counted inside).hashtable c = .ok (.hashtable [] G.span, G.past c) := by
  have hfull : ¬c.depth < maxNesting := by rw [hdepth]; exact Nat.lt_irrefl _
  have hread {β : Type} (f : Span → β) :
      (do return f (← skipGroup) : Parser β) c = .ok (f G.span, G.past c) := by
    rw [bind_run, G.skipGroup_eq hrest]
    rfl
  refine ⟨?_, ?_, ?_⟩
  · show (if c.depth < maxNesting then (opened inside).block else (groups 0).block) c = _
    rw [if_neg hfull]
    exact hread (Block.mk [])
  · show (if c.depth < maxNesting then (opened inside).subexpression else (groups 0).subexpression) c = _
    rw [if_neg hfull]
    show (current >>= fun t => do return Expression.subexpression t.text [] (← skipGroup)) c = _
    rw [bind_run, current_of_rest hrest]
    exact hread (Expression.subexpression G.opener.text [])
  · show (if c.depth < maxNesting then (opened inside).hashtable else (groups 0).hashtable) c = _
    rw [if_neg hfull]
    exact hread (Expression.hashtable [])

/-- Where the group is refused in the script, every run of a parse that has its faults is quiet. -/
theorem quiet_of_refused {c : Cursor} (hfaults : c.faults.toList = (parse source).faults)
    (hrefused : ∃ d ∈ (parse source).diagnostics, d.RefusesAt G.opener.start) :
    (Mirror.emptying G).Quiet c := by
  refine ⟨fun _ _ h => h, fun o ho _ _ => ?_⟩
  cases ho
  obtain ⟨r, hr, hrefuses⟩ := hrefused
  obtain ⟨f, hf, rfl⟩ := List.mem_map.mp hr
  obtain ⟨hdeep, hstart⟩ := Bool.and_eq_true_iff.mp (Fault.refusesAt_diagnostic.mp hrefuses)
  rw [← hfaults] at hf
  exact ⟨f, Array.mem_toList_iff.mp hf, hdeep, of_decide_eq_true hstart⟩

/-- The script without the interior of a group that is refused. -/
theorem parse_of_refused (hrefused : ∃ d ∈ (parse source).diagnostics, d.RefusesAt G.opener.start) :
    (parse G.emptied).tree.body = G.view.block (parse source).tree.body ∧
      (parse G.emptied).diagnostics = (parse source).diagnostics.map G.view.diagnostic := by
  obtain ⟨htree, hfaults⟩ := (Mirror.faces_emptying G).parse_eq fun _ h => G.quiet_of_refused h hrefused
  refine ⟨htree, ?_⟩
  rw [Parsed.diagnostics, Parsed.diagnostics, hfaults, List.map_map, List.map_map]
  rfl

end ClosedGroup

/-- A group that is nested too deep does not matter for the rest of a script. Where a cursor stands in front of
it inside of 128 groups, the group is read as an empty one: just its tokens are passed, from the opener to the
closer, and it is reported once, where it stands. If this happens on the way of the parse, then without the
interior of the group the script has the same tree and the same diagnostics, in their order, with what stands
behind the interior moved to the front. -/
theorem parse_emptied {source : String} (G : ClosedGroup source) :
    (∀ (c : Cursor) (inside : Groups), c.depth = maxNesting →
      c.rest = G.opener :: (G.inside ++ G.closer :: G.behind) →
        (counted inside).block c = .ok (⟨[], G.span⟩, G.past c) ∧
        (counted inside).subexpression c = .ok (.subexpression G.opener.text [] G.span, G.past c) ∧
        (counted inside).hashtable c = .ok (.hashtable [] G.span, G.past c)) ∧
    ((∃ d ∈ (parse source).diagnostics, d.RefusesAt G.opener.start) →
      ((parse source).diagnostics.filter (·.RefusesAt G.opener.start)).map Diagnostic.span = [some G.span] ∧
      (parse G.emptied).tree.body = G.view.block (parse source).tree.body ∧
      (parse G.emptied).diagnostics = (parse source).diagnostics.map G.view.diagnostic) :=
  ⟨fun _ inside => G.counted_eq inside, fun hrefused => ⟨G.refused hrefused, G.parse_of_refused hrefused⟩⟩

/-- The innermost of 129 parentheses holds a number, or nothing. That the others are not closed does not
matter. -/
theorem parse_emptied_numeral :
    let script (inside : String) := String.join (List.replicate 129 "(") ++ inside ++ ")"
    ∃ (G : ClosedGroup (script "1")) (c : Cursor), G.emptied = script "" ∧ c.depth = maxNesting ∧
      (counted (groups 0)).subexpression c = .ok (.subexpression "(" [] ⟨128, 131⟩, G.past c) ∧
      (∃ d ∈ (parse (script "1")).diagnostics, d.RefusesAt 128) ∧
      (parse (script "")).tree.body = G.view.block (parse (script "1")).tree.body := by
  intro script
  let G : ClosedGroup (script "1") := {
    front := (List.range 128).map fun n => ⟨.openParen, "(", n⟩
    opener := ⟨.openParen, "(", 128⟩
    inside := [⟨.word, "1", 129⟩]
    closer := ⟨.closeParen, ")", 130⟩
    behind := []
    tokens_eq := by decide +kernel
    closed := rfl
    nested := .nil }
  have hemptied : G.emptied = script "" := by decide +kernel
  have hrefused : ∃ d ∈ (parse (script "1")).diagnostics, d.RefusesAt 128 := by decide +kernel
  let c : Cursor := { Cursor.ofSource (script "1") with
    rest := G.opener :: (G.inside ++ G.closer :: G.behind)
    depth := maxNesting }
  refine ⟨G, c, hemptied, rfl, ((parse_emptied G).1 c (groups 0) rfl rfl).2.1, hrefused, ?_⟩
  rw [← hemptied]
  exact ((parse_emptied G).2 hrefused).2.1

end ScriptLint
