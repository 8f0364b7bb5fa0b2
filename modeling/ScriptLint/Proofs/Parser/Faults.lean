import ScriptLint.Proofs.Parser.Movement
import ScriptLint.Proofs.Parser.Steady

/-!
A parse takes no fault back: what has been reported stays reported, in its order. A run of which the last
cursor has no fault of some sort has met none on its way either. Nor does a parse go back: the groups that it
passes over on its way start behind the place where the way starts.
-/

namespace ScriptLint

open ScriptLint.Parser

namespace Cursor

/-- The tokens ahead stand one behind the other. -/
structure Ordered (c : Cursor) : Prop where
  pairwise : c.rest.Pairwise fun t u => t.stop ≤ u.start
  stop_le : ∀ t ∈ c.rest, t.stop ≤ c.size

variable {c : Cursor} {t : Token} {ts : List Token}

theorem Sound.ordered (hc : c.Sound) : c.Ordered :=
  ⟨hc.tiles.pairwise_stop_le, fun _ => hc.tiles.stop_le⟩

/-- Fewer tokens ahead are ordered, and they start no further to the front. -/
theorem Ordered.sublist (hc : c.Ordered) {rest : List Token} (h : rest.Sublist c.rest) (lastEnd : Nat) :
    Ordered { c with rest := rest, lastEnd := lastEnd } ∧
      c.offset ≤ offset { c with rest := rest, lastEnd := lastEnd } := by
  refine ⟨⟨hc.pairwise.sublist h, fun t ht => hc.stop_le t (h.subset ht)⟩, ?_⟩
  unfold offset
  cases hrest : c.rest with
  | nil =>
      rw [hrest] at h
      obtain rfl := List.sublist_nil.mp h
      exact Nat.le_refl _
  | cons t ts =>
      have hstop := hc.stop_le t (hrest ▸ List.mem_cons_self)
      have hstart : t.start ≤ t.stop := Nat.le_add_right _ _
      cases rest with
      | nil => exact Nat.le_trans hstart hstop
      | cons u us =>
          have hu := h.subset List.mem_cons_self
          have hpairwise := hc.pairwise
          rw [hrest] at hu hpairwise
          rcases List.mem_cons.mp hu with rfl | hu
          · exact Nat.le_refl _
          · exact Nat.le_trans hstart ((List.pairwise_cons.mp hpairwise).1 u hu)

theorem Ordered.cut (hc : c.Ordered) (hrest : c.rest = t :: ts) {n : Nat}
    (hn : String.Pos.Raw.IsValid t.text ⟨n⟩) :
    Ordered { c with rest := (t.cut n).1 :: (t.cut n).2 :: ts } := by
  obtain ⟨head, tail, htext, hn⟩ := String.Pos.Raw.isValid_iff_exists_append.mp hn
  obtain rfl : n = head.utf8ByteSize := congrArg String.Pos.Raw.byteIdx hn
  have hstop : t.stop = t.start + head.utf8ByteSize + tail.utf8ByteSize := by
    rw [Token.stop, htext, String.utf8ByteSize_append, Nat.add_assoc]
  have hpairwise := hc.pairwise
  have hbound := hc.stop_le
  rw [hrest] at hpairwise hbound
  obtain ⟨hfirst, hrest⟩ := List.pairwise_cons.mp hpairwise
  obtain ⟨hsize, hbound⟩ := List.forall_mem_cons.mp hbound
  rw [hstop] at hfirst hsize
  have hbehind : ∀ u ∈ ts, t.start + head.utf8ByteSize ≤ u.start := fun u hu =>
    Nat.le_trans (Nat.le_add_right _ _) (hfirst u hu)
  rw [Token.cut_eq htext]
  constructor
  · exact .cons (List.forall_mem_cons.mpr ⟨Nat.le_refl _, hbehind⟩) (.cons hfirst hrest)
  · exact List.forall_mem_cons.mpr ⟨Nat.le_trans (Nat.le_add_right _ _) hsize,
      List.forall_mem_cons.mpr ⟨hsize, hbound⟩⟩

end Cursor

/-- The faults at `d` are those at `c` and more behind them, and `d` stands behind `c`, with all groups between
the two that have been passed over. -/
structure Adding (c d : Cursor) : Prop where
  faults : c.faults.toList <+: d.faults.toList
  onward : c.Ordered → d.Ordered ∧ c.offset ≤ d.offset
  behind : c.Ordered → ∀ f ∈ d.faults, f.problem.isTooDeep → f ∈ c.faults ∨ c.offset ≤ f.span.start

theorem Adding.refl (c : Cursor) : Adding c c :=
  ⟨List.prefix_rfl, fun hc => ⟨hc, Nat.le_refl _⟩, fun _ _ hf _ => .inl hf⟩

instance : Steady Adding where
  trans h h' := {
    faults := h.faults.trans h'.faults
    onward := fun hc =>
      have hd := h.onward hc
      have he := h'.onward hd.1
      ⟨he.1, Nat.le_trans hd.2 he.2⟩
    behind := fun hc f hf hdeep => by
      obtain ⟨hd, hle⟩ := h.onward hc
      rcases h'.behind hd f hf hdeep with hf | hstart
      · exact h.behind hc f hf hdeep
      · exact .inr (Nat.le_trans hle hstart) }
  right {_ d} _ := .refl d
  pass _ hrest := ⟨List.prefix_rfl, fun hc => hc.sublist (hrest ▸ List.sublist_cons_self _ _) _,
    fun _ _ hf _ => .inl hf⟩
  skip p _ := ⟨List.prefix_rfl, fun hc => hc.sublist (List.dropWhile_sublist _) _, fun _ _ hf _ => .inl hf⟩
  cut _ hrest hn := ⟨List.prefix_rfl, fun hc => ⟨hc.cut hrest hn, Nat.le_of_eq (by rw [Cursor.offset, hrest]; rfl)⟩,
    fun _ _ hf _ => .inl hf⟩
  report {c d problem s} h hs := {
    faults := by
      rw [Cursor.report, Array.toList_push]
      exact h.faults.trans (List.prefix_append _ _)
    onward := fun hc => ⟨⟨(h.onward hc).1.pairwise, (h.onward hc).1.stop_le⟩, (h.onward hc).2⟩
    behind := fun hc f hf hdeep => by
      rcases Array.mem_push.mp hf with hf | rfl
      · exact h.behind hc f hf hdeep
      · exact .inr (Nat.le_of_eq (hs hdeep).symm) }

instance : Nests Adding Adding where
  enter {_} _ := .refl _
  leave _ hd _ := ⟨hd.faults, fun hc => ⟨⟨(hd.onward ⟨hc.pairwise, hc.stop_le⟩).1.pairwise,
    (hd.onward ⟨hc.pairwise, hc.stop_le⟩).1.stop_le⟩, (hd.onward ⟨hc.pairwise, hc.stop_le⟩).2⟩,
    fun hc => hd.behind ⟨hc.pairwise, hc.stop_le⟩⟩

/-- The step keeps all faults and adds its own behind them. -/
abbrev Parser.Adds {α : Type} (m : Parser α) : Prop := Keeps Adding m m

/-- The groups of a level take no fault back. -/
abbrev Groups.Add (g : Groups) : Prop := g.Keeps Adding g

theorem Parse.groups_add (levels : Nat) : (groups levels).Add := by
  induction levels with
  | zero => exact skipped_keeps
  | succ levels ih => exact opened_keeps ih

end ScriptLint
