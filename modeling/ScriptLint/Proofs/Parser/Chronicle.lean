import ScriptLint.Proofs.Parser.Reading

/-!
The order in which a parse reports. Some faults are reported where they are met, some at a token or a group that
has been passed by then, and some at the end of the script; yet no fault is reported at a place in front of the
last one. For whatever a parse reports has been passed since its last report, or is still ahead.
-/

namespace ScriptLint

open Cursor

namespace Cursor

/-- The faults have been reported from the front to the back, and none of them is ahead. -/
structure Chronicled (c : Cursor) : Prop where
  ordered : c.faults.toList.Pairwise fun f g => f.span.start ≤ g.span.start
  behind : ∀ f ∈ c.faults.toList, f.span.start ≤ c.offset

theorem chronicled_ofSource (source : String) : (ofSource source).Chronicled :=
  ⟨.nil, fun _ hf => absurd hf List.not_mem_nil⟩

namespace Chronicled

variable {c d : Cursor}

theorem on (h : c.Chronicled) (hfaults : d.faults = c.faults) (hle : c.offset ≤ d.offset) : d.Chronicled where
  ordered := hfaults ▸ h.ordered
  behind f hf := Nat.le_trans (h.behind f (hfaults ▸ hf)) hle

theorem outside (h : d.Chronicled) : (c.outside d).Chronicled := h.on rfl (Nat.le_refl _)

/-- A report at a place that has been passed on the way from `c` to `d`, or at one of its ends, if there was no
other on this way. -/
theorem report (h : c.Chronicled) (hfaults : d.faults = c.faults) (problem : Problem) {s : Span}
    (hfrom : c.offset ≤ s.start) (hto : s.start ≤ d.offset) : (d.report problem s).Chronicled := by
  have hd := h.on hfaults (Nat.le_trans hfrom hto)
  have hlist : (d.report problem s).faults.toList = d.faults.toList ++ [⟨problem, s⟩] := Array.toList_push
  constructor
  case ordered =>
    rw [hlist, List.pairwise_append]
    refine ⟨hd.ordered, List.pairwise_singleton _ _, fun f hf g hg => ?_⟩
    obtain rfl := List.mem_singleton.mp hg
    exact Nat.le_trans (h.behind f (hfaults ▸ hf)) hfrom
  case behind =>
    rw [hlist, List.forall_mem_append]
    exact ⟨hd.behind, List.forall_mem_singleton.mpr hto⟩

variable {t : Token} {ts : List Token}

theorem pass (h : c.Chronicled) (hc : c.Sound) (hrest : c.rest = t :: ts) : (c.pass t ts).Chronicled :=
  h.on rfl (hc.reaches_pass hrest).offset_le

theorem inside (h : c.Chronicled) (hc : c.Sound) (hrest : c.rest = t :: ts) : (c.inside t ts).Chronicled :=
  (h.pass hc hrest).on rfl (Nat.le_refl _)

/-- The token that has just been passed is reported. -/
theorem report_pass (h : c.Chronicled) (hc : c.Sound) (hrest : c.rest = t :: ts) (problem : Problem) :
    ((c.pass t ts).report problem t.span).Chronicled := by
  obtain ⟨hstart, hlt, hstop⟩ := hc.bounds hrest
  have hfaults : (c.pass t ts).faults = c.faults := rfl
  exact h.report hfaults problem (Nat.le_of_eq hstart) (hstop ▸ Nat.le_of_lt hlt)

/-- Something is reported to be missing where the cursor is. -/
theorem report_here (h : c.Chronicled) (problem : Problem) : (c.report problem (.empty c.offset)).Chronicled :=
  h.report rfl problem (Nat.le_refl _) (Nat.le_refl _)

end Chronicled

theorem Passing.chronicled {k : Level} {c d : Cursor} (h : Passing k c d) (hc : c.Sound)
    (hchron : c.Chronicled) : d.Chronicled := by
  have hle := (h.reaches hc).offset_le
  cases h with
  | aside | leave | cut => exact hchron.on rfl hle
  | stray hrest => exact hchron.report_pass hc hrest _
  | lacking => exact hchron.report_here _

end Cursor

/-- Whatever a parse reads, its faults stay in order. -/
theorem Reads.chronicled {k : Level} {b d : Cursor} {ps : List Part} (h : Reads k b ps d) (hb : b.Sound)
    (hchron : b.Chronicled) : d.Chronicled := by
  induction h with
  | nil => exact hchron
  | passing hpassing => exact hpassing.chronicled hb hchron
  | append hfirst _ ih ih' => exact ih' (hfirst.reaches hb).sound (ih hb hchron)
  | operand hrest | comment hrest => exact hchron.pass hb hrest
  | unclosed hrest => exact hchron.report_pass hb hrest _
  | joint _ _ ih => exact ih hb hchron
  | group hrest _ hreads _ hcloser ih =>
      have hinside := ih (hb.inside hrest) (hchron.inside hb hrest)
      exact (hinside.pass (hreads.reaches (hb.inside hrest)).sound hcloser).outside
  | cutOff hrest _ _ _ hend ih =>
      have hinside := ih (hb.inside hrest) (hchron.inside hb hrest)
      -- behind the last token, the end of the script is where the cursor is
      rw [← offset_of_rest_nil hend]
      exact hinside.outside.report_here _
  | tooDeep hrest _ _ hspan hskips =>
      -- the group has been passed over by now, but nothing in it has been reported
      have hstart := offset_eq_start hrest
      have hpass := hb.reaches_pass hrest
      have hle := (hpass.trans (hskips.reaches hpass.sound)).offset_le
      rw [hspan]
      exact hchron.report hskips.faults_eq _ (Nat.le_of_eq hstart) (hstart ▸ hle)
  | bodiless => exact hchron.report_here _

/-- Every diagnostic of a parse has a place, and the places stand in the order in which they start. -/
theorem diagnostics_in_order (source : String) :
    ∃ starts : List Nat, (parse source).diagnostics.map (·.span.map Span.start) = starts.map some ∧
      starts.Pairwise (· ≤ ·) := by
  obtain ⟨body, d, hreads, -, hparse⟩ := exists_reads source
  have hchron := hreads.chronicled (sound_ofSource source) (chronicled_ofSource source)
  refine ⟨d.faults.toList.map (·.span.start), ?_, List.pairwise_map.mpr hchron.ordered⟩
  rw [hparse, Parsed.diagnostics, List.map_map, List.map_map]
  rfl

/-- A bar without a stage, a closer that closes nothing, a function without a block, and two groups that end
with the script. -/
example : (parse "1 | ;) function f; ((2").diagnostics.map (·.span.map Span.start) =
    [4, 5, 17, 22, 22].map some := by
  decide +kernel

end ScriptLint
