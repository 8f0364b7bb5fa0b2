import Mathlib.Data.List.Sort
import ScriptLint.Proofs.Parser.Faults
import ScriptLint.Proofs.Parser.Recovery
import ScriptLint.Proofs.Parser.Skipping
import ScriptLint.Proofs.Syntax.ClosedGroup

/-!
A group that is refused. Where a parse comes to a group with no level of nesting left, it passes the group over
and reports it. A cursor never comes back to where it has been, so no group is refused twice; and what is
refused are the tokens up to the closer, however the brackets inside are nested.
-/

namespace ScriptLint

open Parse Cursor

/-- The diagnostic says that the group which starts here is nested too deep. -/
def Diagnostic.RefusesAt (d : Diagnostic) (start : Nat) : Prop :=
  d.rule = Check.nestingTooDeep.identity.id ∧ d.span.map Span.start = some start

instance (d : Diagnostic) (start : Nat) : Decidable (d.RefusesAt start) :=
  inferInstanceAs (Decidable (_ ∧ _))

/-- The fault is that of a group which starts here and is passed over. -/
def Fault.refusesAt (f : Fault) (start : Nat) : Bool := f.problem.isTooDeep && f.span.start = start

theorem Fault.refusesAt_diagnostic {f : Fault} {start : Nat} :
    f.diagnostic.RefusesAt start ↔ f.refusesAt start := by
  obtain ⟨problem, s⟩ := f
  have hcheck : problem.check.identity.id = Check.nestingTooDeep.identity.id ↔ problem.isTooDeep := by
    constructor
    · intro h
      have hproblem := Check.id_injective h
      cases problem with
      | nestingTooDeep => rfl
      | missingCloser closer => cases closer <;> cases hproblem
      | unexpectedToken | unterminatedString => cases hproblem
    · intro h
      cases problem with
      | nestingTooDeep => rfl
      | missingCloser | unexpectedToken | unterminatedString => cases h
  rw [refusesAt, Bool.and_eq_true, decide_eq_true_iff, ← hcheck]
  exact and_congr_right fun _ => Option.some_inj

namespace Cursor

variable {c : Cursor} {start : Nat}

/-- What has been reported of the groups that start here. -/
def refusals (start : Nat) (c : Cursor) : List Fault := c.faults.toList.filter (·.refusesAt start)

theorem refusals_report (problem : Problem) (s : Span) : (c.report problem s).refusals start =
    c.refusals start ++ if Fault.refusesAt ⟨problem, s⟩ start then [⟨problem, s⟩] else [] := by
  rw [refusals, report, Array.toList_push, List.filter_append, List.filter_singleton, cond_eq_ite]
  rfl

theorem refusals_report_of_not {problem : Problem} {s : Span}
    (h : Fault.refusesAt ⟨problem, s⟩ start = false) :
    (c.report problem s).refusals start = c.refusals start := by
  rw [refusals_report, h]
  exact List.append_nil _

end Cursor

namespace ClosedGroup

variable {source : String} (G : ClosedGroup source) {b b' c d d' : Cursor}

/-- The brackets ahead of a cursor inside of the group. -/
theorem brackets_eq {ts : List Token} (hc : c.Follows (tokenize source)) (hrest : c.rest = G.opener :: ts) :
    brackets ts = brackets (G.inside ++ G.closer :: G.behind) := by
  have hpairwise := (tiles_tokenize source).pairwise_start
  have hstops := (tiles_tokenize source).pairwise_stop_le
  have hlt := G.opener_lt
  rw [G.tokens_eq] at hpairwise hstops
  have hbehind := (List.pairwise_cons.mp (List.pairwise_append.mp hpairwise).2.1).2
  have hahead := (hc.sound.tiles_tail hrest).pairwise_start
  have : Std.Irrefl fun t u : Token => t.start < u.start := ⟨fun t => Nat.lt_irrefl _⟩
  have : Std.Antisymm fun t u : Token => t.start < u.start := ⟨fun t u h h' => absurd h (Nat.lt_asymm h')⟩
  refine (hahead.filter _).eq_of_mem_iff (hbehind.filter _) fun u => ?_
  have hiff (us : List Token) : u ∈ brackets us ↔ u ∈ us ∧ u.kind.isBracket := List.mem_filter
  refine (hiff ts).trans ((and_congr_left fun hbracket => ?_).trans (hiff _).symm)
  have hmem : u ∈ ts ↔ _ := (hc.pass hrest).mem_iff u hbracket
  rw [hmem, hc.sound.offset_pass hrest, G.tokens_eq]
  constructor
  · rintro ⟨hmem, hle⟩
    rcases List.mem_append.mp hmem with hfront | hmem
    · have hstop := (List.pairwise_append.mp hpairwise).2.2 u hfront G.opener List.mem_cons_self
      omega
    · rcases List.mem_cons.mp hmem with rfl | hmem
      · omega
      · exact hmem
  · intro hmem
    refine ⟨List.mem_append_right _ (List.mem_cons_of_mem _ hmem), ?_⟩
    exact (List.pairwise_cons.mp (List.pairwise_append.mp hstops).2.1).1 u hmem

/-- Whatever has been cut in the group, its closer is ahead of a cursor in front of it, and what stands between
the two is nested. -/
theorem exists_closer {ts : List Token} (hc : c.Follows (tokenize source)) (hrest : c.rest = G.opener :: ts) :
    ∃ inside behind, ts = inside ++ G.closer :: behind ∧ Nested (brackets inside) := by
  have hbrackets : brackets ts = brackets G.inside ++ G.closer :: brackets G.behind := by
    rw [G.brackets_eq hc hrest, brackets, brackets, brackets, List.filter_append,
      List.filter_cons_of_pos (by exact G.closed.isBracket.2)]
  obtain ⟨inside, ahead, rfl, hinside, hahead⟩ := List.filter_eq_append_iff.mp hbrackets
  obtain ⟨aside, behind, rfl, haside, -, -⟩ := List.filter_eq_cons_iff.mp hahead
  have hnone : aside.filter (·.kind.isBracket) = [] := List.filter_eq_nil_iff.mpr haside
  refine ⟨inside ++ aside, behind, by rw [List.append_assoc], ?_⟩
  rw [brackets, List.filter_append, hinside, hnone, List.append_nil]
  exact G.nested

/-- From `b` to `d` the group is refused at most once, where it stands. -/
def RefusedOnce (b d : Cursor) : Prop :=
  d.refusals G.opener.start = b.refusals G.opener.start ∨
    b.offset ≤ G.opener.start ∧ G.opener.start < d.offset ∧
      ∃ f, f.span = G.span ∧ d.refusals G.opener.start = b.refusals G.opener.start ++ [f]

variable {G}

theorem RefusedOnce.trans (h : G.RefusedOnce b c) (h' : G.RefusedOnce c d) (hbc : b.offset ≤ c.offset)
    (hcd : c.offset ≤ d.offset) : G.RefusedOnce b d := by
  rcases h with h | ⟨hb, hc, f, hf, h⟩ <;> rcases h' with h' | ⟨hc', hd, f', hf', h'⟩
  · exact .inl (h'.trans h)
  · exact .inr ⟨Nat.le_trans hbc hc', hd, f', hf', by rw [h', h]⟩
  · exact .inr ⟨hb, Nat.lt_of_lt_of_le hc hcd, f, hf, by rw [h', h]⟩
  · omega

theorem RefusedOnce.widen (h : G.RefusedOnce b' d') (hb : b.offset ≤ b'.offset) (hd : d'.offset ≤ d.offset)
    (hfaults : b'.faults = b.faults) (hrefusals : d.refusals G.opener.start = d'.refusals G.opener.start) :
    G.RefusedOnce b d := by
  have hsame : b'.refusals G.opener.start = b.refusals G.opener.start := by rw [refusals, hfaults]; rfl
  rw [RefusedOnce, hsame] at h
  rw [RefusedOnce, hrefusals]
  exact h.imp_right fun ⟨hstart, hstop, hf⟩ => ⟨Nat.le_trans hb hstart, Nat.lt_of_lt_of_le hstop hd, hf⟩

/-- Where a parse refuses the group, it passes over the group and nothing else. -/
theorem refusedOnce_tooDeep {o : Token} {ts : List Token} {limit : Nat} {e : Cursor} {s : Span}
    (hc : c.Follows (tokenize source)) (hrest : c.rest = o :: ts) (ho : o.kind.isOpener)
    (hs : s = ⟨o.start, e.offset⟩) (hskips : Skips (c.pass o ts) e)
    (he : e.rest = c.rest.drop ((groupLength? 0 c.rest).getD c.rest.length)) :
    G.RefusedOnce c (e.report (.nestingTooDeep limit) s) := by
  have hkept : e.refusals G.opener.start = c.refusals G.opener.start := by
    rw [refusals, hskips.faults_eq]
    rfl
  by_cases hstart : o.start = G.opener.start
  case neg =>
    refine .inl ((refusals_report_of_not ?_).trans hkept)
    rw [Fault.refusesAt, hs]
    simp [hstart]
  have hsize := (hskips.reaches (hc.sound.reaches_pass hrest).sound).size_eq
  have hbracket : o.kind.isBracket := TokenKind.isBracket_of_isOpener ho
  have hmem : o ∈ tokenize source := List.mem_of_mem_filter (hc.mem_brackets hrest hbracket)
  obtain rfl : o = G.opener := by
    have hlt := (tiles_tokenize source).start_lt_stop hmem
    have hlt' := G.opener_lt
    exact (tiles_tokenize source).eq_of_lt_stop hmem G.opener_mem (by omega) (by omega)
  obtain ⟨inside, behind, rfl, hnested⟩ := G.exists_closer hc hrest
  rw [hrest, groupLength?_of_closedBy G.closed hnested] at he
  have hbehind : e.rest = behind := by
    have hsplit : G.opener :: (inside ++ G.closer :: behind) =
        (G.opener :: inside ++ [G.closer]) ++ behind := by simp
    rw [he, Option.getD_some, hsplit]
    exact List.drop_left' (by simp)
  have hoffset : e.offset = G.closer.stop := by
    have hsplit : c.rest = (G.opener :: inside) ++ G.closer :: behind := hrest
    rw [← hc.sound.offset_through hsplit, offset, offset, hbehind, hsize]
    rfl
  refine .inr ⟨Nat.le_of_eq (offset_eq_start hrest), ?_, ⟨.nestingTooDeep limit, s⟩, ?_, ?_⟩
  · exact hoffset ▸ G.span_lt
  · rw [hs, hoffset]
    rfl
  · rw [refusals_report, hkept, Fault.refusesAt, hs]
    simp [Problem.isTooDeep]

end ClosedGroup

/-- Of all that a parse reads only a group past the last level is refused. -/
theorem Reads.refusedOnce {source : String} (G : ClosedGroup source) {k : Level} {b d : Cursor}
    {ps : List Part} (h : Reads k b ps d) (hb : b.Follows (tokenize source)) : G.RefusedOnce b d := by
  induction h with
  | nil | operand | comment => exact .inl rfl
  | passing hpassing =>
      cases hpassing with
      | aside | leave | cut => exact .inl rfl
      | stray | lacking => exact .inl (refusals_report_of_not rfl)
  | append h h' ih ih' =>
      have hfirst := h.reaches hb.sound
      have hsecond := h'.reaches hfirst.sound
      exact (ih hb).trans (ih' (h.follows hb)) hfirst.offset_le hsecond.offset_le
  | unclosed | bodiless => exact .inl (refusals_report_of_not rfl)
  | joint _ _ ih => exact ih hb
  | group hrest _ h _ hcloser ih =>
      have hinside := h.reaches (hb.sound.inside hrest)
      refine (ih (hb.inside hrest)).widen (hb.sound.reaches_pass hrest).offset_le ?_ rfl rfl
      exact (hinside.sound.reaches_pass hcloser).offset_le
  | cutOff hrest _ _ _ _ ih =>
      exact (ih (hb.inside hrest)).widen (hb.sound.reaches_pass hrest).offset_le (Nat.le_refl _) rfl
        (refusals_report_of_not rfl)
  | tooDeep hrest hn _ hs hskips he => exact ClosedGroup.refusedOnce_tooDeep hb hrest hn.isOpener hs hskips he

/-- A group of a script that is refused is refused once, from its opener to its closer. -/
theorem ClosedGroup.refused {source : String} (G : ClosedGroup source)
    (h : ∃ d ∈ (parse source).diagnostics, d.RefusesAt G.opener.start) :
    ((parse source).diagnostics.filter (·.RefusesAt G.opener.start)).map Diagnostic.span = [some G.span] := by
  obtain ⟨body, d, hreads, -, hparse⟩ := exists_reads source
  have hpred : (fun f : Fault => decide (f.diagnostic.RefusesAt G.opener.start)) =
      (·.refusesAt G.opener.start) := by
    funext f
    rw [Bool.eq_iff_iff, decide_eq_true_iff, Fault.refusesAt_diagnostic]
  have hrefusals : (parse source).diagnostics.filter (·.RefusesAt G.opener.start) =
      (d.refusals G.opener.start).map Fault.diagnostic := by
    rw [hparse, Parsed.diagnostics, List.filter_map]
    exact congrArg (fun p => (d.faults.toList.filter p).map Fault.diagnostic) hpred
  obtain ⟨r, hr, hrefuses⟩ := h
  have hmem : r ∈ (d.refusals G.opener.start).map Fault.diagnostic := by
    rw [← hrefusals]
    exact List.mem_filter.mpr ⟨hr, decide_eq_true hrefuses⟩
  rw [hrefusals]
  rcases hreads.refusedOnce G (.ofSource source) with hnone | ⟨-, -, f, hf, hone⟩
  · rw [hnone] at hmem
    cases hmem
  · rw [hone, ← hf]
    rfl

end ScriptLint
