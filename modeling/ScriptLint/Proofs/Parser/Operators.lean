import Mathlib.Data.List.Chain
import ScriptLint.Proofs.Parser.Operands
import ScriptLint.Proofs.Parser.Reading.Statement
import ScriptLint.Proofs.Syntax.Spelling.Token

/-!
Operators that assign. Behind the first expression of a statement such an operator makes the statement an
assignment. What stands on its right-hand side is read like any other pipeline, so an operator behind an
expression there is not read with it: the statement ends in front of it, and the next one starts with it.
-/

namespace ScriptLint

open ScriptLint.Parser Cursor

/-- Right behind the expression, blanks and comments apart, stands a word that starts with an operator. -/
structure Expression.Meets (source : String) (e : Expression) (t : Token) : Prop where
  mem : t ∈ tokenize source
  assigns : (Literal.assignmentLength? t.text).isSome
  stop_le : e.span.stop ≤ t.start
  between : ∀ u ∈ tokenize source, e.span.stop < u.stop → u.start < t.start → u.kind.isTrivia

/-- Where the expression starts stands an operator: a token of the script starts with it, or what is left of
one. -/
def Expression.AtOperator (source : String) (e : Expression) : Prop :=
  ∃ u : Token, u.StemsFrom source ∧ u.start = e.span.start ∧ (Literal.assignmentLength? u.text).isSome

/-- The expression starts with no word by which a command could be called: with a number or an operator, or
with a token that is none. -/
def Expression.CallsNothing (source : String) (e : Expression) : Prop :=
  ∀ text s, e.parts.head? = some (.bareword text s) → Parse.isOperand text = true ∨
    ∃ u ∈ tokenize source, u.kind ≠ .word ∧ u.text = text ∧ u.span = s

namespace Statement

/-- The expression that a statement starts with: what is assigned to, or the first stage. -/
def subject? : Statement → Option Expression
  | assignment target _ _ _ => some target
  | pipeline p =>
    match p.stages.head? with
    | some (.expression e) => some e
    | _ => none
  | _ => none

/-- The statement is the assignment of an expression behind which the operator `t` stands. -/
def CutAt (source : String) (s : Statement) (t : Token) : Prop :=
  ∃ x operator value span e, s = .assignment x operator value span ∧
    value.stages.head? = some (.expression e) ∧ e.Meets source t

/-- The statement starts with an expression of which `t` is the first part. -/
def StartsWith (s : Statement) (t : Token) : Prop :=
  ∃ e, s.subject? = some e ∧ e.parts.head? = some t.bareword

/-- Where a statement has operators. -/
structure Operates (source : String) (s : Statement) : Prop where
  behind : ∀ e, s.subject? = some e → ∀ p ∈ e.parts.tail, ¬ p.IsOperator
  assigns : ∀ e, s.subject? = some e → ∀ t, e.Meets source t → ∃ operator value span tail,
    s = .assignment e operator value span ∧ operator ∈ Literal.assignmentOperators ∧ t.text = operator ++ tail
  right : ∀ x operator value span e, s = .assignment x operator value span →
    value.stages.head? = some (.expression e) → e.CallsNothing source ∧
      ∀ t, e.Meets source t → value.stages = [.expression e] ∧ span.stop ≤ t.start

end Statement

/-- A body goes on behind each statement that is cut, and with the operator. -/
structure Statement.Continue (source : String) (body : List Statement) : Prop where
  next : body.IsChain fun s s' => ∀ t, s.CutAt source t → s'.StartsWith t
  last : ∀ s ∈ body.getLast?, ∀ t, ¬ s.CutAt source t

theorem Expression.Meets.kind_eq {source : String} {e : Expression} {t : Token} (h : e.Meets source t) :
    t.kind = .word :=
  Lexer.kind_of_assignmentLength? h.mem h.assigns

theorem Statement.CutAt.kind_eq {source : String} {s : Statement} {t : Token} (h : s.CutAt source t) :
    t.kind = .word := by
  obtain ⟨_, _, _, _, _, -, -, hmeets⟩ := h
  exact hmeets.kind_eq

theorem Statement.CutAt.assigns {source : String} {s : Statement} {t : Token} (h : s.CutAt source t) :
    (Literal.assignmentLength? t.text).isSome := by
  obtain ⟨_, _, _, _, _, -, -, hmeets⟩ := h
  exact hmeets.assigns

namespace Parse

variable {source : String} {b c d : Cursor} {t u : Token} {ts us : List Token} {levels : Nat} {g : Groups}
  {e : Expression}

/-- The operator behind an expression is ahead when the expression has been read. -/
theorem Expressed.rest_eq (he : Expressed source b e d) (h : e.Meets source t) : ∃ ts, d.rest = t :: ts := by
  have hd := he.along
  have hle := hd.offset_le he.stop_eq h.mem (by rw [h.kind_eq]; rfl) h.stop_le
  have hmem := hd.ahead t h.mem hle
  cases hrest : d.rest with
  | nil =>
      rw [hrest] at hmem
      cases hmem
  | cons v vs =>
      rw [hrest] at hmem
      rcases List.mem_cons.mp hmem with rfl | hbehind
      · exact ⟨vs, rfl⟩
      · -- otherwise a token that is no blank and no comment stands between them
        obtain ⟨w, hw, hend, -⟩ := hd.stems v (hrest ▸ List.mem_cons_self)
        have hstart := hend.start_le
        have hstop := hend.stop_eq
        have hfront : e.span.stop ≤ v.start := by
          have hlast := hd.sound.lastEnd_le
          have hsize := hd.stop_le_size h.mem
          have hlt := start_lt_stop_of_mem h.mem
          have hbefore := h.stop_le
          rw [offset_eq_start hrest] at hlast
          rcases he.stop_eq with h | h <;> omega
        have hv := hd.sound.start_lt_stop hrest
        have hvt := (hd.sound.tiles_tail hrest).le_start hbehind
        have htrivia := h.between w hw (by omega) (by omega)
        rw [← hend.kind_eq, he.atToken v vs hrest] at htrivia
        cases htrivia

/-- An operator is the first part of an expression wherever one stands in front. -/
theorem Expressed.head_isOperator_iff (he : Expressed source b e d) :
    (∃ part ∈ e.parts.head?, part.IsOperator) ↔ e.AtOperator source := by
  obtain ⟨p, u, hp, hstart, hmade, -⟩ := he.first
  have hhead : (∃ part ∈ e.parts.head?, part.IsOperator) ↔ p.IsOperator := by simp [hp]
  rw [hhead]
  constructor
  · intro hoperator
    rcases hmade.made with rfl | hnoWord
    · exact ⟨u, hmade.stems, (hstart.trans hmade.start_eq).symm, Expression.isOperator_bareword.mp hoperator⟩
    · exact absurd hoperator hnoWord.not_isOperator
  · rintro ⟨v, hv, hvstart, hassigns⟩
    have htext : v.text ≠ "" := by
      intro hnil
      rw [hnil] at hassigns
      exact absurd hassigns (by decide)
    obtain rfl := hv.eq hmade.stems (Token.start_lt_stop htext) hmade.start_lt_stop
      (hvstart.trans (hstart.trans hmade.start_eq))
    rw [hmade.eq_bareword (hv.kind_eq_word hassigns)]
    exact Expression.isOperator_bareword.mpr hassigns

theorem Expressed.skipBlanks_rest_eq (he : Expressed source b e d) (h : e.Meets source t) :
    ∃ ts, d.skipBlanks.rest = t :: ts := by
  obtain ⟨ts, hrest⟩ := he.rest_eq h
  have hskip : d.skipBlanks = d := skip_of_rest hrest (by simp [h.kind_eq])
  exact ⟨ts, by rw [hskip]; exact hrest⟩

/-- The expression of a stage, which starts with a word only if this may be an operand. -/
theorem stage_expressed (hc : c.Along source) :
    Gives (stage (groups levels)) c fun s? d => ∀ e, s? = some (.expression e) →
      Expressed source c.skipBlanks e d ∧ ∃ u us, c.skipBlanks.rest = u :: us ∧
        (u.kind = .word → isOperand u.text) := by
  have hskip := lasting_skipBlanks hc
  have hcommand {m : Parser Invocation} {c : Cursor} {Q : Expression → Cursor → Prop} :
      Gives (do return some (Stage.command (← m))) c fun s? d => ∀ e, s? = some (.expression e) → Q e d :=
    gives_bind fun _ _ => nofun
  have hcalled {operator : CallOperator} {c : Cursor} {Q : Expression → Cursor → Prop} :
      Gives (calledStage (groups levels) operator) c fun s? d => ∀ e, s? = some (.expression e) → Q e d := by
    refine gives_bind fun _ _ => gives_bind fun _ _ => gives_bind fun head? _ => ?_
    cases head? with
    | none => exact fun e he => absurd he.symm (Option.some_ne_none _)
    | some head => exact hcommand
  rw [stage, Gives, holds_skipBlanks_bind, holds_get_bind]
  split
  case h_1 => exact fun e he => absurd he.symm (Option.some_ne_none _)
  case h_2 u us hrest =>
    split_ifs with hcall hsource hname
    · exact hcalled
    · exact hcalled
    · exact gives_bind fun _ _ => hcommand
    · refine (expression_expressed hskip).bind fun e? d hd e he => ?_
      obtain ⟨e, rfl, heq⟩ := Option.map_eq_some_iff.mp he
      cases heq
      exact ⟨hd.1 e rfl, u, us, hrest, fun hu => by simpa [hu] using hname⟩

/-- A stage at an operator is an expression that starts with it. -/
theorem stage_at_operator (hc : c.Along source) (hrest : c.rest = t :: ts) (hword : t.kind = .word)
    (hassigns : (Literal.assignmentLength? t.text).isSome) :
    Gives (stage (groups levels)) c fun s? _ => ∃ e, s? = some (.expression e) ∧
      e.parts.head? = some t.bareword := by
  have hskip : c.skipBlanks = c := skip_of_rest hrest (by simp [hword])
  have hsourcing : sourcing t ts = false := by
    have hne : t.text ≠ "." := by
      intro h
      rw [h] at hassigns
      exact absurd hassigns (by decide)
    simp [sourcing, hne]
  rw [stage, Gives, holds_skipBlanks_bind, holds_get_bind, hskip, hrest]
  dsimp only
  rw [if_neg (by simp [hword]), if_neg (by simp [hsourcing]), if_neg (by simp [isOperand, hassigns])]
  refine (expression_expressed hc).bind fun e? d h => ?_
  obtain ⟨hexpressed, hsome⟩ := h
  have hk := (kind?_of_rest hrest).trans (congrArg some hword)
  obtain ⟨e, rfl⟩ := Option.isSome_iff_exists.mp (hsome hk)
  obtain ⟨p, u, hp, -, hmade, hahead⟩ := (hexpressed e rfl).first
  obtain rfl := hahead t ts hrest (by rw [hword]; rfl)
  exact ⟨e, rfl, by rw [hp, hmade.eq_bareword hword]⟩

/-- A pipeline starts with its first stage, and at a word there is nothing behind it. -/
theorem pipelineFrom_starts (first : Stage) :
    Gives (pipelineFrom g first) c fun p d => p.stages.head? = some first ∧
      (c.kind? = some .word →
        d = c ∧ p = ⟨[first], ⟨first.span.start, max c.lastEnd first.span.start⟩⟩) := by
  refine Holds.and ?_ ?_
  · refine (repeating_keeps (I := fun (stages : Array Stage) _ => stages.toList.head? = some first) rfl
      fun stages d h => ?_).bind fun stages d h => gives_bind fun _ _ => gives_bind fun _ _ => h
    rw [pipelineRound, Gives, holds_skipBlanks_bind, holds_get_bind]
    split
    · exact gives_bind fun _ _ => h
    · refine gives_bind fun _ _ => gives_bind fun _ _ => gives_bind fun s? _ => ?_
      cases s? with
      | none => exact gives_bind fun _ _ => gives_bind fun _ _ => h
      | some s =>
          rw [Gives, holds_pure, Kept, Array.toList_push, List.head?_append, h]
          rfl
    · exact h
  · by_cases hk : c.kind? = some .word
    · obtain ⟨t, ts, hrest, hword⟩ := kind?_eq_some.mp hk
      have hskip : c.skipBlanks = c := skip_of_rest hrest (by simp [hword])
      refine (repeating_keeps (I := fun (stages : Array Stage) d => stages = #[first] ∧ d = c) ⟨rfl, rfl⟩
        ?_).bind ?_
      · rintro _ _ ⟨rfl, rfl⟩
        rw [pipelineRound, Gives, holds_skipBlanks_bind, hskip, holds_get_bind, hk]
        exact ⟨rfl, rfl⟩
      · rintro _ _ ⟨rfl, rfl⟩
        rw [holds_get_bind]
        exact gives_span_bind fun _ _ => ⟨rfl, rfl⟩
    · exact gives_iff.mpr fun _ _ _ h => absurd h hk

/-- What is known of the value of an assignment that ends at `stop`, at the cursor behind it. -/
def Valued (source : String) (value : Pipeline) (stop : Nat) (d : Cursor) : Prop :=
  ∀ e, value.stages.head? = some (.expression e) → e.CallsNothing source ∧
    ∀ t, e.Meets source t → value.stages = [.expression e] ∧ stop ≤ t.start ∧ ∃ ts, d.rest = t :: ts

theorem callsNothing_of_expressed (he : Expressed source b e d) (hrest : b.rest = u :: us)
    (hu : u.kind.isTrivia = false)
    (hoperand : u.kind = .word → isOperand u.text) : e.CallsNothing source := by
  intro text s hhead
  obtain ⟨p, v, hp, -, hmade, hahead⟩ := he.first
  obtain rfl := hahead u us hrest hu
  obtain rfl := Option.some.inj (hp.symm.trans hhead)
  obtain heq | hnoWord := hmade.made
  · cases heq
    by_cases hword : u.kind = .word
    · exact .inl (hoperand hword)
    · obtain ⟨w, hw, -, hword' | rfl⟩ := hmade.stems
      · exact absurd hword' hword
      · exact .inr ⟨u, hw, hword, rfl, rfl⟩
  · exact absurd rfl (hnoWord.ne text s)

/-- Behind blanks, comments and line ends there is none of them ahead, so no blank is left to be passed. -/
theorem skipBlanks_skipSpacing (c : Cursor) : c.skipSpacing.skipBlanks = c.skipSpacing ∧
    ∀ u us, c.skipSpacing.rest = u :: us → u.kind.isTrivia = false := by
  have hspacing : ∀ u us, c.skipSpacing.rest = u :: us → u.kind.isSpacing = false :=
    fun _ _ hrest => not_of_rest_skip hrest
  refine ⟨?_, fun u us hrest => ?_⟩
  · cases hrest : c.skipSpacing.rest with
    | nil => exact skip_of_rest_nil hrest
    | cons u us =>
        refine skip_of_rest hrest (decide_eq_false fun h => ?_)
        have := hspacing u us hrest
        rw [h] at this
        cases this
  · refine Bool.eq_false_iff.mpr fun h => ?_
    have := TokenKind.isSpacing_of_isTrivia _ h
    rw [hspacing u us hrest] at this
    cases this

theorem assignedValue_valued (hc : c.Along source) (stop : Nat) :
    Gives (assignedValue (groups levels) stop) c fun value d => Valued source value value.span.stop d := by
  have hskip := lasting_skipSpacing hc
  obtain ⟨hblanks, htrivia⟩ := skipBlanks_skipSpacing c
  rw [assignedValue, Gives, holds_skipSpacing_bind]
  refine Holds.bind (Q := fun p? d => Valued source (p?.getD ⟨[], .empty stop⟩)
    (p?.getD ⟨[], .empty stop⟩).span.stop d) ?_ fun _ _ h => holds_pure.mpr h
  refine ((stage_ends (groups_safe levels) hskip.sound).and (stage_expressed hskip)).bind
    fun first? d h => ?_
  obtain ⟨hfound, hexpressed⟩ := h
  cases first? with
  | none => exact fun e he => absurd he (by simp)
  | some first =>
      refine (pipelineFrom_starts first).bind fun p f hp e he => ?_
      obtain ⟨hhead, hword⟩ := hp
      obtain rfl := Option.some.inj (hhead.symm.trans he)
      obtain ⟨hread, u, us, hrest, hoperand⟩ := hexpressed e rfl
      rw [hblanks] at hread hrest
      refine ⟨callsNothing_of_expressed hread hrest (htrivia u us hrest) hoperand, fun t ht => ?_⟩
      obtain ⟨ts, hd⟩ := hread.rest_eq ht
      obtain ⟨rfl, rfl⟩ := hword ((kind?_of_rest hd).trans (congrArg some ht.kind_eq))
      have hlast := hread.along.sound.lastEnd_le
      have hstart : e.span.start < f.offset := Takes.start_lt_offset hfound
      rw [offset_eq_start hd] at hlast hstart
      exact ⟨rfl, Nat.max_le.mpr ⟨hlast, Nat.le_of_lt hstart⟩, ts, hd⟩

theorem passOperator_text {head tail : String} (hrest : c.rest = t :: ts) (htext : t.text = head ++ tail) :
    Gives (passOperator head.utf8ByteSize) c fun u _ => u.text = head := by
  rw [Gives, holds_passOperator hrest htext]
  split
  case isTrue htail => rw [htext, htail, String.append_empty]
  case isFalse => rw [Token.cut_eq htext]

/-- An assignment with the operator that is ahead. -/
theorem assignment_operates (hc : c.Along source) (hrest : c.rest = t :: ts) (hword : t.kind = .word)
    {n : Nat} (hn : Literal.assignmentLength? t.text = some n) (target : Expression) :
    Gives (assignment (groups levels) target n) c fun s d => ∃ operator value span tail,
      s = .assignment target operator value span ∧ operator ∈ Literal.assignmentOperators ∧
        t.text = operator ++ tail ∧ Valued source value span.stop d := by
  obtain ⟨operator, hmem, tail, htext, rfl⟩ := Literal.exists_operator_of_assignmentLength? hn
  have hne : operator ≠ "" := by
    rintro rfl
    exact absurd hmem (by decide)
  refine ((moves_passOperator hc hrest hword htext hne).and ((passOperator_reads ⟨0, none⟩ hc.sound hrest hword
    htext hne).and (passOperator_text hrest htext))).bind fun u d ⟨hd, hbehind, hu⟩ => ?_
  refine ((assignedValue_ends (groups_safe levels) hd.sound u.stop).and (assignedValue_valued hd u.stop)).bind
    fun value f ⟨hf, hvalue⟩ => gives_span_bind fun _ => ?_
  refine ⟨u.text, value, _, tail, rfl, by rw [hu]; exact hmem, by rw [hu]; exact htext, fun e he => ?_⟩
  obtain ⟨hcalls, hmeets⟩ := hvalue e he
  refine ⟨hcalls, fun v hv => ?_⟩
  obtain ⟨hstages, hstop, vs, hrest'⟩ := hmeets v hv
  have hle := hf.offset_le
  rw [offset_eq_start hrest', ← hbehind.stop_eq] at hle
  exact ⟨hstages, Nat.max_le.mpr ⟨hstop, hle⟩, vs, hrest'⟩

/-- What is known of a statement at the cursor behind it. -/
structure Stands (source : String) (s : Statement) (d : Cursor) : Prop where
  operates : s.Operates source
  cut : ∀ t, s.CutAt source t → ∃ ts, d.rest = t :: ts

/-- A statement that does not start with an expression has no operators. -/
theorem stands_of_subject?_eq_none {s : Statement} (h : s.subject? = none) : Stands source s d where
  operates := by
    refine ⟨fun e he => ?_, fun e he => ?_, fun x operator value span e hs => ?_⟩
    · rw [h] at he
      cases he
    · rw [h] at he
      cases he
    · rw [hs] at h
      cases h
  cut := by
    rintro t ⟨x, operator, value, span, e, rfl, -⟩
    cases h

/-- The assignment to an expression, with the operator behind it. -/
theorem stands_of_assignment {operator tail : String} {value : Pipeline} {s : Span} {f : Cursor}
    (he : Expressed source b e d) (hrest : d.skipBlanks.rest = t :: ts)
    (hmem : operator ∈ Literal.assignmentOperators) (htext : t.text = operator ++ tail)
    (hvalue : Valued source value s.stop f) : Stands source (.assignment e operator value s) f := by
  refine ⟨⟨fun x hx => ?_, fun x hx v hv => ?_, fun x _ _ _ y hs hy => ?_⟩, ?_⟩
  · cases hx
    exact he.behind
  · cases hx
    obtain ⟨vs, hrest'⟩ := he.skipBlanks_rest_eq hv
    rw [hrest] at hrest'
    cases hrest'
    exact ⟨operator, value, s, tail, rfl, hmem, htext⟩
  · cases hs
    exact ⟨(hvalue y hy).1, fun v hv => ⟨((hvalue y hy).2 v hv).1, ((hvalue y hy).2 v hv).2.1⟩⟩
  · rintro v ⟨_, _, _, _, y, hs, hy, hv⟩
    cases hs
    exact ((hvalue y hy).2 v hv).2.2

/-- A pipeline that starts with an expression, with no operator behind this. -/
theorem stands_of_pipeline {p : Pipeline} {f : Cursor} (he : Expressed source b e d)
    (hnone : assignmentAhead? d.skipBlanks = none) (hhead : p.stages.head? = some (.expression e)) :
    Stands source (.pipeline p) f := by
  have hsubject : (Statement.pipeline p).subject? = some e := by simp [Statement.subject?, hhead]
  refine ⟨⟨fun x hx => ?_, fun x hx v hv => ?_, fun _ _ _ _ _ hs => by cases hs⟩, ?_⟩
  · obtain rfl := Option.some.inj (hsubject.symm.trans hx)
    exact he.behind
  · obtain rfl := Option.some.inj (hsubject.symm.trans hx)
    obtain ⟨vs, hrest⟩ := he.skipBlanks_rest_eq hv
    have hassigns := hv.assigns
    rw [← assignmentAhead?_of_rest hrest hv.kind_eq, hnone] at hassigns
    cases hassigns
  · rintro v ⟨_, _, _, _, _, hs, -⟩
    cases hs

theorem pipelineStatement_stands (hc : c.Along source) :
    Gives (pipelineStatement (groups levels)) c fun s? d => ∀ s ∈ s?, Stands source s d := by
  refine ((makes_stage (groups_makes levels) c hc).and (stage_expressed hc)).bind
    fun first? d ⟨⟨hd, _⟩, hexpressed⟩ => ?_
  match first? with
  | none => exact nofun
  | some (.command i) =>
    refine (pipelineFrom_starts (.command i)).bind fun p f ⟨hhead, _⟩ s hs => ?_
    cases hs
    exact stands_of_subject?_eq_none (by simp [Statement.subject?, hhead])
  | some (.expression target) =>
    obtain ⟨hread, -⟩ := hexpressed target rfl
    dsimp only
    rw [holds_skipBlanks_bind, holds_get_bind]
    split
    case h_1 n hn =>
      obtain ⟨t, ts, hrest, hword, hlength⟩ := assignmentAhead?_eq_some.mp hn
      refine (assignment_operates (lasting_skipBlanks hd) hrest hword hlength target).bind
        fun s f h s' hs' => ?_
      obtain ⟨operator, value, span, tail, rfl, hmem, htext, hvalue⟩ := h
      cases hs'
      exact stands_of_assignment hread hrest hmem htext hvalue
    case h_2 hnone =>
      refine (pipelineFrom_starts (.expression target)).bind fun p f hp s hs => ?_
      cases hs
      exact stands_of_pipeline hread hnone hp.1

theorem statement_stands (hc : c.Along source) :
    Gives (statement (groups levels)) c fun s? d => ∀ s ∈ s?, Stands source s d := by
  have hkeyword {s : Statement} (hs : s.subject? = none) (d : Cursor) : ∀ s' ∈ some s, Stands source s' d := by
    rintro s' hs'
    cases hs'
    exact stands_of_subject?_eq_none hs
  refine gives_statement (fun _ _ _ _ _ => hkeyword rfl) (fun keyword _ => ?_) (fun _ _ _ => hkeyword rfl)
    (pipelineStatement_stands hc)
  iterate 4 refine gives_bind fun _ _ => ?_
  exact gives_span_bind fun _ => hkeyword rfl _

/-- A statement at an operator starts with it. -/
theorem statement_at_operator (hc : c.Along source) (hrest : c.rest = t :: ts) (hword : t.kind = .word)
    (hassigns : (Literal.assignmentLength? t.text).isSome) :
    Gives (statement (groups levels)) c fun s? _ => ∃ s, s? = some s ∧ s.StartsWith t := by
  have hkeyword : ∀ keyword ∈ "function" :: "filter" :: (compoundKeywords ++ flowKeywords),
      Text.fold t.text ≠ keyword := by
    rintro keyword hmem rfl
    have hnone : ∀ keyword ∈ "function" :: "filter" :: (compoundKeywords ++ flowKeywords),
        Literal.assignmentLength? keyword = none := by decide
    rw [← Spelling.folded_text] at hmem
    rw [← Literal.assignmentLength?_text Spelling.folded, hnone _ hmem] at hassigns
    cases hassigns
  have hform : form c = .pipeline := by
    simp only [List.forall_mem_cons, List.forall_mem_append] at hkeyword
    obtain ⟨hfunction, hfilter, hcompound, hflow⟩ := hkeyword
    rw [form, hrest]
    dsimp only
    rw [if_neg (not_not.mpr hword), if_neg (by simp [hfunction, hfilter]),
      if_neg fun h => hcompound _ h.1 rfl, if_neg fun h => hflow _ h rfl]
  rw [statement, Gives, holds_get_bind, hform]
  refine (stage_at_operator hc hrest hword hassigns).bind fun s? d h => ?_
  obtain ⟨e, rfl, hhead⟩ := h
  dsimp only
  rw [holds_skipBlanks_bind, holds_get_bind]
  split
  case h_1 n hn =>
    have hassigned : Gives (assignment (groups levels) e n) d.skipBlanks fun s _ => s.subject? = some e :=
      gives_bind fun _ _ => gives_bind fun _ _ => gives_span_bind fun _ => rfl
    exact hassigned.bind fun s f hs => ⟨s, rfl, e, hs, hhead⟩
  case h_2 hnone =>
    refine (pipelineFrom_starts (.expression e)).bind fun p f hp => ?_
    exact ⟨_, rfl, e, by simp [Statement.subject?, hp.1], hhead⟩

/-- The statements of a body that have been read up to `d`. -/
structure Continued (source : String) (found : List Statement) (d : Cursor) : Prop where
  along : d.Along source
  next : found.IsChain fun s s' => ∀ t, s.CutAt source t → s'.StartsWith t
  ahead : ∀ s ∈ found.getLast?, ∀ t, s.CutAt source t → ∃ ts, d.rest = t :: ts

variable {found : List Statement} {s : Statement}

theorem Continued.push (h : Continued source found c) (hd : d.Along source)
    (hstarts : ∀ s' ∈ found.getLast?, ∀ t, s'.CutAt source t → s.StartsWith t)
    (hcut : ∀ t, s.CutAt source t → ∃ ts, d.rest = t :: ts) : Continued source (found ++ [s]) d where
  along := hd
  next := List.isChain_append.mpr ⟨h.next, .singleton s, fun s' hs' => by simpa using hstarts s' hs'⟩
  ahead := by simpa using hcut

theorem Continued.skip (h : Continued source found c) : Continued source found (c.skip separates) where
  along := h.along.skip fun k hk => by
    cases k <;> first | exact .inl rfl | exact .inr (.inl rfl) | exact .inr (.inr rfl) | cases hk
  next := h.next
  ahead := fun s hs t ht => by
    obtain ⟨ts, hrest⟩ := h.ahead s hs t ht
    rw [skip_of_rest hrest (by rw [ht.kind_eq]; rfl)]
    exact ⟨ts, hrest⟩

/-- In front of what is no word no statement is cut. -/
theorem Continued.continue (h : Continued source found c) (hk : c.kind? ≠ some .word) :
    Statement.Continue source found where
  next := h.next
  last := fun s hs t ht => by
    obtain ⟨ts, hrest⟩ := h.ahead s hs t ht
    exact hk ((kind?_of_rest hrest).trans (congrArg some ht.kind_eq))

/-- What has been read of a body in a round, the last one or another. -/
def Continues (source : String) : ForInStep (Array Statement) → Cursor → Prop
  | .done found => fun _ => Statement.Continue source found.toList
  | .yield found => Continued source found.toList

theorem statementsRound_continues (closer : Option Closer) {found : Array Statement}
    (h : Continued source found.toList c) :
    Gives (statementsRound (groups levels) closer found) c (Continues source) := by
  have h := h.skip
  rw [statementsRound, Gives, holds_skip_bind, holds_get_bind]
  split
  case h_1 hrest => exact h.continue (by simp [kind?_of_rest_nil hrest])
  case h_2 u us hrest =>
    have hk := kind?_of_rest hrest
    split_ifs with hcomment hcloser
    · refine (holds_advance_bind hrest).mpr ?_
      rw [holds_pure, Continues, Array.toList_push]
      have hcontinue := h.continue (by simp [hk, hcomment])
      refine h.push (h.along.pass hrest) (fun s hs t ht => absurd ht (hcontinue.last s hs t)) ?_
      rintro t ⟨_, _, _, _, _, hs, -⟩
      cases hs
    · refine h.continue ?_
      rw [hk, ← hcloser]
      obtain _ | _ | _ := closer <;> decide
    · have hat : Gives (statement (groups levels)) (c.skip separates) fun s? _ =>
          ∀ s ∈ found.toList.getLast?, ∀ t, s.CutAt source t → ∃ s', s? = some s' ∧ s'.StartsWith t := by
        refine gives_iff.mpr fun s? d hrun s hs t ht => ?_
        obtain ⟨ts, hrest⟩ := h.ahead s hs t ht
        exact gives_iff.mp (statement_at_operator h.along hrest ht.kind_eq ht.assigns) s? d hrun
      refine (((makes_statement (groups_makes levels) _ h.along).and (statement_stands h.along)).and
        ((statement_ends (groups_safe levels) h.along.sound).and hat)).bind
        fun s? d h' => ?_
      obtain ⟨⟨⟨hd, -⟩, hstands⟩, hended, hstarts⟩ := h'
      cases s? with
      | none =>
          -- a statement that is cut is followed by another
          refine (moves_reportIfAt u.start d hd).bind fun _ e he => ?_
          refine ⟨he.1, by simpa using h.next, fun s hs t ht => ?_⟩
          obtain ⟨s', hs', -⟩ := hstarts s (by simpa using hs) t ht
          cases hs'
      | some s =>
          have hpast : Gives (reportIfAt u.start) d fun _ e => e = d := by
            have hlt := hended.offset_lt
            rw [offset_eq_start hrest] at hlt
            rw [reportIfAt, Gives, holds_get_bind, if_neg (Nat.ne_of_gt hlt)]
            rfl
          refine hpast.bind fun _ e he => ?_
          subst he
          rw [holds_pure, Continues]
          simp only [Option.toArray_some, Array.toList_append]
          refine h.push hd (fun s' hs' t ht => ?_) (hstands s rfl).cut
          obtain ⟨_, hs, hstart⟩ := hstarts s' hs' t ht
          cases hs
          exact hstart

theorem statements_continue (closer : Option Closer) (hc : c.Along source) :
    Gives (statements (groups levels) closer) c fun body _ => Statement.Continue source body := by
  have hstart : Continued source (#[] : Array Statement).toList c := ⟨hc, .nil, nofun⟩
  refine (gives_repeating (I := fun found d => Continued source found.toList d)
    (Q := fun found _ => Statement.Continue source found.toList) hstart fun found d h =>
      (statementsRound_continues closer h).mono fun r e hr => ?_).bind fun _ _ h => holds_pure.mpr h
  cases r <;> exact hr

theorem continue_of_bodied {body : List Statement} (h : Bodied (Along source) body) :
    Statement.Continue source body := by
  rcases h with rfl | ⟨closer, levels, c, d, hc, hrun⟩
  · exact ⟨.nil, nofun⟩
  · exact gives_iff.mp (statements_continue closer hc) body d hrun

end Parse

/-- The stages of the pipeline that is the node. -/
def Node.stages : Node → List Stage
  | pipeline p => p.stages
  | _ => []

theorem Node.mem_stages {n : Node} {s : Stage} :
    s ∈ n.stages ↔ ∃ p : Pipeline, n = .pipeline p ∧ s ∈ p.stages := by
  cases n <;> simp [stages]

def Stage.expression? : Stage → Option Expression
  | expression e => some e
  | command _ => none

theorem Stage.expression?_eq_some {s : Stage} {e : Expression} :
    s.expression? = some e ↔ s = .expression e := by
  cases s <;> simp [expression?]

/-- Where the operators of a tree stand. -/
structure Tree.Operates (source : String) (t : Tree) : Prop where
  /-- In an expression no operator is a part behind the first one, and it is the first part wherever one
  stands there. -/
  stages : ∀ n ∈ (Node.block t.body).below, ∀ s ∈ n.stages, ∀ e ∈ s.expression?,
    (∀ part ∈ e.parts.tail, ¬ part.IsOperator) ∧
      ((∃ part ∈ e.parts.head?, part.IsOperator) ↔ e.AtOperator source)
  statements : ∀ s, .statement s ∈ (Node.block t.body).below → s.Operates source
  blocks : ∀ b, .block b ∈ (Node.block t.body).below → Statement.Continue source b.statements
  subexpressions : ∀ opener body s,
    .expression (.subexpression opener body s) ∈ (Node.block t.body).below → Statement.Continue source body

/-- An expression starts with an operator wherever one stands in front of it. Behind the first expression of a
statement an operator assigns to it. What it assigns is an expression only if no command could be called
there, and this ends in front of the next operator, with which the next statement starts. -/
theorem operates_parse (source : String) : (parse source).tree.Operates source := by
  have hanswered := answered_parse (along_ofSource source)
  constructor
  case stages =>
    intro n hn s hs e he
    obtain rfl := Stage.expression?_eq_some.mp he
    obtain ⟨p, rfl, hmem⟩ := Node.mem_stages.mp hs
    obtain ⟨levels, c, d, hc, hrun⟩ := hanswered _ hn _ hmem
    obtain ⟨hexpressed, -⟩ := gives_iff.mp (Parse.stage_expressed hc) _ d hrun e rfl
    exact ⟨hexpressed.behind, hexpressed.head_isOperator_iff⟩
  case statements =>
    intro s hs
    cases s with
    | trivia text span => exact ⟨nofun, nofun, nofun⟩
    | _ =>
        obtain ⟨levels, c, d, hc, hrun⟩ := hanswered _ hs
        exact (gives_iff.mp (Parse.statement_stands hc) _ d hrun _ rfl).operates
  case blocks => exact fun b hb => Parse.continue_of_bodied (hanswered _ hb)
  case subexpressions => exact fun opener body s hs => Parse.continue_of_bodied (hanswered _ hs)

/-- What stands behind the second operator of `$a = $b = Get-Item` is no call but a part of an expression that
the operator starts, without a fault. -/
theorem second_operator_hides_call :
    (parse "$a = $b = Get-Item").faults = [] ∧ (parse "$a = $b = Get-Item").tree.calls = [] ∧
      ∃ n ∈ (Node.block (parse "$a = $b = Get-Item").tree.body).below, ∃ s ∈ n.stages,
        ∃ e ∈ s.expression?, ∃ part ∈ e.parts.head?, part.IsOperator := by
  decide +kernel

end ScriptLint
