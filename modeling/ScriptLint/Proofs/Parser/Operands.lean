import ScriptLint.Proofs.Parser.Along
import ScriptLint.Proofs.Parser.Extent
import ScriptLint.Proofs.Syntax.Word

/-!
The parts of an expression. A word that starts with an assignment operator is a part of an expression only if
the expression starts with it: behind another part the expression ends in front of the word.
-/

namespace ScriptLint

open ScriptLint.Parser Cursor

namespace Expression

/-- The parts that an expression was joined from. -/
def parts : Expression → List Expression
  | sequence parts _ => parts
  | e => [e]

/-- A word that starts with an operator which assigns, taken for an operand. -/
def IsOperator (e : Expression) : Prop :=
  ∃ text s, e = .bareword text s ∧ (Literal.assignmentLength? text).isSome

theorem isOperator_bareword {text : String} {s : Span} :
    (bareword text s).IsOperator ↔ (Literal.assignmentLength? text).isSome := by
  constructor
  · rintro ⟨_, _, heq, h⟩
    cases heq
    exact h
  · exact fun h => ⟨text, s, rfl, h⟩

instance : DecidablePred IsOperator
  | .bareword text _ => decidable_of_iff (Literal.assignmentLength? text).isSome isOperator_bareword.symm
  | .stringLiteral _ _ _ | .variable _ _ _ | .typeLiteral _ _ | .scriptBlock _ | .subexpression _ _ _
  | .hashtable _ _ | .array _ _ | .sequence _ _ => isFalse nofun

/-- The expression is one part, and this is no word. -/
def NoWord : Expression → Prop
  | bareword _ _ | sequence _ _ => False
  | _ => True

theorem NoWord.parts_eq {e : Expression} (h : e.NoWord) : e.parts = [e] := by
  cases e with
  | sequence => exact h.elim
  | _ => rfl

theorem NoWord.ne {e : Expression} (h : e.NoWord) (text : String) (s : Span) : e ≠ .bareword text s := by
  rintro rfl
  exact h

theorem NoWord.not_isOperator {e : Expression} (h : e.NoWord) : ¬ e.IsOperator := by
  rintro ⟨text, s, rfl, -⟩
  exact h

end Expression

/-- What starts with an operator is a word. -/
theorem Token.StemsFrom.kind_eq_word {source : String} {u : Token} (h : u.StemsFrom source)
    (hassigns : (Literal.assignmentLength? u.text).isSome) : u.kind = .word := by
  obtain ⟨w, hw, -, hword | rfl⟩ := h
  · exact hword
  · exact Lexer.kind_of_assignmentLength? hw hassigns

namespace Parse

variable {source : String} {b c d : Cursor} {t u : Token} {us : List Token} {levels : Nat}

theorem subexpression_noWord : Gives (groups levels).subexpression c fun e _ => e.NoWord := by
  cases levels with
  | zero => exact gives_bind fun _ _ => gives_bind fun _ _ => trivial
  | succ levels =>
      exact gives_bind fun _ _ => gives_bind fun _ _ => gives_bind fun _ _ => gives_bind fun _ _ => trivial

theorem hashtable_noWord : Gives (groups levels).hashtable c fun e _ => e.NoWord := by
  cases levels with
  | zero => exact gives_bind fun _ _ => trivial
  | succ levels =>
      exact gives_bind fun _ _ => gives_bind fun _ _ => gives_bind fun _ _ => gives_bind fun _ _ => trivial

theorem primary_noWord (hk : c.kind? ≠ some .word) :
    Gives (primary (groups levels)) c fun e? _ => ∀ e ∈ e?, e.NoWord := by
  have hsome {α : Type} {m : Parser α} {f : α → Expression} {c : Cursor}
      (h : Gives m c fun a _ => (f a).NoWord) : Gives (do return some (f (← m))) c
        fun e? _ => ∀ e ∈ e?, e.NoWord :=
    h.bind fun a _ ha e he => by cases he; exact ha
  rw [primary, Gives, holds_get_bind]
  split
  case h_1 h => exact absurd h hk
  case h_2 => exact gives_bind fun t _ => gives_bind fun _ _ e he => by cases he; trivial
  case h_3 | h_4 | h_5 => exact gives_bind fun _ _ e he => by cases he; trivial
  case h_6 | h_7 | h_8 => exact hsome subexpression_noWord
  case h_9 => exact hsome hashtable_noWord
  case h_10 => exact fun e he => absurd he (Option.not_mem_none e)

/-- The part is made from the token, as a word or as something else. -/
structure MadeOf (source : String) (p : Expression) (u : Token) : Prop where
  stems : u.StemsFrom source
  start_lt_stop : u.start < u.stop
  start_eq : p.span.start = u.start
  made : p = u.bareword ∨ p.NoWord
  eq_bareword : u.kind = .word → p = u.bareword

/-- The token is the one ahead, unless this is a blank or a comment. -/
def Ahead (b : Cursor) (u : Token) : Prop := ∀ v vs, b.rest = v :: vs → v.kind.isTrivia = false → v = u

/-- What has been read up to `d` of an expression that starts at `b`. -/
structure Operands (source : String) (b : Cursor) (parts : List Expression) (d : Cursor) : Prop where
  along : d.Along source
  single : ∀ p ∈ parts, p.parts = [p]
  behind : ∀ p ∈ parts.tail, ¬ p.IsOperator
  eq_start : parts = [] → ∀ u us, b.rest = u :: us → u.kind.isTrivia = false → d = b
  first : ∀ p ∈ parts.head?, ∃ u, MadeOf source p u ∧ Ahead b u
  stop : ∀ p, parts = [p] → p.span.stop = d.lastEnd ∨ p.span.stop = d.size

/-- No blank and no comment is ahead. -/
def AtToken (d : Cursor) : Prop := ∀ v vs, d.rest = v :: vs → v.kind.isTrivia = false

/-- All that is read of an expression. Where a word is ahead there is a part at least. -/
structure Completed (source : String) (b : Cursor) (parts : List Expression) (d : Cursor) : Prop
    extends Operands source b parts d where
  atToken : AtToken d
  nonempty : b.kind? = some .word → parts ≠ []

/-- What has been read of an expression in a round, the last one or another. -/
def Operated (source : String) (b : Cursor) : ForInStep (Array Expression) → Cursor → Prop
  | .done parts => Completed source b parts.toList
  | .yield parts => Operands source b parts.toList

variable {parts : List Expression}

theorem Operands.on (h : Operands source b parts c) (hrest : c.rest = u :: us) (hu : u.kind.isTrivia) :
    Operands source b parts (c.pass u us) := by
  have hspacing := TokenKind.isSpacing_of_isTrivia _ hu
  have hlast : (c.pass u us).lastEnd = c.lastEnd := by simp [Cursor.pass, hspacing]
  refine ⟨h.along.pass hrest, h.single, h.behind, fun hnil v vs hb hv => ?_, h.first, fun p hp => ?_⟩
  · obtain rfl := h.eq_start hnil v vs hb hv
    rw [hrest] at hb
    cases hb
    rw [hu] at hv
    cases hv
  · rw [hlast]
    exact h.stop p hp

/-- Where a word is ahead nothing is passed before the first part. -/
theorem Operands.eq_of_nil (h : Operands source b parts c) (hk : b.kind? = some .word) (hnil : parts = []) :
    c = b := by
  obtain ⟨u, us, hb, hu⟩ := kind?_eq_some.mp hk
  exact h.eq_start hnil u us hb (by rw [hu]; rfl)

/-- One more part, made from the token ahead of the cursor. -/
theorem Operands.push {p : Expression} (h : Operands source b parts c) (hrest : c.rest = u :: us)
    (hd : d.Along source) (hpart : p.parts = [p]) (hstop : p.span.stop = d.lastEnd ∨ p.span.stop = d.size)
    (hbehind : parts ≠ [] → ¬ p.IsOperator) (hp : MadeOf source p u) :
    Operands source b (parts ++ [p]) d := by
  cases parts with
  | nil =>
      refine ⟨hd, List.forall_mem_singleton.mpr hpart, nofun, nofun, fun q hq => ?_, fun q hq => ?_⟩
      · cases hq
        refine ⟨u, hp, fun v vs hb hv => ?_⟩
        obtain rfl := h.eq_start rfl v vs hb hv
        rw [hrest] at hb
        cases hb
        rfl
      · cases hq
        exact hstop
  | cons first rest =>
      refine ⟨hd, List.forall_mem_append.mpr ⟨h.single, List.forall_mem_singleton.mpr hpart⟩,
        List.forall_mem_append.mpr ⟨h.behind, List.forall_mem_singleton.mpr (hbehind nofun)⟩, nofun,
        h.first, fun q hq => ?_⟩
      simp at hq

/-- A token that is read as a word where it is none does not start with an operator. -/
theorem not_isOperator_bareword (h : u.StemsFrom source) (hu : u.kind ≠ .word) : ¬ u.bareword.IsOperator := by
  intro hoperator
  exact hu (h.kind_eq_word (Expression.isOperator_bareword.mp hoperator))

theorem expressionRound_operands {parts : Array Expression} (h : Operands source b parts.toList c) :
    Gives (expressionRound (groups levels) parts) c (Operated source b) := by
  rw [expressionRound, Gives, holds_get_bind]
  split
  case h_1 hrest =>
    refine ⟨h, fun v vs hv => ?_, fun hk hnil => ?_⟩
    · rw [hrest] at hv
      cases hv
    · rw [← h.eq_of_nil hk hnil, kind?_of_rest_nil hrest] at hk
      cases hk
  case h_2 u us hrest =>
    have hstems := h.along.stems u (hrest ▸ List.mem_cons_self)
    have hlt := h.along.sound.start_lt_stop hrest
    have hdone (htrivia : ¬u.kind.isTrivia) (hne : u.kind = .word → parts.toList ≠ []) :
        Completed source b parts.toList c := by
      refine ⟨h, fun v vs hv => ?_, fun hk hnil => ?_⟩
      · rw [hrest] at hv
        cases hv
        exact Bool.eq_false_iff.mpr htrivia
      · rw [← h.eq_of_nil hk hnil, kind?_of_rest hrest] at hk
        exact hne (Option.some.inj hk) hnil
    split_ifs with htrivia hend hassign hword
    · exact (holds_advance_bind hrest).mpr (h.on hrest htrivia)
    · refine hdone htrivia fun hu => ?_
      rw [hu] at hend
      cases hend
    · exact hdone htrivia fun _ => by simpa using hassign.2.1
    · refine (holds_advance_bind hrest).mpr ?_
      have hspacing : u.kind.isSpacing = false := by
        revert hword
        cases u.kind <;> simp [isParameter, TokenKind.isSpacing, TokenKind.isTrivia]
      rw [holds_pure, Operated, Array.toList_push]
      refine h.push hrest (h.along.pass hrest) rfl (.inl (lastEnd_pass hspacing).symm) (fun hne => ?_)
        ⟨hstems, hlt, rfl, .inl rfl, fun _ => rfl⟩
      by_cases hu : u.kind = .word
      · refine fun hoperator => hassign ⟨hu, ?_, Expression.isOperator_bareword.mp hoperator⟩
        simpa using hne
      · exact not_isOperator_bareword hstems hu
    · have hu : u.kind ≠ .word := fun hu => hword (.inl hu)
      have hk : c.kind? ≠ some .word := by
        rw [kind?_of_rest hrest]
        simpa using hu
      refine ((primary_noWord hk).and ((makes_primary (groups_makes levels) c h.along).and
        (primary_extent (groups_extents levels)))).bind fun p? d h' => ?_
      obtain ⟨hp, ⟨hd, -⟩, hextent⟩ := h'
      cases p? with
      | none =>
          obtain rfl := hextent
          exact hdone htrivia fun hword => absurd hword hu
      | some p =>
          have hnoWord := hp p rfl
          rw [holds_pure, Operated, Array.toList_push]
          exact h.push hrest hd hnoWord.parts_eq hextent.stop_eq (fun _ => hnoWord.not_isOperator)
            ⟨hstems, hlt, hextent.start_eq.trans (offset_eq_start hrest), .inr hnoWord, fun hword => absurd hword hu⟩

/-- An expression that has been read on the way from `b` to `d`. -/
structure Expressed (source : String) (b : Cursor) (e : Expression) (d : Cursor) : Prop where
  along : d.Along source
  behind : ∀ p ∈ e.parts.tail, ¬ p.IsOperator
  first : ∃ p u, e.parts.head? = some p ∧ e.span.start = p.span.start ∧ MadeOf source p u ∧ Ahead b u
  stop_eq : e.span.stop = d.lastEnd ∨ e.span.stop = d.size
  atToken : AtToken d

theorem expression_expressed (hc : c.Along source) :
    Gives (expression (groups levels)) c fun e? d => (∀ e ∈ e?, Expressed source c e d) ∧
      (c.kind? = some .word → e?.isSome) := by
  have hstart : Operands source c [] c :=
    ⟨hc, nofun, nofun, fun _ _ _ _ _ => rfl, nofun, nofun⟩
  refine (gives_repeating (I := fun parts d => Operands source c parts.toList d)
    (Q := fun parts d => Completed source c parts.toList d) hstart fun parts d h =>
      (expressionRound_operands h).mono fun r e hr => ?_).bind fun parts d h => ?_
  · cases r <;> exact hr
  · unfold joined
    split
    case h_1 hparts =>
      exact ⟨fun e he => absurd he (Option.not_mem_none e), fun hk => absurd hparts (h.nonempty hk)⟩
    case h_2 p hparts =>
      rw [hparts] at h
      refine ⟨fun e he => ?_, fun _ => rfl⟩
      cases he
      have hsingle := h.single p List.mem_cons_self
      obtain ⟨u, hmade, hahead⟩ := h.first p rfl
      refine ⟨h.along, ?_, ⟨p, u, ?_, rfl, hmade, hahead⟩, h.stop p rfl, h.atToken⟩
      · rw [hsingle]
        exact fun q hq => absurd hq List.not_mem_nil
      · rw [hsingle]
        rfl
    case h_3 first second rest hparts =>
      rw [hparts] at h
      refine gives_spanFrom_bind fun _ => ⟨fun e he => ?_, fun _ => rfl⟩
      cases he
      obtain ⟨u, hmade, hahead⟩ := h.first first rfl
      exact ⟨h.along, h.behind, ⟨first, u, rfl, rfl, hmade, hahead⟩, .inl rfl, h.atToken⟩

end Parse

end ScriptLint
