import ScriptLint.Proofs.Parser.Safety.Command
import ScriptLint.Proofs.Syntax.Literal
import ScriptLint.Syntax.Parse.Statement

/-!
Pipelines and statements never break a parse off, if the groups inside them do not. What a statement is
spans from its first token to where its last part ends, and a list of statements passes something with
every one of them or with the token that it reports.
-/

namespace ScriptLint.Parse

open ScriptLint.Parser Cursor

variable {g : Groups} {b c d : Cursor} {t : Token} {ts : List Token} {k : TokenKind}

theorem calledStage_ends (hg : g.Safe) (hc : c.Sound) (hk : c.kind? = some k)
    (hspacing : k.isSpacing = false) (operator : CallOperator) :
    Ends (calledStage g operator) c (Found Stage.span c) := by
  refine (advance_takes hc hk hspacing).bind fun t d ⟨_, hd⟩ => ?_
  have hskip := hd.sound.reaches_skip (· = .whitespace)
  rw [holds_skipBlanks_bind]
  refine (primary_ends hg hskip.sound).bind fun head? e he => ?_
  have htakes := hd.trans (hskip.trans (he.found hskip.sound).reaches)
  cases head? with
  | none => exact htakes.toReaches
  | some head => exact (command_ends hg htakes (some operator) head).bind fun i f hf => hf

theorem namedStage_ends (hg : g.Safe) (hc : c.Sound) (hk : c.kind? = some .word) :
    Ends (namedStage g) c (Found Stage.span c) := by
  refine (advance_takes hc hk rfl).bind fun t d ⟨_, hd⟩ => ?_
  exact (command_ends hg hd none t.bareword).bind fun i e he => he

theorem expressionStage_ends (hg : g.Safe) (hc : c.Sound) :
    Ends (expressionStage g) c (Found Stage.span c) := by
  refine (expression_ends hg hc).bind fun e? d hd => ?_
  cases e? with
  | none => exact hd
  | some e => exact hd

theorem stage_ends (hg : g.Safe) (hc : c.Sound) : Ends (stage g) c (Found Stage.span c) := by
  have hskip := hc.reaches_skip (· = .whitespace)
  rw [stage, Ends, holds_skipBlanks_bind, holds_get_bind]
  refine Holds.mono (Q := Found Stage.span c.skipBlanks) ?_ fun s? d h => h.of_reaches hskip
  split
  case h_1 => exact Reaches.refl hskip.sound
  case h_2 t ts hrest =>
    have hk := kind?_of_rest hrest
    split_ifs with hcall hsource hnamed
    · exact calledStage_ends hg hskip.sound hk (by rw [hcall]; rfl) .call
    · exact calledStage_ends hg hskip.sound hk (by rw [hsource.1]; rfl) .dotSource
    · exact namedStage_ends hg hskip.sound (by rw [hk, hnamed.1])
    · exact expressionStage_ends hg hskip.sound

/-- A stage that starts with no blank, no call operator and no word is an expression. -/
theorem stage_of_ne (hrest : c.rest = t :: ts) (hblank : t.kind ≠ .whitespace)
    (hcall : t.kind ≠ .ampersand) (hword : t.kind ≠ .word) : stage g c = expressionStage g c := by
  have hskip : c.skipBlanks = c := skip_of_rest hrest (decide_eq_false hblank)
  rw [stage, skipBlanks_bind_run, get_bind_run, hskip, hrest]
  dsimp only
  rw [if_neg hcall, if_neg fun h => hword h.1, if_neg fun h => hword h.1]

theorem pipelineRound_ends (hg : g.Safe) (hc : c.Sound) (stages : Array Stage) :
    Ends (pipelineRound g stages) c (Round (fun _ _ => True) c) := by
  have hskip := hc.reaches_skip (· = .whitespace)
  rw [pipelineRound, Ends, holds_skipBlanks_bind, holds_get_bind]
  split
  case h_1 hk =>
    refine (advance_passes hskip.sound hk).bind ?_
    rintro _ d ⟨_, hd⟩
    exact ⟨hd.of_reaches hskip, trivial⟩
  case h_2 hk =>
    refine (advance_takes hskip.sound hk rfl).bind ?_
    rintro _ d ⟨_, hd⟩
    have hskip' := hd.sound.reaches_skip TokenKind.isSpacing
    rw [holds_skipSpacing_bind]
    refine (stage_ends hg hskip'.sound).bind fun s? e he => ?_
    have htakes := (hd.of_reaches hskip).trans (hskip'.trans he.reaches)
    cases s? with
    | none => exact ⟨htakes.toReaches.trans (htakes.sound.reaches_report _ _), trivial⟩
    | some s => exact ⟨htakes.passes, trivial⟩
  case h_3 => exact ⟨hskip, trivial⟩

theorem pipelineFrom_ends (hg : g.Safe) (first : Stage) (h : Takes b c first.span) :
    Ends (pipelineFrom g first) c fun p d => Takes b d p.span := by
  refine (repeating_ends (I := fun _ _ => True) h.sound trivial fun stages d hd _ =>
    pipelineRound_ends hg hd.sound stages).bind fun stages d hd => ?_
  rw [holds_get_bind]
  apply (holds_span_bind (Nat.le_max_right _ _)).mpr
  exact (h.trans hd.1).stretch (Nat.le_max_right _ _)

theorem pipeline_ends (hg : g.Safe) (hc : c.Sound) :
    Ends (pipeline g) c (Found Pipeline.span c) := by
  refine (stage_ends hg hc).bind fun first? d hd => ?_
  cases first? with
  | none => exact hd
  | some first => exact (pipelineFrom_ends hg first hd).bind fun p e he => he

theorem assignedValue_ends (hg : g.Safe) (hc : c.Sound) (stop : Nat) :
    Ends (assignedValue g stop) c fun _ d => Reaches c d := by
  have hskip := hc.reaches_skip TokenKind.isSpacing
  rw [assignedValue, Ends, holds_skipSpacing_bind]
  exact (pipeline_ends hg hskip.sound).bind fun p? d hd => hskip.trans hd.reaches

/-- A word that starts with an operator is cut behind it, unless the operator is all of it. -/
theorem holds_passOperator {broken : Prop} {Q : Token → Cursor → Prop} (hrest : c.rest = t :: ts)
    {head tail : String} (htext : t.text = head ++ tail) :
    Holds broken (passOperator head.utf8ByteSize) c Q ↔
      if tail = "" then Q t (c.pass t ts)
      else Q (t.cut head.utf8ByteSize).1
        (c.pass (t.cut head.utf8ByteSize).1 ((t.cut head.utf8ByteSize).2 :: ts)) := by
  rw [passOperator, holds_current_bind hrest]
  by_cases htail : tail = ""
  · have hall : ¬ head.utf8ByteSize < t.text.utf8ByteSize := by
      rw [htext, htail, String.append_empty]
      exact Nat.lt_irrefl _
    rw [if_neg hall, if_pos htail, holds_advance hrest]
  · have hlt : head.utf8ByteSize < t.text.utf8ByteSize := by
      have hsize := mt String.utf8ByteSize_eq_zero_iff.mp htail
      rw [htext, String.utf8ByteSize_append]
      omega
    rw [if_pos hlt, if_neg htail, holds_bind_of_ok (cut_of_append hrest htext)]
    exact holds_advance rfl

theorem passOperator_ends (hc : c.Sound) (hrest : c.rest = t :: ts) (hword : t.kind = .word)
    {head tail : String} (htext : t.text = head ++ tail) (hhead : head ≠ "") :
    Ends (passOperator head.utf8ByteSize) c fun u d => Takes c d u.span := by
  rw [Ends, holds_passOperator hrest htext]
  split
  case isTrue => exact hc.takes_pass hrest (by rw [hword]; rfl)
  case isFalse htail =>
    have hcut := hc.reaches_cut hrest htext hhead htail
    exact (hcut.sound.takes_pass rfl rfl).of_reaches hcut

theorem assignmentAhead?_of_rest (hrest : c.rest = t :: ts) (hword : t.kind = .word) :
    assignmentAhead? c = Literal.assignmentLength? t.text := by
  unfold assignmentAhead?
  rw [hrest]
  exact if_pos hword

theorem assignmentAhead?_eq_some {n : Nat} : assignmentAhead? c = some n ↔
    ∃ t ts, c.rest = t :: ts ∧ t.kind = .word ∧ Literal.assignmentLength? t.text = some n := by
  constructor
  · intro h
    unfold assignmentAhead? at h
    split at h
    case h_1 => cases h
    case h_2 t ts hrest => exact ⟨t, ts, hrest, Option.ite_none_right_eq_some.mp h⟩
  · rintro ⟨t, ts, hrest, hword, hn⟩
    rw [assignmentAhead?_of_rest hrest hword, hn]

/-- The word ahead starts with the operator that assigns. -/
theorem exists_of_assignmentAhead? {n : Nat} (h : assignmentAhead? c = some n) :
    ∃ t ts head tail, c.rest = t :: ts ∧ t.kind = .word ∧ t.text = head ++ tail ∧ head ≠ "" ∧
      n = head.utf8ByteSize := by
  obtain ⟨t, ts, hrest, hword, hn⟩ := assignmentAhead?_eq_some.mp h
  obtain ⟨head, tail, htext, hends, rfl⟩ := Literal.exists_of_assignmentLength? hn
  refine ⟨t, ts, head, tail, hrest, hword, htext, ?_, rfl⟩
  rintro rfl
  cases hends

theorem assignment_ends (hg : g.Safe) {target : Expression} (htarget : Takes b c target.span)
    {n : Nat} (hn : assignmentAhead? c = some n) :
    Ends (assignment g target n) c fun _ d => Passes b d := by
  obtain ⟨t, ts, head, tail, hrest, hword, htext, hhead, rfl⟩ := exists_of_assignmentAhead? hn
  -- the operator
  refine (passOperator_ends htarget.sound hrest hword htext hhead).bind fun u d hd => ?_
  -- the value, which may be missing
  refine (assignedValue_ends hg hd.sound _).bind fun value e he => ?_
  have hstart : target.span.start ≤ u.stop :=
    Nat.le_trans (Nat.le_of_lt htarget.start_lt_offset)
      (Nat.le_trans hd.le_start hd.start_le_stop)
  apply (holds_span_bind (Nat.le_trans hstart (Nat.le_max_right _ _))).mpr
  exact htarget.passes.trans (hd.toReaches.trans he)

/-- A statement that may be missing; one that is not has passed a byte. -/
def Stated (c : Cursor) : Option Statement → Cursor → Prop
  | none, d => Reaches c d
  | some _, d => Passes c d

theorem Stated.reaches {s? : Option Statement} (h : Stated c s? d) : Reaches c d := by
  cases s? with
  | none => exact h
  | some s => exact h.toReaches

theorem pipelineStatement_ends (hg : g.Safe) (hc : c.Sound) :
    Ends (pipelineStatement g) c (Stated c) := by
  refine (stage_ends hg hc).bind fun first? d hd => ?_
  match first? with
  | none => exact hd
  | some (.command i) =>
    exact (pipelineFrom_ends hg (.command i) hd).bind fun p e he => he.passes
  | some (.expression target) =>
    have htarget : Takes c d.skipBlanks target.span := Takes.trans hd (hd.sound.reaches_skip _)
    dsimp only
    rw [holds_skipBlanks_bind, holds_get_bind]
    split
    case h_1 n hn => exact (assignment_ends hg htarget hn).bind fun s e he => he
    case h_2 =>
      exact (pipelineFrom_ends hg (.expression target) htarget).bind
        fun p e he => he.passes

theorem clauseTypesRound_ends (hc : c.Sound) (types : Array String) :
    Ends (clauseTypesRound types) c (Round (fun _ _ => True) c) := by
  have hskip := hc.reaches_skip TokenKind.isSpacing
  rw [clauseTypesRound, Ends, holds_skipSpacing_bind, holds_get_bind]
  split
  case h_1 hk | h_2 hk | h_3 hk =>
    exact (advance_passes hskip.sound hk).bind fun _ d hd => ⟨hd.2.of_reaches hskip, trivial⟩
  case h_4 => exact ⟨hskip, trivial⟩

theorem block?_ends (hg : g.Safe) (hc : c.Sound) : Ends (block? g) c (Found Block.span c) := by
  rw [block?, Ends, holds_get_bind]
  split
  case isTrue hk => exact (hg.block hc hk rfl).bind fun b d hd => hd
  case isFalse => exact Reaches.refl hc

theorem parenthesis?_ends (hg : g.Safe) (hc : c.Sound) :
    Ends (parenthesis? g) c (Found Expression.span c) := by
  rw [parenthesis?, Ends, holds_get_bind]
  split
  case isTrue hk => exact (hg.subexpression hc hk rfl).bind fun e d hd => hd
  case isFalse => exact Reaches.refl hc

theorem reaches_toBrace (hc : c.Sound) : Reaches c (toBrace c) := by
  unfold toBrace
  split
  · exact hc.reaches_skip _
  · exact Reaches.refl hc

theorem clause_ends (hg : g.Safe) (hc : c.Sound) (hk : c.kind? = some .word) :
    Ends (clause g) c fun _ d => Passes c d := by
  refine (advance_passes hc hk).bind fun t d ⟨_, hd⟩ => ?_
  -- types and options
  refine (repeating_ends (I := fun _ _ => True) hd.sound trivial fun types e he _ =>
    clauseTypesRound_ends he.sound types).bind fun types e he => ?_
  -- the condition
  refine (parenthesis?_ends hg he.1.sound).bind fun condition f hf => ?_
  have hbody : Reaches f (if condition.isSome then toBrace f else f) := by
    split
    · exact reaches_toBrace hf.reaches.sound
    · exact Reaches.refl hf.reaches.sound
  rw [holds_modify_bind]
  refine (block?_ends hg hbody.sound).bind fun body h hh => ?_
  exact hd.trans (he.1.trans (hf.reaches.trans (hbody.trans hh.reaches)))

theorem kind?_of_atKeyword {keywords : List String} (h : atKeyword keywords c) :
    c.kind? = some .word := by
  obtain ⟨t, hhead, ht⟩ := Option.any_eq_true _ _ |>.mp h
  unfold kind?
  rw [hhead, Option.map_some]
  exact congrArg some (of_decide_eq_true (Bool.and_eq_true_iff.mp ht).1)

theorem compoundRound_ends (hg : g.Safe) (hc : c.Sound) (keywords : List String)
    (clauses : Array Clause) :
    Ends (compoundRound g keywords clauses) c (Round (fun _ _ => True) c) := by
  have hskip := hc.reaches_skip TokenKind.isSpacing
  rw [compoundRound, Ends, holds_get_bind]
  split
  case isTrue h =>
    rw [holds_set_bind]
    refine (clause_ends hg hskip.sound (kind?_of_atKeyword h)).bind ?_
    intro _ d hd
    exact ⟨hd.of_reaches hskip, trivial⟩
  case isFalse => exact ⟨Reaches.refl hc, trivial⟩

theorem compound_ends (hg : g.Safe) (hc : c.Sound) (hrest : c.rest = t :: ts)
    (hword : t.kind = .word) (keyword : String) :
    Ends (compound g keyword) c fun _ d => Passes c d := by
  have hk := kind?_of_rest hrest
  rw [hword] at hk
  apply (holds_current_bind hrest).mpr
  refine (clause_ends hg hc hk).bind fun first d hd => ?_
  refine (repeating_ends (I := fun _ _ => True) hd.sound trivial fun clauses e he _ =>
    compoundRound_ends hg he.sound _ clauses).bind fun clauses e he => ?_
  rw [holds_get_bind]
  apply (holds_span_bind (Nat.le_max_right _ _)).mpr
  exact hd.trans he.1

theorem functionBody_ends (hg : g.Safe) (hc : c.Sound) :
    Ends (functionBody g) c fun body d =>
      Reaches c d ∧ c.offset ≤ body.span.start ∧ body.span.start ≤ body.span.stop := by
  refine (block?_ends hg hc).bind fun body? d hd => ?_
  cases body? with
  | none =>
      dsimp only
      rw [holds_get_bind, holds_report_bind]
      exact ⟨hd.trans (hd.sound.reaches_report _ _), hd.offset_le, Nat.le_refl _⟩
  | some body => exact ⟨hd.toReaches, hd.le_start, hd.start_le_stop⟩

theorem function_ends (hg : g.Safe) (hc : c.Sound) (hrest : c.rest = t :: ts)
    (hword : t.kind = .word) (hname : (c.pass t ts).skipSpacing.kind? = some .word)
    (keyword : String) : Ends (function g keyword) c fun _ d => Passes c d := by
  have htakes := hc.takes_pass hrest (by rw [hword]; rfl)
  apply (holds_advance_bind hrest).mpr
  have hskip := htakes.sound.reaches_skip TokenKind.isSpacing
  rw [holds_skipSpacing_bind]
  -- the name
  refine (advance_passes hskip.sound hname).bind fun name d ⟨_, hd, _⟩ => ?_
  have hskip' := hd.sound.reaches_skip TokenKind.isSpacing
  rw [holds_skipSpacing_bind]
  -- the parameters
  refine (parenthesis?_ends hg hskip'.sound).bind fun params e he => ?_
  have hskip'' := he.reaches.sound.reaches_skip TokenKind.isSpacing
  rw [holds_skipSpacing_bind]
  -- the body, which ends behind the keyword also where it is missing
  refine (functionBody_ends hg hskip''.sound).bind fun body f ⟨hf, hstart, hstop⟩ => ?_
  have hce := htakes.trans (((hskip.trans hd).trans hskip').trans (he.reaches.trans hskip''))
  have hle : t.start ≤ body.span.stop :=
    Nat.le_trans (Nat.le_of_lt hce.start_lt_offset) (Nat.le_trans hstart hstop)
  apply (holds_span_bind hle).mpr
  exact hce.passes.trans hf

theorem flow_ends (hg : g.Safe) (hc : c.Sound) (hk : c.kind? = some .word) (keyword : String) :
    Ends (flow g keyword) c fun _ d => Passes c d := by
  refine (advance_takes hc hk rfl).bind fun t d ⟨_, hd⟩ => ?_
  have hskip := hd.sound.reaches_skip (· = .whitespace)
  rw [holds_skipBlanks_bind]
  refine (pipeline_ends hg hskip.sound).bind fun value e he => ?_
  have hle : t.start ≤ (value.map (·.span.stop)).getD t.stop := by
    cases value with
    | none => exact hd.start_le_stop
    | some p =>
        have hstart : t.start ≤ p.span.start :=
          Nat.le_trans (Nat.le_of_lt (hd.trans hskip).start_lt_offset) he.le_start
        exact Nat.le_trans hstart he.start_le_stop
  apply (holds_span_bind hle).mpr
  exact hd.passes.trans (hskip.trans he.reaches)

/-- A statement with a keyword starts with a word; behind that of a function stands another. -/
theorem word_of_form {f : Form} (h : form c = f) (hf : f ≠ .pipeline) :
    ∃ t ts, c.rest = t :: ts ∧ t.kind = .word ∧
      ∀ keyword, f = .function keyword → (c.pass t ts).skipSpacing.kind? = some .word := by
  unfold form at h
  split at h
  case h_1 => exact absurd h.symm hf
  case h_2 t ts hrest =>
    dsimp only at h
    split_ifs at h with hword hfunction hcompound hflow
    · exact absurd h.symm hf
    · exact ⟨t, ts, hrest, not_not.mp hword, fun _ _ => hfunction.2⟩
    · exact ⟨t, ts, hrest, not_not.mp hword, fun _ h' => absurd (h.trans h') nofun⟩
    · exact ⟨t, ts, hrest, not_not.mp hword, fun _ h' => absurd (h.trans h') nofun⟩
    · exact absurd h.symm hf

theorem statement_ends (hg : g.Safe) (hc : c.Sound) :
    Ends (statement g) c (Stated c) := by
  rw [statement, Ends, holds_get_bind]
  split
  case h_1 keyword h =>
    obtain ⟨t, ts, hrest, hword, hname⟩ := word_of_form h (by simp)
    exact (function_ends hg hc hrest hword (hname keyword rfl) keyword).bind fun s d hd => hd
  case h_2 keyword h =>
    obtain ⟨t, ts, hrest, hword, -⟩ := word_of_form h (by simp)
    exact (compound_ends hg hc hrest hword keyword).bind fun s d hd => hd
  case h_3 keyword h =>
    obtain ⟨t, ts, hrest, hword, -⟩ := word_of_form h (by simp)
    have hk := kind?_of_rest hrest
    rw [hword] at hk
    exact (flow_ends hg hc hk keyword).bind fun s d hd => hd
  case h_4 => exact pipelineStatement_ends hg hc

theorem statement_of_not_word (hrest : c.rest = t :: ts) (hword : t.kind ≠ .word) :
    statement g c = pipelineStatement g c := by
  have hform : form c = .pipeline := by
    rw [form, hrest]
    exact if_pos hword
  rw [statement, get_bind_run, hform]

/-- The tokens with which an operand starts. -/
def opensOperand : TokenKind → Bool
  | .word | .string _ | .variable | .typeLiteral => true
  | k => k.isOpener

section Openers

/-- An opener has a part of its own in an expression. -/
structure StartsOperand (k : TokenKind) : Prop where
  isTrivia : k.isTrivia = false
  isTerminator : k.isTerminator = false
  isParameter : isParameter k = false
  separates : separates k = false
  ne : k ≠ .word ∧ k ≠ .comma ∧ k ≠ .redirection ∧ k ≠ .ampersand ∧ k ≠ .comment ∧
    k ≠ .whitespace

theorem startsOperand_of_isOpener {k : TokenKind} (h : k.isOpener) : StartsOperand k := by
  cases k <;> first | exact ⟨rfl, rfl, rfl, rfl, by decide⟩ | exact absurd h nofun

/-- What is answered with certainty, if there is an answer. -/
theorem gives_some {α β : Type} {m : Parser α} {f : α → β} :
    Gives (m >>= fun a => pure (some (f a))) c fun b? _ => b?.isSome :=
  gives_bind fun _ _ => rfl

theorem primary_of_opensOperand (hk : c.kind? = some k) (h : opensOperand k) :
    Gives (primary g) c fun e? _ => e?.isSome := by
  rw [primary, Gives, holds_get_bind, hk]
  cases k <;>
    first | exact gives_some | exact gives_bind fun _ _ => gives_some | exact absurd h Bool.false_ne_true

theorem opensOperand_of_isOpener (h : k.isOpener) : opensOperand k := by
  cases k <;> first | rfl | exact absurd h Bool.false_ne_true

/-- A round leaves no less than it finds, and at an opener it reads something. -/
theorem expressionRound_of_isOpener (hopener : k.isOpener) {es : Array Expression}
    (h : es ≠ #[] ∨ c.kind? = some k) :
    Gives (expressionRound g es) c fun
      | .done es => fun _ => es ≠ #[]
      | .yield es => fun _ => es ≠ #[] := by
  rw [expressionRound, Gives, holds_get_bind]
  split
  case h_1 hrest => exact h.resolve_right (by simp [kind?_of_rest_nil hrest])
  case h_2 t ts hrest =>
    rcases h with hes | hk
    · split_ifs
      · exact gives_advance_bind fun _ _ _ => hes
      · exact hes
      · exact hes
      · exact gives_advance_bind fun _ _ _ => Array.push_ne_empty
      · refine gives_bind fun e? _ => ?_
        cases e? with
        | none => exact hes
        | some e => exact Array.push_ne_empty
    · obtain rfl : t.kind = k := Option.some.inj ((kind?_of_rest hrest).symm.trans hk)
      have hstarts := startsOperand_of_isOpener hopener
      obtain ⟨hword, hcomma, hredirection, -⟩ := hstarts.ne
      rw [if_neg (by simp [hstarts.isTrivia]), if_neg (by simp [hstarts.isTerminator]),
        if_neg fun h => hword h.1, if_neg (by simp [hword, hstarts.isParameter, hcomma, hredirection])]
      refine (primary_of_opensOperand hk (opensOperand_of_isOpener hopener)).bind fun e? _ he => ?_
      obtain ⟨e, rfl⟩ := Option.isSome_iff_exists.mp he
      exact Array.push_ne_empty

theorem expression_of_isOpener (hk : c.kind? = some k) (hopener : k.isOpener) :
    Gives (expression g) c fun e? _ => e?.isSome := by
  refine (gives_repeating (I := fun es d => es ≠ #[] ∨ d.kind? = some k) (Q := fun es _ => es ≠ #[])
    (.inr hk) fun es d h => ?_).bind fun es d hes => ?_
  · refine (expressionRound_of_isOpener hopener h).mono fun r e hr => ?_
    cases r with
    | done es => exact hr
    | yield es => exact .inl hr
  · unfold joined
    split
    case h_1 hnil => exact absurd (Array.toList_eq_nil_iff.mp hnil) hes
    case h_2 => rfl
    case h_3 => exact gives_spanFrom_bind fun _ => rfl

theorem pipelineStatement_of_isOpener (hk : c.kind? = some k) (hopener : k.isOpener) :
    Gives (pipelineStatement g) c fun s? _ => s?.isSome := by
  obtain ⟨t, ts, hrest, rfl⟩ := kind?_eq_some.mp hk
  obtain ⟨hword, -, -, hcall, -, hblank⟩ := (startsOperand_of_isOpener hopener).ne
  have hstage : Gives (stage g) c fun s? _ => s?.isSome := by
    rw [Gives, Holds, stage_of_ne hrest hblank hcall hword]
    exact (expression_of_isOpener hk hopener).bind fun e? _ he => Option.isSome_map.trans he
  refine hstage.bind fun first? d hfirst => ?_
  cases first? with
  | none => cases hfirst
  | some first =>
      cases first with
      | command i => exact gives_some
      | expression target =>
          dsimp only
          rw [holds_skipBlanks_bind, holds_get_bind]
          split <;> exact gives_some

/-- A statement passes the opener that it starts with. -/
theorem statement_of_isOpener (hg : g.Safe) (hc : c.Sound) (hk : c.kind? = some k)
    (hopener : k.isOpener) : Ends (statement g) c fun _ d => Passes c d := by
  obtain ⟨t, ts, hrest, rfl⟩ := kind?_eq_some.mp hk
  have hword := (startsOperand_of_isOpener hopener).ne.1
  rw [Ends, Holds, statement_of_not_word hrest hword]
  obtain ⟨s?, d, hrun, hd⟩ := ends_iff.mp (pipelineStatement_ends hg hc)
  obtain ⟨s, rfl⟩ := Option.isSome_iff_exists.mp
    (gives_iff.mp (pipelineStatement_of_isOpener hk hopener) s? d hrun)
  rw [hrun]
  exact hd

theorem statement_passes (hg : g.Safe) (hc : c.Sound) (hk : c.kind? = some k) :
    Ends (statement g) c fun _ d => k.isOpener → Passes c d := by
  by_cases hopener : k.isOpener
  · exact (statement_of_isOpener hg hc hk hopener).mono fun _ _ hd _ => hd
  · exact (statement_ends hg hc).mono fun _ _ _ h => absurd h hopener

end Openers

/-- Of a cursor that has not come to the end of the script something is ahead. -/
theorem exists_kind?_of_offset_lt (h : c.offset < c.size) : ∃ k, c.kind? = some k := by
  unfold kind?
  unfold offset at h
  cases hrest : c.rest with
  | nil =>
      rw [hrest] at h
      exact absurd h (Nat.lt_irrefl _)
  | cons t ts => exact ⟨t.kind, rfl⟩

/-- Behind a statement that has passed nothing the token ahead is passed. -/
theorem reportIfAt_ends (hc : c.Sound) (hrest : c.rest = t :: ts) (hd : Reaches c d) :
    Ends (reportIfAt t.start) d fun _ e => Passes c e := by
  have hstart := offset_eq_start hrest
  rw [reportIfAt, Ends, holds_get_bind]
  split
  case isTrue h =>
    have hlt : d.offset < d.size := by
      rw [h, hd.size_eq]
      exact Nat.lt_of_lt_of_le (hc.start_lt_stop hrest) (hc.stop_le hrest)
    obtain ⟨k, hk⟩ := exists_kind?_of_offset_lt hlt
    refine (reportUnexpected_ends hd.sound hk).mono ?_
    exact fun _ e he => he.of_reaches hd
  case isFalse h =>
    refine ⟨hd, Nat.lt_of_le_of_ne hd.offset_le fun heq => h ?_⟩
    rw [← heq, hstart]

theorem statementsRound_ends (hg : g.Safe) (hc : c.Sound) (closer : Option Closer)
    (found : Array Statement) :
    Ends (statementsRound g closer found) c (Round (fun _ _ => True) c) := by
  have hskip := hc.reaches_skip separates
  rw [statementsRound, Ends, holds_skip_bind, holds_get_bind]
  split
  case h_1 => exact ⟨hskip, trivial⟩
  case h_2 t ts hrest =>
    split_ifs with hcomment hcloser
    · refine (advance_passes hskip.sound (kind?_of_rest hrest)).bind ?_
      rintro _ d ⟨_, hd⟩
      exact ⟨hd.of_reaches hskip, trivial⟩
    · exact ⟨hskip, trivial⟩
    · refine (statement_ends hg hskip.sound).bind fun s d hd => ?_
      refine (reportIfAt_ends hskip.sound hrest hd.reaches).bind ?_
      exact fun _ e he => ⟨he.of_reaches hskip, trivial⟩

theorem statements_ends (hg : g.Safe) (hc : c.Sound) (closer : Option Closer) :
    Ends (statements g closer) c fun _ d => Reaches c d := by
  refine (repeating_ends (I := fun _ _ => True) hc trivial fun found d hd _ =>
    statementsRound_ends hg hd.sound closer found).bind fun found d hd => ?_
  exact hd.1

end ScriptLint.Parse
