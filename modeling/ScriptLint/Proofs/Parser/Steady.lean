import Mathlib.Tactic.SplitIfs
import ScriptLint.Proofs.Parser.Rules
import ScriptLint.Syntax.Parse.Group

/-!
What a parse keeps on its way, whatever it reads. A relation between cursors that is not broken by moving on
and by reporting a fault (`Steady`) holds from the start of a run to its end, and two runs that read the
groups of the next level alike are alike themselves (`Keeps`). There is one lemma for each function of the
parse; relations differ only in what they say of the inside of a group.
-/

namespace ScriptLint

/-- The problem is that of a group which stands too deep and is passed over. -/
def Problem.isTooDeep : Problem → Bool
  | nestingTooDeep _ => true
  | _ => false

/-- A relation that holds along the way of a cursor, which may start where `R c c` holds. -/
class Steady (R : Cursor → Cursor → Prop) : Prop where
  trans {c d e : Cursor} : R c d → R d e → R c e
  right {c d : Cursor} : R c d → R d d
  pass {c : Cursor} {t : Token} {ts : List Token} : R c c → c.rest = t :: ts → R c (c.pass t ts)
  skip {c : Cursor} (p : TokenKind → Bool) : R c c → R c (c.skip p)
  cut {c : Cursor} {t : Token} {ts : List Token} {n : Nat} : R c c → c.rest = t :: ts →
    String.Pos.Raw.IsValid t.text ⟨n⟩ → R c { c with rest := (t.cut n).1 :: (t.cut n).2 :: ts }
  /-- A group that is passed over is reported to start where the cursor has been in front of it. -/
  report {c d : Cursor} {problem : Problem} {s : Span} : R c d →
    (problem.isTooDeep → s.start = c.offset) → R c (d.report problem s)

/-- Inside of a group that is met under `R` the relation is `R'`. -/
class Nests (R R' : Cursor → Cursor → Prop) : Prop where
  enter {c : Cursor} : R c c →
    R' { c with depth := c.depth + 1 } { c with depth := c.depth + 1 }
  leave {c d : Cursor} {n : Nat} : R c c → R' { c with depth := c.depth + 1 } d →
    d.depth = n + 1 → R c { d with depth := n }

namespace Parser

variable {α β : Type} {R R' : Cursor → Cursor → Prop}

/-- From wherever the way may start both steps do the same, and they keep to the relation. -/
def Keeps (R : Cursor → Cursor → Prop) (m m' : Parser α) : Prop :=
  ∀ c, R c c → m c = m' c ∧ Gives m c fun _ d => R c d

@[simp] theorem keeps_pure (a : α) : Keeps R (pure a) (pure a) := fun _ hc => ⟨rfl, hc⟩

@[simp] theorem keeps_get : Keeps R get get := fun _ hc => ⟨rfl, hc⟩

theorem keeps_get_bind {f f' : Cursor → Parser β} (hf : ∀ c, Keeps R (f c) (f' c)) :
    Keeps R (get >>= f) (get >>= f') :=
  fun c hc => hf c c hc

theorem keeps_modify {step : Cursor → Cursor} (h : ∀ c, R c c → R c (step c)) :
    Keeps R (modify step) (modify step) :=
  fun c hc => ⟨rfl, h c hc⟩

@[simp] theorem keeps_current : Keeps R current current := fun c hc => by
  refine ⟨rfl, ?_⟩
  rw [← bind_pure current]
  exact gives_current_bind fun _ _ _ => hc

@[simp] theorem keeps_span (start stop : Nat) : Keeps R (span start stop) (span start stop) :=
  fun c hc => by
    refine ⟨rfl, ?_⟩
    rw [← bind_pure (span start stop)]
    exact gives_span_bind fun _ => hc

@[simp] theorem keeps_spanFrom (start : Nat) : Keeps R (spanFrom start) (spanFrom start) :=
  keeps_get_bind fun _ => keeps_span _ _

theorem keeps_nested [Nests R R'] {m m' : Parser α} (h : Keeps R' m m') :
    Keeps R (nested m) (nested m') := by
  intro c hc
  obtain ⟨heq, hgives⟩ := h _ (Nests.enter hc)
  refine ⟨?_, gives_nested (hgives.mono fun _ _ hd _ => Nests.leave hc hd)⟩
  show (m { c with depth := c.depth + 1 }).bind _ = (m' { c with depth := c.depth + 1 }).bind _
  rw [heq]

variable [Steady R]

@[simp] theorem keeps_bind {m m' : Parser α} {f f' : α → Parser β} (h : Keeps R m m')
    (hf : ∀ a, Keeps R (f a) (f' a)) : Keeps R (m >>= f) (m' >>= f') := by
  intro c hc
  obtain ⟨heq, hgives⟩ := h c hc
  refine ⟨?_, hgives.bind fun a d hd => (hf a d (Steady.right hd)).2.mono fun _ _ => Steady.trans hd⟩
  rw [bind_run, bind_run, ← heq]
  cases hm : m c with
  | error e => rfl
  | ok p => exact (hf p.1 p.2 (Steady.right (gives_iff.mp hgives _ _ hm))).1

theorem keeps_return {f : α → β} {m m' : Parser α} (h : Keeps R m m') :
    Keeps R (do return f (← m)) (do return f (← m')) :=
  keeps_bind h fun _ => keeps_pure _

@[simp] theorem keeps_map {f : α → β} {m m' : Parser α} (h : Keeps R m m') :
    Keeps R (f <$> m) (f <$> m') :=
  keeps_bind h fun _ => keeps_pure _

/-- A cursor that has been looked at may be moved on. -/
theorem keeps_move_bind (p : Cursor → Prop) [DecidablePred p] (step : Cursor → Cursor)
    {f f' : Unit → Parser β} {m m' : Parser β} (h : ∀ c, R c c → R c (step c))
    (hf : Keeps R (f ()) (f' ())) (hm : Keeps R m m') :
    Keeps R (get >>= fun c => if p c then set (step c) >>= f else m)
      (get >>= fun c => if p c then set (step c) >>= f' else m') := by
  intro c hc
  rw [get_bind_run, get_bind_run, Gives, holds_get_bind]
  split
  · have hstep := h c hc
    obtain ⟨heq, hgives⟩ := hf (step c) (Steady.right hstep)
    exact ⟨heq, hgives.mono fun _ _ => Steady.trans hstep⟩
  · exact hm c hc

@[simp] theorem keeps_skip (p : TokenKind → Bool) : Keeps R (skip p) (skip p) :=
  keeps_modify fun _ => Steady.skip p

@[simp] theorem keeps_skipBlanks : Keeps R skipBlanks skipBlanks := keeps_modify fun _ => Steady.skip _

@[simp] theorem keeps_skipSpacing : Keeps R skipSpacing skipSpacing := keeps_modify fun _ => Steady.skip _

theorem keeps_report {problem : Problem} (h : problem.isTooDeep = false) (s : Span) :
    Keeps R (report problem s) (report problem s) :=
  keeps_modify fun _ hc => Steady.report hc fun hdepth => absurd (h.symm.trans hdepth) Bool.false_ne_true

@[simp] theorem keeps_report_unterminatedString (quote : Char) (s : Span) :
    Keeps R (report (.unterminatedString quote) s) (report (.unterminatedString quote) s) :=
  keeps_report rfl s

@[simp] theorem keeps_report_missingCloser (closer : Closer) (s : Span) :
    Keeps R (report (.missingCloser closer) s) (report (.missingCloser closer) s) :=
  keeps_report rfl s

@[simp] theorem keeps_report_unexpectedToken (text : String) (s : Span) :
    Keeps R (report (.unexpectedToken text) s) (report (.unexpectedToken text) s) :=
  keeps_report rfl s

@[simp] theorem keeps_advance : Keeps R advance advance := fun c hc => by
  refine ⟨rfl, ?_⟩
  rw [← bind_pure advance]
  exact gives_advance_bind fun _ _ => Steady.pass hc

@[simp] theorem keeps_cut (n : Nat) : Keeps R (cut n) (cut n) :=
  fun _ hc => ⟨rfl, gives_cut fun _ _ => Steady.cut hc⟩

@[simp] theorem keeps_reportUnexpected : Keeps R reportUnexpected reportUnexpected :=
  keeps_bind keeps_advance fun _ => keeps_report rfl _

@[simp] theorem keeps_rounds {body body' : α → Parser (ForInStep α)}
    (h : ∀ a, Keeps R (body a) (body' a)) (n : Nat) (a : α) :
    Keeps R (rounds body n a) (rounds body' n a) := by
  induction n generalizing a with
  | zero => exact fun _ _ => ⟨rfl, trivial⟩
  | succ n ih =>
      refine keeps_bind (h a) fun r => ?_
      cases r with
      | done b => exact keeps_pure b
      | yield b => exact ih b

@[simp] theorem keeps_repeating {body body' : α → Parser (ForInStep α)}
    (h : ∀ a, Keeps R (body a) (body' a)) (a : α) :
    Keeps R (repeating body a) (repeating body' a) :=
  keeps_get_bind fun _ => keeps_rounds h _ a

end Parser

open ScriptLint.Parser

/-- The groups of a level are read alike. -/
structure Groups.Keeps (R : Cursor → Cursor → Prop) (g g' : Groups) : Prop where
  block : Parser.Keeps R g.block g'.block
  subexpression : Parser.Keeps R g.subexpression g'.subexpression
  hashtable : Parser.Keeps R g.hashtable g'.hashtable

namespace Parse

variable {R R' : Cursor → Cursor → Prop} [Steady R] {g g' : Groups}

@[simp] theorem keeps_checkClosed (t : Token) : Keeps R (checkClosed t) (checkClosed t) := by
  unfold checkClosed
  split <;> simp

theorem keeps_primary (hg : g.Keeps R g') : Keeps R (primary g) (primary g') := by
  refine keeps_get_bind fun c => ?_
  split <;> simp [hg.block, hg.subexpression, hg.hashtable]

@[simp] theorem keeps_joined (parts : List Expression) :
    Keeps R (joined parts) (joined parts) := by
  unfold joined
  split <;> simp

theorem keeps_argumentAtom (hg : g.Keeps R g') :
    Keeps R (argumentAtom g) (argumentAtom g') := by
  refine keeps_get_bind fun c => ?_
  split <;> simp [keeps_primary hg]

theorem keeps_adjacentRound (hg : g.Keeps R g') (parts : Array Expression) :
    Keeps R (adjacentRound g parts) (adjacentRound g' parts) := by
  refine keeps_get_bind fun c => ?_
  split <;> simp [keeps_argumentAtom hg, Option.forall]

theorem keeps_adjacent (hg : g.Keeps R g') : Keeps R (adjacent g) (adjacent g') := by
  refine keeps_bind (keeps_argumentAtom hg) fun first? => ?_
  cases first? <;> simp [keeps_adjacentRound hg]

@[simp] theorem keeps_commaAhead : Keeps R commaAhead commaAhead :=
  keeps_move_bind (fun c => c.skipBlanks.kind? = some .comma) Cursor.skipBlanks (fun _ => Steady.skip _)
    (keeps_pure true) (keeps_pure false)

theorem keeps_arrayRound (hg : g.Keeps R g') (items : Array Expression) :
    Keeps R (arrayRound g items) (arrayRound g' items) := by
  refine keeps_bind keeps_commaAhead fun comma => ?_
  cases comma with
  | false => exact keeps_pure _
  | true =>
      refine keeps_bind keeps_advance fun _ => keeps_bind keeps_skipSpacing fun _ => ?_
      exact keeps_bind (keeps_adjacent hg) fun item? => by cases item? <;> simp

theorem keeps_argument (hg : g.Keeps R g') : Keeps R (argument g) (argument g') := by
  refine keeps_bind (keeps_adjacent hg) fun first? => ?_
  cases first? with
  | none => exact keeps_pure _
  | some first =>
      refine keeps_bind keeps_commaAhead fun comma => ?_
      cases comma <;> simp [keeps_arrayRound hg]

theorem keeps_argumentIf (hg : g.Keeps R g') (expected : Bool) :
    Keeps R (argumentIf g expected) (argumentIf g' expected) := by
  cases expected <;> simp [argumentIf, keeps_argument hg]

theorem keeps_redirection (hg : g.Keeps R g') :
    Keeps R (redirection g) (redirection g') :=
  keeps_bind keeps_advance fun _ => keeps_bind (keeps_argumentIf hg _) fun _ =>
    keeps_return (keeps_spanFrom _)

theorem keeps_parameter (hg : g.Keeps R g') : Keeps R (parameter g) (parameter g') :=
  keeps_bind keeps_advance fun _ => keeps_bind (keeps_argumentIf hg _) fun _ =>
    keeps_return (keeps_spanFrom _)

theorem keeps_commandRound (hg : g.Keeps R g') (args : Arguments) :
    Keeps R (commandRound g args) (commandRound g' args) := by
  refine keeps_get_bind fun c => ?_
  split
  case h_1 => simp
  case h_2 =>
    split_ifs <;>
      simp [keeps_redirection hg, keeps_parameter hg, keeps_argument hg, Option.forall]

theorem keeps_command (hg : g.Keeps R g') (start : Nat) (operator : Option CallOperator)
    (head : Expression) :
    Keeps R (command g start operator head) (command g' start operator head) :=
  keeps_bind (keeps_repeating (keeps_commandRound hg) _) fun _ =>
    keeps_get_bind fun _ => keeps_return (keeps_span _ _)

theorem keeps_expressionRound (hg : g.Keeps R g') (parts : Array Expression) :
    Keeps R (expressionRound g parts) (expressionRound g' parts) := by
  refine keeps_get_bind fun c => ?_
  split
  case h_1 => simp
  case h_2 => split_ifs <;> simp [keeps_primary hg, Option.forall]

theorem keeps_expression (hg : g.Keeps R g') : Keeps R (expression g) (expression g') := by
  simp [expression, keeps_expressionRound hg]

theorem keeps_calledStage (hg : g.Keeps R g') (operator : CallOperator) :
    Keeps R (calledStage g operator) (calledStage g' operator) := by
  refine keeps_bind keeps_advance fun _ => keeps_bind keeps_skipBlanks fun _ => ?_
  exact keeps_bind (keeps_primary hg) fun head? => by cases head? <;> simp [keeps_command hg]

theorem keeps_namedStage (hg : g.Keeps R g') : Keeps R (namedStage g) (namedStage g') := by
  simp [namedStage, keeps_command hg]

theorem keeps_expressionStage (hg : g.Keeps R g') :
    Keeps R (expressionStage g) (expressionStage g') := by
  simp [expressionStage, keeps_expression hg]

theorem keeps_stage (hg : g.Keeps R g') : Keeps R (stage g) (stage g') := by
  refine keeps_bind keeps_skipBlanks fun _ => keeps_get_bind fun c => ?_
  split
  case h_1 => simp
  case h_2 =>
    split_ifs <;> simp [keeps_calledStage hg, keeps_namedStage hg, keeps_expressionStage hg]

theorem keeps_pipelineRound (hg : g.Keeps R g') (stages : Array Stage) :
    Keeps R (pipelineRound g stages) (pipelineRound g' stages) := by
  refine keeps_bind keeps_skipBlanks fun _ => keeps_get_bind fun c => ?_
  split
  case h_1 => simp
  case h_2 =>
    refine keeps_bind keeps_advance fun _ => keeps_bind keeps_skipSpacing fun _ => ?_
    exact keeps_bind (keeps_stage hg) fun s? => by cases s? <;> simp
  case h_3 => simp

theorem keeps_pipelineFrom (hg : g.Keeps R g') (first : Stage) :
    Keeps R (pipelineFrom g first) (pipelineFrom g' first) :=
  keeps_bind (keeps_repeating (keeps_pipelineRound hg) _) fun _ =>
    keeps_get_bind fun _ => keeps_return (keeps_span _ _)

theorem keeps_pipeline (hg : g.Keeps R g') : Keeps R (pipeline g) (pipeline g') := by
  simp [pipeline, keeps_stage hg, keeps_pipelineFrom hg, Option.forall]

theorem keeps_assignedValue (hg : g.Keeps R g') (stop : Nat) :
    Keeps R (assignedValue g stop) (assignedValue g' stop) := by
  simp [assignedValue, keeps_pipeline hg]

@[simp] theorem keeps_passOperator (n : Nat) : Keeps R (passOperator n) (passOperator n) := by
  refine keeps_bind keeps_current fun t => ?_
  split <;> simp

theorem keeps_assignment (hg : g.Keeps R g') (target : Expression) (n : Nat) :
    Keeps R (assignment g target n) (assignment g' target n) :=
  keeps_bind (keeps_passOperator n) fun _ =>
    keeps_bind (keeps_assignedValue hg _) fun _ => keeps_return (keeps_span _ _)

theorem keeps_pipelineStatement (hg : g.Keeps R g') :
    Keeps R (pipelineStatement g) (pipelineStatement g') := by
  refine keeps_bind (keeps_stage hg) fun first? => ?_
  match first? with
  | none => simp
  | some (.command i) => simp [keeps_pipelineFrom hg]
  | some (.expression target) =>
    refine keeps_bind keeps_skipBlanks fun _ => keeps_get_bind fun c => ?_
    split <;> simp [keeps_assignment hg, keeps_pipelineFrom hg]

@[simp] theorem keeps_clauseTypesRound (types : Array String) :
    Keeps R (clauseTypesRound types) (clauseTypesRound types) := by
  refine keeps_bind keeps_skipSpacing fun _ => keeps_get_bind fun c => ?_
  split <;> simp

theorem keeps_block? (hg : g.Keeps R g') : Keeps R (block? g) (block? g') := by
  refine keeps_get_bind fun c => ?_
  split <;> simp [hg.block]

theorem keeps_parenthesis? (hg : g.Keeps R g') :
    Keeps R (parenthesis? g) (parenthesis? g') := by
  refine keeps_get_bind fun c => ?_
  split <;> simp [hg.subexpression]

@[simp] theorem keeps_toBrace (expected : Bool) :
    Keeps R (modify fun c => if expected then toBrace c else c)
      (modify fun c => if expected then toBrace c else c) := by
  refine keeps_modify fun c hc => ?_
  unfold toBrace
  split
  · split
    · exact Steady.skip _ hc
    · exact hc
  · exact hc

theorem keeps_clause (hg : g.Keeps R g') : Keeps R (clause g) (clause g') :=
  keeps_bind keeps_advance fun _ => keeps_bind (keeps_repeating keeps_clauseTypesRound _) fun _ =>
    keeps_bind (keeps_parenthesis? hg) fun condition =>
      keeps_bind (keeps_toBrace condition.isSome) fun _ => keeps_return (keeps_block? hg)

theorem keeps_compoundRound (hg : g.Keeps R g') (keywords : List String)
    (clauses : Array Clause) :
    Keeps R (compoundRound g keywords clauses) (compoundRound g' keywords clauses) :=
  keeps_move_bind (fun c => atKeyword keywords c.skipSpacing) Cursor.skipSpacing (fun _ => Steady.skip _)
    (keeps_return (keeps_clause hg)) (keeps_pure _)

theorem keeps_compound (hg : g.Keeps R g') (keyword : String) :
    Keeps R (compound g keyword) (compound g' keyword) :=
  keeps_bind keeps_current fun _ => keeps_bind (keeps_clause hg) fun _ =>
    keeps_bind (keeps_repeating (keeps_compoundRound hg _) _) fun _ =>
      keeps_get_bind fun _ => keeps_return (keeps_span _ _)

theorem keeps_functionBody (hg : g.Keeps R g') :
    Keeps R (functionBody g) (functionBody g') := by
  refine keeps_bind (keeps_block? hg) fun body? => ?_
  cases body? <;> simp

theorem keeps_function (hg : g.Keeps R g') (keyword : String) :
    Keeps R (function g keyword) (function g' keyword) :=
  keeps_bind keeps_advance fun _ => keeps_bind keeps_skipSpacing fun _ =>
    keeps_bind keeps_advance fun _ => keeps_bind keeps_skipSpacing fun _ =>
      keeps_bind (keeps_parenthesis? hg) fun _ => keeps_bind keeps_skipSpacing fun _ =>
        keeps_bind (keeps_functionBody hg) fun _ => keeps_return (keeps_span _ _)

theorem keeps_flow (hg : g.Keeps R g') (keyword : String) :
    Keeps R (flow g keyword) (flow g' keyword) :=
  keeps_bind keeps_advance fun _ => keeps_bind keeps_skipBlanks fun _ =>
    keeps_bind (keeps_pipeline hg) fun _ => keeps_return (keeps_span _ _)

theorem keeps_statement (hg : g.Keeps R g') : Keeps R (statement g) (statement g') := by
  refine keeps_get_bind fun c => ?_
  split <;>
    simp [keeps_function hg, keeps_compound hg, keeps_flow hg, keeps_pipelineStatement hg]

@[simp] theorem keeps_reportIfAt (start : Nat) :
    Keeps R (reportIfAt start) (reportIfAt start) := by
  refine keeps_get_bind fun c => ?_
  split <;> simp

theorem keeps_statementsRound (hg : g.Keeps R g') (closer : Option Closer)
    (found : Array Statement) :
    Keeps R (statementsRound g closer found) (statementsRound g' closer found) := by
  refine keeps_bind (keeps_skip _) fun _ => keeps_get_bind fun c => ?_
  split
  case h_1 => simp
  case h_2 => split_ifs <;> simp [keeps_statement hg]

theorem keeps_statements (hg : g.Keeps R g') (closer : Option Closer) :
    Keeps R (statements g closer) (statements g' closer) := by
  simp [statements, keeps_statementsRound hg]

@[simp] theorem keeps_passTokens (n : Nat) : Keeps R (passTokens n) (passTokens n) := by
  induction n with
  | zero => exact keeps_pure ()
  | succ n ih => exact keeps_bind keeps_advance fun _ => ih

@[simp] theorem keeps_skipGroup : Keeps R skipGroup skipGroup := by
  refine fun c hc => ⟨rfl, gives_current_bind fun t ts hrest => ?_⟩
  rw [Gives, holds_get_bind]
  refine (keeps_passTokens _ c hc).2.bind fun _ d hd => ?_
  rw [holds_get_bind]
  exact gives_span_bind fun _ => Steady.report hd fun _ => by rw [Cursor.offset, hrest]

@[simp] theorem keeps_expectCloser (closer : Closer) :
    Keeps R (expectCloser closer) (expectCloser closer) := by
  refine keeps_get_bind fun c => ?_
  split <;> simp

@[simp] theorem keeps_cutKey (t : Token) : Keeps R (cutKey t) (cutKey t) := by
  unfold cutKey
  split <;> simp

theorem keeps_entryValue (hg : g.Keeps R g') (key : Expression) (found : Array Entry) :
    Keeps R (entryValue g key found) (entryValue g' key found) := by
  refine keeps_bind keeps_skipBlanks fun _ => keeps_get_bind fun c => ?_
  split
  case h_1 => simp
  case h_2 => split_ifs <;> simp [keeps_assignedValue hg]

theorem keeps_hashtableRound (hg : g.Keeps R g') (found : Array Entry) :
    Keeps R (hashtableRound g found) (hashtableRound g' found) := by
  refine keeps_bind (keeps_skip _) fun _ => keeps_get_bind fun c => ?_
  split
  case h_1 => simp
  case h_2 t _ _ =>
    split_ifs
    · exact keeps_pure _
    · refine keeps_bind (keeps_cutKey t) fun _ => keeps_bind (keeps_primary hg) fun key? => ?_
      cases key? <;> simp [keeps_entryValue hg]

theorem keeps_entries (hg : g.Keeps R g') : Keeps R (entries g) (entries g') := by
  simp [entries, keeps_hashtableRound hg]

/-- How a group is read whose groups are read as `inside` says. -/
def opened (inside : Groups) : Groups where
  block := do
    let t ← advance
    let body ← nested (statements inside (some .brace))
    return ⟨body, ← span t.start (← expectCloser .brace)⟩
  subexpression := do
    let t ← advance
    let body ← nested (statements inside (some .paren))
    return .subexpression t.text body (← span t.start (← expectCloser .paren))
  hashtable := do
    let t ← advance
    let body ← nested (entries inside)
    return .hashtable body (← span t.start (← expectCloser .brace))

theorem groups_succ (levels : Nat) : groups (levels + 1) = opened (groups levels) := rfl

/-- A group: its opener, what stands inside, its closer. -/
theorem keeps_group {α β : Type} [Nests R R'] {m m' : Parser α} {f : Token → α → Span → β}
    (h : Keeps R' m m') (closer : Closer) :
    Keeps R
      (do
        let t ← advance
        let a ← nested m
        let stop ← expectCloser closer
        let s ← span t.start stop
        return f t a s)
      (do
        let t ← advance
        let a ← nested m'
        let stop ← expectCloser closer
        let s ← span t.start stop
        return f t a s) :=
  keeps_bind keeps_advance fun _ => keeps_bind (keeps_nested h) fun _ =>
    keeps_bind (keeps_expectCloser closer) fun _ => keeps_return (keeps_span _ _)

theorem opened_keeps [Steady R'] [Nests R R'] (hg : g.Keeps R' g') :
    (opened g).Keeps R (opened g') := by
  refine ⟨?_, ?_, ?_⟩
  · exact keeps_group (keeps_statements hg _) .brace
  · exact keeps_group (keeps_statements hg _) .paren
  · exact keeps_group (keeps_entries hg) .brace

theorem skipped_keeps : (groups 0).Keeps R (groups 0) := by
  refine ⟨?_, ?_, ?_⟩
  · exact keeps_return keeps_skipGroup
  · exact keeps_bind keeps_current fun _ => keeps_return keeps_skipGroup
  · exact keeps_return keeps_skipGroup

end Parse

end ScriptLint
