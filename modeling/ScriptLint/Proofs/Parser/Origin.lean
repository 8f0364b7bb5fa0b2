import Mathlib.Tactic.SplitIfs
import ScriptLint.Proofs.Parser.Safety
import ScriptLint.Proofs.Syntax.Preorder

/-!
Where the parts of a tree come from. The statements and the stages in a tree, its hashtables and its expressions
of several parts are what one step of the parse has answered, each from some cursor that the parse of the
script came by. What holds of the first cursor and of all that follow (`Lasting`) holds of these, so a fact about
one step of the parse can be told of every part of every tree.

A word is cut in two only to be passed up to the cut at once, so cutting and passing are one move here.
-/

namespace ScriptLint

/-- What holds of a cursor holds of those to which the moves of a parse lead. -/
class Lasting (I : Cursor → Prop) : Prop where
  pass {c : Cursor} {t : Token} {ts : List Token} : I c → c.rest = t :: ts → I (c.pass t ts)
  /-- Passes the first part of a word and leaves the second. -/
  part {c : Cursor} {t : Token} {ts : List Token} {head tail : String} : I c → c.rest = t :: ts →
    t.kind = .word → t.text = head ++ tail → head ≠ "" → tail ≠ "" →
    I (c.pass (t.cut head.utf8ByteSize).1 ((t.cut head.utf8ByteSize).2 :: ts))
  skip {c : Cursor} {p : TokenKind → Bool} :
    (∀ k, p k → k.isSpacing ∨ k = .semicolon ∨ k = .chain) → I c → I (c.skip p)
  report {c : Cursor} (problem : Problem) (s : Span) : I c → I (c.report problem s)
  deep {c : Cursor} (depth : Nat) : I c → I { c with depth := depth }

open ScriptLint.Parser ScriptLint.Parse Cursor

/-- The step answers `a` with the groups of some level, from a cursor at which `I` holds. -/
def Answers {α : Type} (I : Cursor → Prop) (m : Groups → Parser α) (a : α) : Prop :=
  ∃ levels c d, I c ∧ m (groups levels) c = .ok (a, d)

/-- The statements of a body have been answered as such, unless the body was passed over. -/
def Bodied (I : Cursor → Prop) (body : List Statement) : Prop :=
  body = [] ∨ ∃ closer, Answers I (fun g => statements g closer) body

namespace Node

/-- The statement or the statements in the node, or the stages of the pipeline, or the call or the expression
of several parts, have been answered as such. -/
def Answered (I : Cursor → Prop) : Node → Prop
  | statement (.trivia _ _) => True
  | statement s => Answers I Parse.statement (some s)
  | pipeline p => ∀ s ∈ p.stages, Answers I stage (some s)
  | invocation i => Answers I stage (some (.command i))
  | block b => Bodied I b.statements
  | expression (.subexpression _ body _) => Bodied I body
  | expression (.hashtable entries s) => Answers I Groups.hashtable (.hashtable entries s)
  | expression (.array items s) => Answers I argument (some (.array items s))
  | expression (.sequence parts s) =>
    Answers I adjacent (some (.sequence parts s)) ∨ Answers I Parse.expression (some (.sequence parts s))
  | expression _ => True

/-- All nodes of a tree down from one have been answered. -/
def Sprung (I : Cursor → Prop) (n : Node) : Prop := ∀ m ∈ n.below, m.Answered I

variable {I : Cursor → Prop} {n : Node}

theorem sprung_iff : n.Sprung I ↔ n.Answered I ∧ ∀ m ∈ n.children, m.Sprung I := by
  unfold Sprung
  rw [below_eq, List.forall_mem_cons]
  simp only [List.mem_flatMap, forall_exists_index, and_imp]
  exact and_congr_right fun _ => ⟨fun h m hm k => h k m hm, fun h k m hm => h m hm k⟩

end Node

/-- All nodes of some trees have been answered. -/
def Grown (I : Cursor → Prop) (ns : List Node) : Prop := ∀ n ∈ ns, n.Sprung I

/-- All nodes of a part that may be missing. -/
def Grown? {α : Type} (I : Cursor → Prop) (node : α → Node) (a? : Option α) : Prop :=
  Grown I (a?.map node).toList

/-- All nodes of the parts that a loop has read. -/
def Amassed {α : Type} (I : Cursor → Prop) (nodes : α → List Node) (as : Array α) : Prop :=
  Grown I (as.toList.flatMap nodes)

/-- The stages have been answered, with all that is in them. -/
def Staged (I : Cursor → Prop) (stages : List Stage) : Prop :=
  ∀ s ∈ stages, Answers I stage (some s) ∧ (Node.ofStage s).Sprung I

section

variable {α : Type} {I : Cursor → Prop} {ns ms : List Node} {n : Node} {node : α → Node}
  {nodes : α → List Node} {a : α} {as : Array α}

@[simp] theorem grown_nil : Grown I [] := nofun

@[simp] theorem grown_cons : Grown I (n :: ns) ↔ n.Sprung I ∧ Grown I ns := List.forall_mem_cons

@[simp] theorem grown_append : Grown I (ns ++ ms) ↔ Grown I ns ∧ Grown I ms :=
  List.forall_mem_append

@[simp] theorem grown?_none : Grown? I node none := grown_nil

@[simp] theorem grown?_some : Grown? I node (some a) ↔ (node a).Sprung I := by simp [Grown?]

@[simp] theorem amassed_empty : Amassed I nodes #[] := grown_nil

@[simp] theorem amassed_push :
    Amassed I nodes (as.push a) ↔ Amassed I nodes as ∧ Grown I (nodes a) := by
  simp [Amassed]

theorem amassed_singleton : Amassed I nodes #[a] ↔ Grown I (nodes a) := by
  simp [Amassed]

/-- Parts of one node each. -/
theorem amassed_iff : Amassed I (fun a => [node a]) as ↔ Grown I (as.toList.map node) := by
  rw [Amassed, List.map_eq_flatMap]

/-- An expression with nothing below it. -/
theorem sprung_leaf {e : Expression} (he : (Node.expression e).Answered I)
    (h : (Node.expression e).children = []) : (Node.expression e).Sprung I :=
  Node.sprung_iff.mpr ⟨he, by simp [h]⟩

@[simp] theorem staged_nil : Staged I [] := nofun

@[simp] theorem staged_cons {s : Stage} {stages : List Stage} :
    Staged I (s :: stages) ↔ (Answers I stage (some s) ∧ (Node.ofStage s).Sprung I) ∧ Staged I stages :=
  List.forall_mem_cons

@[simp] theorem staged_append {stages stages' : List Stage} :
    Staged I (stages ++ stages') ↔ Staged I stages ∧ Staged I stages' :=
  List.forall_mem_append

@[simp] theorem sprung_pipeline {p : Pipeline} : (Node.pipeline p).Sprung I ↔ Staged I p.stages := by
  rw [Node.sprung_iff]
  unfold Staged
  simp only [Node.Answered, Node.children, List.forall_mem_map, ← forall₂_and]

end

namespace Parser

variable {α β : Type} {I : Cursor → Prop} {P : α → Prop} {Q : β → Prop}

/-- From wherever `I` holds the step leads to where it holds again, and `P` holds of its answer. -/
def Makes (I : Cursor → Prop) (m : Parser α) (P : α → Prop) : Prop :=
  ∀ c, I c → Gives m c fun a d => I d ∧ P a

/-- Nothing is asked of the answer. -/
abbrev Moves (I : Cursor → Prop) (m : Parser α) : Prop := Makes I m fun _ => True

theorem makes_pure {a : α} (h : P a) : Makes I (pure a) P := fun _ hc => ⟨hc, h⟩

theorem Makes.bind {m : Parser α} {f : α → Parser β} (h : Makes I m P)
    (hf : ∀ a, P a → Makes I (f a) Q) : Makes I (m >>= f) Q :=
  fun c hc => (h c hc).bind fun a d hd => hf a hd.2 d hd.1

theorem Moves.bind {m : Parser α} {f : α → Parser β} (h : Moves I m)
    (hf : ∀ a, Makes I (f a) Q) : Makes I (m >>= f) Q :=
  Makes.bind h fun a _ => hf a

theorem Makes.mono {P' : α → Prop} {m : Parser α} (h : Makes I m P) (hP : ∀ a, P a → P' a) :
    Makes I m P' :=
  fun c hc => (h c hc).mono fun a _ hd => ⟨hd.1, hP a hd.2⟩

theorem Makes.map {m : Parser α} {f : α → β} (h : Makes I m P) (hf : ∀ a, P a → Q (f a)) :
    Makes I (do return f (← m)) Q :=
  h.bind fun a ha => makes_pure (hf a ha)

theorem makes_get_bind {f : Cursor → Parser β} (hf : ∀ c, Makes I (f c) Q) :
    Makes I (get >>= f) Q :=
  fun c hc => hf c c hc

theorem moves_modify {step : Cursor → Cursor} (h : ∀ c, I c → I (step c)) : Moves I (modify step) :=
  fun c hc => ⟨h c hc, trivial⟩

/-- A cursor that has been looked at may be moved on. -/
theorem makes_set_bind {step : Cursor → Cursor} {p : Cursor → Prop} [DecidablePred p]
    {f : Unit → Parser β} {m : Parser β} (h : ∀ c, I c → I (step c)) (hf : Makes I (f ()) Q)
    (hm : Makes I m Q) : Makes I (get >>= fun c => if p c then set (step c) >>= f else m) Q := by
  intro c hc
  rw [Gives, holds_get_bind]
  split
  · exact hf _ (h c hc)
  · exact hm _ hc

theorem moves_current : Moves I current := fun c hc => by
  rw [← bind_pure current]
  exact gives_current_bind fun _ _ _ => ⟨hc, trivial⟩

theorem moves_span (start stop : Nat) : Moves I (span start stop) := fun c hc => by
  rw [← bind_pure (span start stop)]
  exact gives_span_bind fun _ => ⟨hc, trivial⟩

theorem moves_spanFrom (start : Nat) : Moves I (spanFrom start) :=
  makes_get_bind fun _ => moves_span _ _

/-- What a round of a loop answers, be it the last one or not. -/
def Answer (P : α → Prop) : ForInStep α → Prop
  | .done a | .yield a => P a

theorem makes_repeating {body : α → Parser (ForInStep α)} {a : α} (ha : P a)
    (hbody : ∀ a, P a → Makes I (body a) (Answer P)) : Makes I (repeating body a) P := by
  intro c hc
  refine gives_repeating (I := fun a d => I d ∧ P a) ⟨hc, ha⟩ fun a d hd => ?_
  refine (hbody a hd.2 d hd.1).mono fun r e hr => ?_
  cases r <;> exact hr

variable [Lasting I]

theorem moves_advance : Moves I advance := fun c hc => by
  rw [← bind_pure advance]
  exact gives_advance_bind fun _ _ hrest => ⟨Lasting.pass hc hrest, trivial⟩

theorem moves_report (problem : Problem) (s : Span) : Moves I (report problem s) :=
  moves_modify fun _ => Lasting.report problem s

theorem moves_reportUnexpected : Moves I reportUnexpected :=
  moves_advance.bind fun _ => moves_report _ _

theorem moves_skip {p : TokenKind → Bool} (hp : ∀ k, p k → k.isSpacing ∨ k = .semicolon ∨ k = .chain) :
    Moves I (skip p) :=
  moves_modify fun _ => Lasting.skip hp

theorem lasting_skipSpacing {c : Cursor} (hc : I c) : I c.skipSpacing :=
  Lasting.skip (fun _ h => .inl h) hc

theorem lasting_skipBlanks {c : Cursor} (hc : I c) : I c.skipBlanks :=
  Lasting.skip (fun _ h => .inl (by rw [of_decide_eq_true h]; rfl)) hc

theorem moves_skipSpacing : Moves I skipSpacing := moves_modify fun _ => lasting_skipSpacing

theorem moves_skipBlanks : Moves I skipBlanks := moves_modify fun _ => lasting_skipBlanks

theorem makes_nested {m : Parser α} (h : Makes I m P) : Makes I (nested m) P := fun _ hc =>
  gives_nested ((h _ (Lasting.deep _ hc)).mono fun _ _ hd _ _ => ⟨Lasting.deep _ hd.1, hd.2⟩)

end Parser

/-- The groups are those of a level, and all that is in them has been answered. -/
structure Groups.Makes (I : Cursor → Prop) (g : Groups) : Prop where
  level : ∃ levels, g = groups levels
  block : Parser.Makes I g.block fun b => (Node.block b).Sprung I
  subexpression : Parser.Makes I g.subexpression fun e => (Node.expression e).Sprung I
  hashtable : Parser.Makes I g.hashtable fun e => (Node.expression e).Sprung I

namespace Parse

variable {I : Cursor → Prop} {g : Groups}

abbrev expressions (e : Expression) : List Node := [.expression e]

abbrev statementNodes (s : Statement) : List Node := [.statement s]

/-- What a step makes is an answer of it. -/
theorem makes_answered {α : Type} {P : α → Prop} {m : Groups → Parser α} {levels : Nat}
    (h : Makes I (m (groups levels)) P) : Makes I (m (groups levels)) fun a => Answers I m a ∧ P a := by
  refine fun c hc => gives_iff.mpr fun a d hrun => ?_
  obtain ⟨hd, ha⟩ := gives_iff.mp (h c hc) a d hrun
  exact ⟨hd, ⟨levels, c, d, hc, hrun⟩, ha⟩

/-- A hashtable has been answered with all that is in it, if its entries have been read so. -/
theorem makes_hashtable {levels : Nat}
    (h : Makes I (groups levels).hashtable fun e =>
      ∃ entries s, e = .hashtable entries s ∧ Grown I (entries.flatMap Node.ofEntry)) :
    Makes I (groups levels).hashtable fun e => (Node.expression e).Sprung I := by
  refine (makes_answered h).mono ?_
  rintro _ ⟨hanswers, entries, s, rfl, hentries⟩
  exact Node.sprung_iff.mpr ⟨hanswers, hentries⟩

/-- All nodes of an expression, provided that one of several parts has been answered as such. -/
def Joins (I : Cursor → Prop) (e? : Option Expression) : Prop :=
  (∀ parts s, e? = some (.sequence parts s) → (Node.expression (.sequence parts s)).Answered I) →
    Grown? I .expression e?

theorem makes_joined {es : List Expression} (h : Grown I (es.map .expression)) :
    Makes I (joined es) (Joins I) := by
  unfold joined
  split
  case h_1 => exact makes_pure fun _ => grown?_none
  case h_2 => exact makes_pure fun _ => grown?_some.mpr (grown_cons.mp h).1
  case h_3 =>
    refine (moves_spanFrom _).bind fun _ => makes_pure fun hanswered => grown?_some.mpr ?_
    exact Node.sprung_iff.mpr ⟨hanswered _ _ rfl, h⟩

theorem makes_block? (hg : g.Makes I) : Makes I (block? g) (Grown? I .block) := by
  refine makes_get_bind fun c => ?_
  split
  · exact hg.block.map fun b hb => grown?_some.mpr hb
  · exact makes_pure grown?_none

theorem makes_parenthesis? (hg : g.Makes I) : Makes I (parenthesis? g) (Grown? I .expression) := by
  refine makes_get_bind fun c => ?_
  split
  · exact hg.subexpression.map fun e he => grown?_some.mpr he
  · exact makes_pure grown?_none

/-- What is in a statement that may be missing. -/
abbrev Furnished (I : Cursor → Prop) (s? : Option Statement) : Prop :=
  ∀ s ∈ s?, Grown I (Node.statement s).children

theorem Furnished.of {s : Statement} (h : Grown I (Node.statement s).children) :
    Furnished I (some s) := by
  intro s' hs'
  cases hs'
  exact h

/-- A loop over expressions that reads one more or none. -/
theorem makes_more {es : Array Expression} {m : Parser (Option Expression)}
    (h : Amassed I expressions es) (hm : Makes I m (Grown? I .expression)) :
    Makes I (do
      match ← m with
      | some e => return .yield (es.push e)
      | none => return .done es) (Answer (Amassed I expressions)) := by
  refine hm.bind fun e? he => ?_
  cases e? with
  | none => exact makes_pure h
  | some e => exact makes_pure (amassed_push.mpr ⟨h, by simpa using he⟩)

variable [Lasting I]

theorem moves_checkClosed (t : Token) : Moves I (checkClosed t) := by
  unfold checkClosed
  split
  · exact moves_report _ _
  · exact makes_pure trivial

theorem makes_primary (hg : g.Makes I) : Makes I (primary g) (Grown? I .expression) := by
  refine makes_get_bind fun c => ?_
  split
  case h_1 | h_3 | h_4 =>
    exact moves_advance.bind fun _ => makes_pure (grown?_some.mpr (sprung_leaf trivial rfl))
  case h_2 =>
    exact moves_advance.bind fun t => (moves_checkClosed t).bind fun _ =>
      makes_pure (grown?_some.mpr (sprung_leaf trivial rfl))
  case h_5 =>
    refine hg.block.map fun b hb => grown?_some.mpr (Node.sprung_iff.mpr ⟨trivial, ?_⟩)
    exact grown_cons.mpr ⟨hb, grown_nil⟩
  case h_6 | h_7 | h_8 => exact hg.subexpression.map fun e he => grown?_some.mpr he
  case h_9 => exact hg.hashtable.map fun e he => grown?_some.mpr he
  case h_10 => exact makes_pure grown?_none

theorem makes_argumentAtom (hg : g.Makes I) : Makes I (argumentAtom g) (Grown? I .expression) := by
  refine makes_get_bind fun c => ?_
  split
  case h_1 | h_2 => exact moves_advance.bind fun _ => makes_pure (grown?_some.mpr (sprung_leaf trivial rfl))
  case h_3 => exact makes_primary hg

theorem makes_adjacentRound (hg : g.Makes I) {es : Array Expression} (h : Amassed I expressions es) :
    Makes I (adjacentRound g es) (Answer (Amassed I expressions)) := by
  refine makes_get_bind fun c => ?_
  split
  case isTrue => exact makes_more h (makes_argumentAtom hg)
  case isFalse => exact makes_pure h

theorem makes_adjacent (hg : g.Makes I) : Makes I (adjacent g) (Grown? I .expression) := by
  have hjoins : Makes I (adjacent g) (Joins I) := by
    refine (makes_argumentAtom hg).bind fun first? hfirst => ?_
    cases first? with
    | none => exact makes_pure fun _ => grown?_none
    | some first =>
        exact (makes_repeating (P := Amassed I expressions) (amassed_singleton.mpr hfirst) fun es h =>
          makes_adjacentRound hg h).bind fun es h => makes_joined (amassed_iff.mp h)
  obtain ⟨levels, rfl⟩ := hg.level
  exact (makes_answered hjoins).mono fun e? he => he.2 fun _ _ h => .inl (h ▸ he.1)

theorem moves_commaAhead : Moves I commaAhead :=
  makes_set_bind (p := fun c => c.skipBlanks.kind? = some .comma) (fun _ => lasting_skipBlanks)
    (makes_pure trivial) (makes_pure trivial)

theorem makes_arrayRound (hg : g.Makes I) {items : Array Expression} (h : Amassed I expressions items) :
    Makes I (arrayRound g items) (Answer (Amassed I expressions)) := by
  refine moves_commaAhead.bind fun ahead => ?_
  cases ahead with
  | false => exact makes_pure h
  | true =>
      exact moves_advance.bind fun _ => moves_skipSpacing.bind fun _ => makes_more h (makes_adjacent hg)

theorem makes_argument (hg : g.Makes I) : Makes I (argument g) (Grown? I .expression) := by
  have hitems : Makes I (argument g) fun e? => Answers I argument e? → Grown? I .expression e? := by
    refine (makes_adjacent hg).bind fun first? hfirst => ?_
    cases first? with
    | none => exact makes_pure fun _ => grown?_none
    | some first =>
        refine moves_commaAhead.bind fun ahead => ?_
        cases ahead with
        | false => exact makes_pure fun _ => hfirst
        | true =>
            refine (makes_repeating (P := Amassed I expressions) (amassed_singleton.mpr hfirst)
              fun items h => makes_arrayRound hg h).bind fun items h => (moves_spanFrom _).bind fun _ => ?_
            refine makes_pure fun hanswers => grown?_some.mpr (Node.sprung_iff.mpr ⟨?_, amassed_iff.mp h⟩)
            exact hanswers
  obtain ⟨levels, rfl⟩ := hg.level
  exact (makes_answered hitems).mono fun _ he => he.2 he.1

theorem makes_argumentIf (hg : g.Makes I) (expected : Bool) :
    Makes I (argumentIf g expected) (Grown? I .expression) := by
  unfold argumentIf
  split
  · exact moves_skipBlanks.bind fun _ => makes_argument hg
  · exact makes_pure grown?_none

theorem makes_redirection (hg : g.Makes I) :
    Makes I (redirection g) fun r => Grown I (Node.ofRedirection r) :=
  moves_advance.bind fun _ => (makes_argumentIf hg _).bind fun _ htarget =>
    (moves_spanFrom _).bind fun _ => makes_pure htarget

theorem makes_parameter (hg : g.Makes I) :
    Makes I (parameter g) fun e => Grown I (Node.ofElement e) :=
  moves_advance.bind fun _ => (makes_argumentIf hg _).bind fun _ hargument =>
    (moves_spanFrom _).bind fun _ => makes_pure hargument

/-- All nodes that have been read behind the name of a command. -/
structure Supplied (I : Cursor → Prop) (args : Arguments) : Prop where
  elements : Amassed I Node.ofElement args.elements
  redirections : Amassed I Node.ofRedirection args.redirections

theorem makes_commandRound (hg : g.Makes I) {args : Arguments} (h : Supplied I args) :
    Makes I (commandRound g args) (Answer (Supplied I)) := by
  refine makes_get_bind fun c => ?_
  split
  case h_1 => exact makes_pure h
  case h_2 =>
    split_ifs
    · exact moves_advance.bind fun _ => makes_pure h
    · exact makes_pure h
    · exact (makes_redirection hg).map fun r hr =>
        ⟨h.elements, amassed_push.mpr ⟨h.redirections, hr⟩⟩
    · exact (makes_parameter hg).map fun e he =>
        ⟨amassed_push.mpr ⟨h.elements, he⟩, h.redirections⟩
    · exact moves_advance.bind fun _ => makes_pure ⟨h.elements, h.redirections⟩
    · refine (makes_argument hg).bind fun value? hvalue => ?_
      cases value? with
      | none => exact makes_pure h
      | some value => exact makes_pure ⟨amassed_push.mpr ⟨h.elements, hvalue⟩, h.redirections⟩

theorem makes_command (hg : g.Makes I) (start : Nat) (operator : Option CallOperator) {head : Expression}
    (hhead : (Node.expression head).Sprung I) :
    Makes I (command g start operator head) fun i => Grown I (Node.invocation i).children := by
  refine (makes_repeating (P := Supplied I) ⟨amassed_empty, amassed_empty⟩ fun args h =>
    makes_commandRound hg h).bind fun args h => makes_get_bind fun _ => ?_
  exact (moves_span _ _).bind fun _ =>
    makes_pure (grown_cons.mpr ⟨hhead, grown_append.mpr ⟨h.elements, h.redirections⟩⟩)

theorem makes_expressionRound (hg : g.Makes I) {es : Array Expression} (h : Amassed I expressions es) :
    Makes I (expressionRound g es) (Answer (Amassed I expressions)) := by
  refine makes_get_bind fun c => ?_
  split
  case h_1 => exact makes_pure h
  case h_2 =>
    split_ifs
    · exact moves_advance.bind fun _ => makes_pure h
    · exact makes_pure h
    · exact makes_pure h
    · refine moves_advance.bind fun t => makes_pure (amassed_push.mpr ⟨h, grown_cons.mpr ⟨?_, grown_nil⟩⟩)
      exact sprung_leaf (e := t.bareword) trivial rfl
    · exact makes_more h (makes_primary hg)

theorem makes_expression (hg : g.Makes I) : Makes I (expression g) (Grown? I .expression) := by
  have hjoins : Makes I (expression g) (Joins I) :=
    (makes_repeating amassed_empty fun _ h => makes_expressionRound hg h).bind fun _ h =>
      makes_joined (amassed_iff.mp h)
  obtain ⟨levels, rfl⟩ := hg.level
  exact (makes_answered hjoins).mono fun e? he => he.2 fun _ _ h => .inr (h ▸ he.1)

/-- What is in a stage, which may be missing. -/
def Filled (I : Cursor → Prop) : Option Stage → Prop
  | none => True
  | some (.command i) => Grown I (Node.invocation i).children
  | some (.expression e) => (Node.expression e).Sprung I

theorem makes_calledStage (hg : g.Makes I) (operator : CallOperator) :
    Makes I (calledStage g operator) (Filled I) := by
  refine moves_advance.bind fun t => moves_skipBlanks.bind fun _ => ?_
  refine (makes_primary hg).bind fun head? hhead => ?_
  cases head? with
  | none => exact makes_pure trivial
  | some head => exact (makes_command hg _ _ (grown?_some.mp hhead)).map fun i hi => hi

theorem makes_namedStage (hg : g.Makes I) : Makes I (namedStage g) (Filled I) := by
  refine moves_advance.bind fun t => ?_
  exact (makes_command hg t.start none (sprung_leaf (e := t.bareword) trivial rfl)).map fun i hi => hi

theorem makes_expressionStage (hg : g.Makes I) : Makes I (expressionStage g) (Filled I) := by
  refine (makes_expression hg).map fun e? he => ?_
  cases e? with
  | none => trivial
  | some e => exact grown?_some.mp he

theorem makes_stage (hg : g.Makes I) : Makes I (stage g) fun s? => Staged I s?.toList := by
  have hfilled : Makes I (stage g) (Filled I) := by
    refine moves_skipBlanks.bind fun _ => makes_get_bind fun c => ?_
    split
    case h_1 => exact makes_pure trivial
    case h_2 =>
      split_ifs
      · exact makes_calledStage hg _
      · exact makes_calledStage hg _
      · exact makes_namedStage hg
      · exact makes_expressionStage hg
  obtain ⟨levels, rfl⟩ := hg.level
  refine (makes_answered hfilled).mono fun s? ⟨hanswers, hparts⟩ => ?_
  cases s? with
  | none => exact staged_nil
  | some s =>
      refine staged_cons.mpr ⟨⟨hanswers, ?_⟩, staged_nil⟩
      cases s with
      | command i => exact Node.sprung_iff.mpr ⟨hanswers, hparts⟩
      | expression e => exact hparts

theorem makes_pipelineRound (hg : g.Makes I) {stages : Array Stage} (h : Staged I stages.toList) :
    Makes I (pipelineRound g stages) (Answer fun stages => Staged I stages.toList) := by
  refine moves_skipBlanks.bind fun _ => makes_get_bind fun c => ?_
  split
  case h_1 => exact moves_advance.bind fun _ => makes_pure h
  case h_2 =>
    refine moves_advance.bind fun _ => moves_skipSpacing.bind fun _ => ?_
    refine (makes_stage hg).bind fun s? hs => ?_
    cases s? with
    | none => exact makes_get_bind fun _ => (moves_report _ _).bind fun _ => makes_pure h
    | some s =>
        refine makes_pure ?_
        rw [Answer, Array.toList_push]
        exact staged_append.mpr ⟨h, hs⟩
  case h_3 => exact makes_pure h

theorem makes_pipelineFrom (hg : g.Makes I) {first : Stage} (hfirst : Staged I [first]) :
    Makes I (pipelineFrom g first) fun p => (Node.pipeline p).Sprung I := by
  refine (makes_repeating (P := fun stages : Array Stage => Staged I stages.toList) hfirst
    fun stages h => makes_pipelineRound hg h).bind fun stages h => makes_get_bind fun _ => ?_
  exact (moves_span _ _).bind fun _ => makes_pure (sprung_pipeline.mpr h)

theorem makes_pipeline (hg : g.Makes I) : Makes I (pipeline g) (Grown? I .pipeline) := by
  refine (makes_stage hg).bind fun first? hfirst => ?_
  cases first? with
  | none => exact makes_pure grown?_none
  | some first => exact (makes_pipelineFrom hg hfirst).map fun p hp => grown?_some.mpr hp

theorem makes_assignedValue (hg : g.Makes I) (stop : Nat) :
    Makes I (assignedValue g stop) fun p => (Node.pipeline p).Sprung I := by
  refine moves_skipSpacing.bind fun _ => (makes_pipeline hg).map fun p? hp => ?_
  cases p? with
  | none => exact sprung_pipeline.mpr staged_nil
  | some p => exact grown?_some.mp hp

/-- An operator is passed with its word or as the first part of it. -/
theorem moves_passOperator {c : Cursor} {t : Token} {ts : List Token} (hc : I c)
    (hrest : c.rest = t :: ts) (ht : t.kind = .word) {head tail : String} (htext : t.text = head ++ tail)
    (hhead : head ≠ "") : Gives (passOperator head.utf8ByteSize) c fun _ d => I d := by
  rw [Gives, holds_passOperator hrest htext]
  split
  case isTrue => exact Lasting.pass hc hrest
  case isFalse htail => exact Lasting.part hc hrest ht htext hhead htail

theorem makes_assignment (hg : g.Makes I) {target : Expression} (htarget : (Node.expression target).Sprung I)
    {c : Cursor} {n : Nat} (hc : I c) (hn : assignmentAhead? c = some n) :
    Gives (assignment g target n) c fun s d => I d ∧ Grown I (Node.statement s).children := by
  obtain ⟨t, ts, head, tail, hrest, ht, htext, hhead, rfl⟩ := exists_of_assignmentAhead? hn
  refine (moves_passOperator hc hrest ht htext hhead).bind fun operator d hd => ?_
  refine (makes_assignedValue hg _ d hd).bind fun value e he => (moves_span _ _ e he.1).bind fun _ f hf => ?_
  exact ⟨hf.1, grown_cons.mpr ⟨htarget, grown_cons.mpr ⟨he.2, grown_nil⟩⟩⟩

theorem makes_pipelineStatement (hg : g.Makes I) : Makes I (pipelineStatement g) (Furnished I) := by
  have hone {p : Pipeline} (hp : (Node.pipeline p).Sprung I) : Furnished I (some (.pipeline p)) :=
    .of (grown_cons.mpr ⟨hp, grown_nil⟩)
  refine (makes_stage hg).bind fun first? hfirst => ?_
  match first? with
  | none => exact makes_pure nofun
  | some (.command i) => exact (makes_pipelineFrom hg hfirst).map fun p hp => hone hp
  | some (.expression target) =>
    refine moves_skipBlanks.bind fun _ c hc => ?_
    rw [Gives, holds_get_bind]
    split
    case h_1 n hn =>
      exact (makes_assignment hg (staged_cons.mp hfirst).1.2 hc hn).bind fun s d hs => ⟨hs.1, .of hs.2⟩
    case h_2 => exact ((makes_pipelineFrom hg hfirst).map fun p hp => hone hp) c hc

theorem moves_clauseTypesRound (types : Array String) : Moves I (clauseTypesRound types) := by
  refine moves_skipSpacing.bind fun _ => makes_get_bind fun c => ?_
  split
  case h_1 | h_2 | h_3 => exact moves_advance.bind fun _ => makes_pure trivial
  case h_4 => exact makes_pure trivial

theorem moves_toBrace (expected : Bool) :
    Moves I (modify fun c => if expected then toBrace c else c) := by
  refine moves_modify fun c hc => ?_
  unfold toBrace
  split_ifs
  · exact lasting_skipSpacing hc
  · exact hc
  · exact hc

theorem makes_clause (hg : g.Makes I) : Makes I (clause g) fun cl => Grown I (Node.ofClause cl) := by
  refine moves_advance.bind fun t => ?_
  refine (makes_repeating (P := fun _ => True) trivial fun types _ => ?_).bind fun types _ => ?_
  · exact (moves_clauseTypesRound types).mono fun r _ => by cases r <;> trivial
  · refine (makes_parenthesis? hg).bind fun condition hcondition => ?_
    refine (moves_toBrace condition.isSome).bind fun _ => (makes_block? hg).map fun body hbody => ?_
    exact grown_append.mpr ⟨hcondition, hbody⟩

theorem makes_compoundRound (hg : g.Makes I) (keywords : List String) {clauses : Array Clause}
    (h : Amassed I Node.ofClause clauses) :
    Makes I (compoundRound g keywords clauses) (Answer (Amassed I Node.ofClause)) := by
  refine makes_set_bind (p := fun c => atKeyword keywords c.skipSpacing) (fun _ => lasting_skipSpacing) ?_
    (makes_pure h)
  exact (makes_clause hg).map fun cl hcl => amassed_push.mpr ⟨h, hcl⟩

theorem makes_compound (hg : g.Makes I) (keyword : String) :
    Makes I (compound g keyword) fun s => Grown I (Node.statement s).children := by
  refine moves_current.bind fun t => (makes_clause hg).bind fun first hfirst => ?_
  refine (makes_repeating (amassed_singleton.mpr hfirst) fun clauses h =>
    makes_compoundRound hg _ h).bind fun clauses h => makes_get_bind fun _ => ?_
  exact (moves_span _ _).bind fun _ => makes_pure h

theorem makes_functionBody (hg : g.Makes I) :
    Makes I (functionBody g) fun b => (Node.block b).Sprung I := by
  refine (makes_block? hg).bind fun body? hbody => ?_
  cases body? with
  | none =>
      refine makes_get_bind fun _ => (moves_report _ _).bind fun _ => makes_pure ?_
      exact Node.sprung_iff.mpr ⟨.inl rfl, grown_nil⟩
  | some body => exact makes_pure (grown?_some.mp hbody)

theorem makes_function (hg : g.Makes I) (keyword : String) :
    Makes I (function g keyword) fun s => Grown I (Node.statement s).children := by
  refine moves_advance.bind fun _ => moves_skipSpacing.bind fun _ => moves_advance.bind fun _ => ?_
  refine moves_skipSpacing.bind fun _ => (makes_parenthesis? hg).bind fun params hparams => ?_
  refine moves_skipSpacing.bind fun _ => (makes_functionBody hg).bind fun body hbody => ?_
  refine (moves_span _ _).bind fun _ => makes_pure ?_
  exact grown_append.mpr ⟨hparams, grown_cons.mpr ⟨hbody, grown_nil⟩⟩

theorem makes_flow (hg : g.Makes I) (keyword : String) :
    Makes I (flow g keyword) fun s => Grown I (Node.statement s).children :=
  moves_advance.bind fun _ => moves_skipBlanks.bind fun _ => (makes_pipeline hg).bind fun _ hvalue =>
    (moves_span _ _).bind fun _ => makes_pure hvalue

/-- A statement is read by its form. -/
theorem gives_statement {c : Cursor} {Q : Option Statement → Cursor → Prop}
    (hfunction : ∀ keyword name params body s d, Q (some (.function keyword name params body s)) d)
    (hcompound : ∀ keyword, form c = .compound keyword → Gives (compound g keyword) c fun s d => Q (some s) d)
    (hflow : ∀ keyword value s d, Q (some (.flow keyword value s)) d)
    (hpipeline : Gives (pipelineStatement g) c Q) : Gives (statement g) c Q := by
  have hfunctions (keyword : String) : Gives (function g keyword) c fun s d => Q (some s) d := by
    iterate 7 refine gives_bind fun _ _ => ?_
    exact gives_span_bind fun _ => hfunction _ _ _ _ _ _
  have hflows (keyword : String) : Gives (flow g keyword) c fun s d => Q (some s) d := by
    iterate 3 refine gives_bind fun _ _ => ?_
    exact gives_span_bind fun _ => hflow _ _ _ _
  rw [statement, Gives, holds_get_bind]
  split
  case h_1 keyword _ => exact (hfunctions keyword).bind fun _ _ h => h
  case h_2 keyword hform => exact (hcompound keyword hform).bind fun _ _ h => h
  case h_3 keyword _ => exact (hflows keyword).bind fun _ _ h => h
  case h_4 => exact hpipeline

theorem makes_statement (hg : g.Makes I) : Makes I (statement g) (Grown? I .statement) := by
  have hfurnished : Makes I (statement g) (Furnished I) := by
    refine makes_get_bind fun c => ?_
    split
    case h_1 keyword _ => exact (makes_function hg keyword).map fun s hs => .of hs
    case h_2 keyword _ => exact (makes_compound hg keyword).map fun s hs => .of hs
    case h_3 keyword _ => exact (makes_flow hg keyword).map fun s hs => .of hs
    case h_4 => exact makes_pipelineStatement hg
  obtain ⟨levels, rfl⟩ := hg.level
  refine (makes_answered hfurnished).mono fun s? ⟨hanswers, hparts⟩ => ?_
  cases s? with
  | none => exact grown?_none
  | some s =>
      refine grown?_some.mpr (Node.sprung_iff.mpr ⟨?_, hparts s rfl⟩)
      cases s <;> first | exact hanswers | exact trivial

theorem moves_reportIfAt (start : Nat) : Moves I (reportIfAt start) := by
  refine makes_get_bind fun c => ?_
  split
  · exact moves_reportUnexpected
  · exact makes_pure trivial

theorem makes_statementsRound (hg : g.Makes I) (closer : Option Closer) {found : Array Statement}
    (h : Amassed I statementNodes found) :
    Makes I (statementsRound g closer found) (Answer (Amassed I statementNodes)) := by
  refine (moves_skip fun k hk => ?_).bind fun _ => makes_get_bind fun c => ?_
  · cases k <;> first | exact .inl rfl | exact .inr (.inl rfl) | exact .inr (.inr rfl) | cases hk
  split
  case h_1 => exact makes_pure h
  case h_2 =>
    split_ifs
    · have hcomment (t : Token) : (Node.statement (.trivia t.text t.span)).Sprung I :=
        Node.sprung_iff.mpr ⟨trivial, grown_nil⟩
      exact moves_advance.bind fun t =>
        makes_pure (amassed_push.mpr ⟨h, grown_cons.mpr ⟨hcomment t, grown_nil⟩⟩)
    · exact makes_pure h
    · refine (makes_statement hg).bind fun s? hs => (moves_reportIfAt _).bind fun _ => ?_
      cases s? with
      | none => exact makes_pure (by simpa [Answer] using h)
      | some s => exact makes_pure (by simpa [Answer] using ⟨h, grown?_some.mp hs⟩)

theorem makes_statements (hg : g.Makes I) (closer : Option Closer) :
    Makes I (statements g closer) fun body => Bodied I body ∧ Grown I (body.map .statement) := by
  have hgrown : Makes I (statements g closer) fun body => Grown I (body.map .statement) :=
    (makes_repeating amassed_empty fun _ h => makes_statementsRound hg closer h).map fun _ h =>
      amassed_iff.mp h
  obtain ⟨levels, rfl⟩ := hg.level
  exact (makes_answered (m := fun g => statements g closer) hgrown).mono fun body hbody =>
    ⟨.inr ⟨closer, hbody.1⟩, hbody.2⟩

theorem moves_passTokens (n : Nat) : Moves I (passTokens n) := by
  induction n with
  | zero => exact makes_pure trivial
  | succ n ih => exact moves_advance.bind fun _ => ih

theorem moves_skipGroup : Moves I skipGroup :=
  moves_current.bind fun _ => makes_get_bind fun _ => (moves_passTokens _).bind fun _ =>
    makes_get_bind fun _ => (moves_span _ _).bind fun _ => (moves_report _ _).bind fun _ =>
      makes_pure trivial

theorem moves_expectCloser (closer : Closer) : Moves I (expectCloser closer) := by
  refine makes_get_bind fun c => ?_
  split
  · exact moves_advance.bind fun _ => makes_pure trivial
  · exact (moves_report _ _).bind fun _ => makes_pure trivial

/-- A key is passed with its word or as the first part of it. -/
theorem makes_key (hg : g.Makes I) {c : Cursor} {t : Token} {ts : List Token} (hc : I c)
    (hrest : c.rest = t :: ts) :
    Gives (cutKey t >>= fun _ => primary g) c fun key? d => I d ∧ Grown? I .expression key? := by
  unfold cutKey
  split
  case h_1 => exact makes_primary hg c hc
  case h_2 key hkey =>
    obtain ⟨hword, tail, htext, hhead, htail⟩ := keyOf?_eq_some hkey
    have hpart := Lasting.part hc hrest hword htext hhead htail
    apply (holds_bind_of_ok (cut_of_append hrest htext)).mpr
    have hkind := kind?_of_rest (c := { c with rest := (t.cut (String.ofList key).utf8ByteSize).1 ::
      (t.cut (String.ofList key).utf8ByteSize).2 :: ts }) rfl
    rw [primary, holds_get_bind, hkind, (rfl : (t.cut _).1.kind = .word)]
    exact (holds_advance_bind rfl).mpr ⟨hpart, grown?_some.mpr (sprung_leaf trivial rfl)⟩

theorem makes_entryValue (hg : g.Makes I) {key : Expression} (hkey : (Node.expression key).Sprung I)
    {found : Array Entry} (h : Amassed I Node.ofEntry found) :
    Makes I (entryValue g key found) (Amassed I Node.ofEntry) := by
  refine moves_skipBlanks.bind fun _ c hc => ?_
  rw [Gives, holds_get_bind]
  split
  case h_1 => exact ⟨hc, h⟩
  case h_2 t ts hrest =>
    split_ifs with hassign hend
    · obtain ⟨tail, htext⟩ := exists_behind_equals hassign.2
      refine (moves_passOperator hc hrest hassign.1 htext (by decide)).bind fun operator d hd => ?_
      refine (makes_assignedValue hg _ d hd).bind fun value e he => ⟨he.1, ?_⟩
      exact amassed_push.mpr ⟨h, grown_cons.mpr ⟨hkey, grown_cons.mpr ⟨he.2, grown_nil⟩⟩⟩
    · exact ⟨hc, h⟩
    · exact (moves_reportUnexpected c hc).bind fun _ d hd => ⟨hd.1, h⟩

theorem makes_hashtableRound (hg : g.Makes I) {found : Array Entry} (h : Amassed I Node.ofEntry found) :
    Makes I (hashtableRound g found) (Answer (Amassed I Node.ofEntry)) := by
  refine (moves_skip fun k hk => ?_).bind fun _ c hc => ?_
  · cases k <;> first | exact .inl rfl | exact .inr (.inl rfl) | cases hk
  rw [Gives, holds_get_bind]
  split
  case h_1 => exact ⟨hc, h⟩
  case h_2 t ts hrest =>
    split_ifs
    · exact ⟨hc, h⟩
    · rw [← bind_assoc]
      refine (makes_key hg hc hrest).bind fun key? d hd => ?_
      cases key? with
      | none => exact (moves_reportUnexpected d hd.1).bind fun _ e he => ⟨he.1, h⟩
      | some key =>
          exact (makes_entryValue hg (grown?_some.mp hd.2) h d hd.1).bind fun found e he => he

theorem makes_entries (hg : g.Makes I) :
    Makes I (entries g) fun es => Grown I (es.flatMap Node.ofEntry) :=
  (makes_repeating amassed_empty fun _ h => makes_hashtableRound hg h).map fun _ h => h

/-- A group of one more level: what is in it stands between its opener and its closer. -/
theorem makes_group {α β : Type} {P : α → Prop} {Q : β → Prop} {m : Parser α} (closer : Closer)
    {f : Token → α → Span → β} (h : Makes I m P) (hf : ∀ t a s, P a → Q (f t a s)) :
    Makes I (do
      let t ← advance
      let body ← nested m
      return f t body (← span t.start (← expectCloser closer))) Q :=
  moves_advance.bind fun t => (makes_nested h).bind fun body hbody =>
    (moves_expectCloser closer).bind fun _ => (moves_span _ _).bind fun s =>
      makes_pure (hf t body s hbody)

theorem groups_makes (levels : Nat) : (groups levels).Makes I := by
  induction levels with
  | zero =>
      refine ⟨⟨0, rfl⟩, ?_, ?_, ?_⟩
      · exact moves_skipGroup.bind fun _ => makes_pure (Node.sprung_iff.mpr ⟨.inl rfl, grown_nil⟩)
      · exact moves_current.bind fun _ => moves_skipGroup.bind fun _ =>
          makes_pure (sprung_leaf (.inl rfl) rfl)
      · exact makes_hashtable (moves_skipGroup.bind fun s => makes_pure ⟨[], s, rfl, grown_nil⟩)
  | succ levels ih =>
      refine ⟨⟨levels + 1, rfl⟩, ?_, ?_, ?_⟩
      · exact makes_group .brace (makes_statements ih _) fun _ _ _ h => Node.sprung_iff.mpr h
      · exact makes_group .paren (makes_statements ih _) fun _ _ _ h => Node.sprung_iff.mpr h
      · exact makes_hashtable (makes_group .brace (makes_entries ih) fun _ es s h => ⟨es, s, rfl, h⟩)

end Parse

/-- All nodes in the tree of a script have been answered as what they are, from cursors at which holds what
lasts from the first one on. -/
theorem answered_parse {I : Cursor → Prop} [Lasting I] {source : String} (h : I (.ofSource source)) :
    ∀ n ∈ (Node.block (parse source).tree.body).below, n.Answered I := by
  obtain ⟨body, c, hrun, -⟩ := Parse.run_ends source
  rw [parse_eq hrun]
  exact Node.sprung_iff.mpr (gives_iff.mp (makes_statements (groups_makes maxNesting) none _ h) body c hrun).2

end ScriptLint
