import Mathlib.Data.List.Induction
import Mathlib.Tactic.SplitIfs
import ScriptLint.Proofs.Syntax.View
import ScriptLint.Syntax.Fault
import ScriptLint.Text.Case

/-!
Spellings of a script. The same script can be written with small letters only, or with a carriage return in
front of each line feed; its tree is then spelled alike, text by text. A telling is a view of a tree in
another spelling.
-/

namespace ScriptLint

/-- A way to write a script again, character by character. -/
inductive Spelling
  /-- Small letters stand for capital ones. -/
  | folded
  /-- A carriage return stands in front of each line feed. -/
  | returns
  deriving DecidableEq

namespace Spelling

def char : Spelling → Char → List Char
  | folded, c => [c.toLower]
  | returns, c => if c = '\n' then ['\r', '\n'] else [c]

def chars (w : Spelling) (cs : List Char) : List Char := cs.flatMap w.char

def text (w : Spelling) (s : String) : String := String.ofList (w.chars s.toList)

/-- A character that stays as it is in the spelling, and that no other one turns into. -/
def isMark : Spelling → Char → Bool
  | folded, x => !x.isAlpha
  | returns, x => x ≠ '\n' && x ≠ '\r'

section

variable {w : Spelling} {c x : Char} {cs ds part : List Char} {p : Char → Bool}

/-- A mark in every spelling. -/
theorem isMark_of (h : (!x.isAlpha && x ≠ '\n' && x ≠ '\r') = true) : w.isMark x := by
  simp only [Bool.and_eq_true] at h
  cases w with
  | folded => exact h.1.1
  | returns => exact Bool.and_eq_true_iff.mpr ⟨h.1.2, h.2⟩

theorem isMark_of_all (h : part.all (fun x => !x.isAlpha && x ≠ '\n' && x ≠ '\r') = true) :
    ∀ x ∈ part, w.isMark x := fun x hx => isMark_of (List.all_eq_true.mp h x hx)

theorem char_of_isMark (h : w.isMark x) : w.char x = [x] := by
  cases w with
  | folded =>
      rcases Text.toLower_eq_or x with hx | ⟨hupper, -⟩
      · rw [char, hx]
      · rw [isMark, Text.isAlpha_iff.mpr (.inl hupper)] at h
        cases h
  | returns => exact if_neg (of_decide_eq_true (Bool.and_eq_true_iff.mp h).1)

theorem eq_of_mem_char (h : w.isMark x) (hx : x ∈ w.char c) : x = c := by
  cases w with
  | folded =>
      obtain rfl := List.mem_singleton.mp hx
      refine (Text.toLower_eq_or c).resolve_right fun ⟨_, hlower⟩ => ?_
      rw [isMark, Text.isAlpha_iff.mpr (.inr hlower)] at h
      cases h
  | returns =>
      rw [char] at hx
      split_ifs at hx
      · rcases List.mem_cons.mp hx with rfl | hx
        · exact absurd h (by decide)
        · rw [List.mem_singleton.mp hx] at h
          exact absurd h (by decide)
      · exact List.mem_singleton.mp hx

theorem eq_iff_of_mem_char {d : Char} (h : w.isMark x) (hd : d ∈ w.char c) : d = x ↔ c = x := by
  constructor
  · rintro rfl
    exact (eq_of_mem_char h hd).symm
  · rintro rfl
    rw [char_of_isMark h] at hd
    exact List.mem_singleton.mp hd

/-- Only a line feed is spelled with more than one character. -/
theorem char_cases (w : Spelling) (c : Char) :
    (∃ d, w.char c = [d]) ∨ w = .returns ∧ c = '\n' := by
  cases w with
  | folded => exact .inl ⟨_, rfl⟩
  | returns =>
      by_cases hc : c = '\n'
      · exact .inr ⟨rfl, hc⟩
      · exact .inl ⟨c, if_neg hc⟩

theorem char_ne_nil : w.char c ≠ [] := by
  cases w with
  | folded => exact List.cons_ne_nil _ _
  | returns => rw [char]; split_ifs <;> exact List.cons_ne_nil _ _

theorem toList_text (w : Spelling) (s : String) : (w.text s).toList = w.chars s.toList := String.toList_ofList

theorem ofList_chars (w : Spelling) (cs : List Char) :
    String.ofList (w.chars cs) = w.text (String.ofList cs) := by
  rw [text, String.toList_ofList]

@[simp] theorem chars_nil : w.chars [] = [] := rfl

@[simp] theorem chars_cons : w.chars (c :: cs) = w.char c ++ w.chars cs := List.flatMap_cons ..

theorem chars_append : w.chars (cs ++ ds) = w.chars cs ++ w.chars ds := List.flatMap_append ..

theorem chars_cons_of_isMark (h : w.isMark x) : w.chars (x :: cs) = x :: w.chars cs := by
  rw [chars_cons, char_of_isMark h, List.singleton_append]

theorem mem_chars (h : w.isMark x) : x ∈ w.chars cs ↔ x ∈ cs := by
  unfold chars
  rw [List.mem_flatMap]
  constructor
  · rintro ⟨c, hc, hx⟩
    rwa [eq_of_mem_char h hx]
  · intro hx
    exact ⟨x, hx, by rw [char_of_isMark h]; exact List.mem_singleton_self x⟩

/-- A text that starts with a mark in some spelling starts with it anyway. -/
theorem exists_of_chars_eq_cons (h : w.isMark x) (hcs : w.chars cs = x :: ds) :
    ∃ cs', cs = x :: cs' ∧ w.chars cs' = ds := by
  cases cs with
  | nil => cases hcs
  | cons c cs =>
      obtain ⟨d, us, hd⟩ := List.exists_cons_of_ne_nil (char_ne_nil (w := w) (c := c))
      rw [chars_cons, hd] at hcs
      obtain ⟨rfl, -⟩ := List.cons.inj hcs
      obtain rfl := eq_of_mem_char h (hd ▸ List.mem_cons_self : d ∈ w.char c)
      rw [char_of_isMark h] at hd
      obtain ⟨-, rfl⟩ := List.cons.inj hd
      exact ⟨cs, rfl, (List.cons.inj hcs).2⟩

/-- A text that ends with a mark in some spelling ends with it anyway. -/
theorem exists_of_chars_eq_concat (h : w.isMark x) (hcs : w.chars cs = ds ++ [x]) :
    ∃ cs', cs = cs' ++ [x] ∧ w.chars cs' = ds := by
  rcases List.eq_nil_or_concat cs with rfl | ⟨init, c, rfl⟩
  · simp at hcs
  · rw [List.concat_eq_append] at hcs ⊢
    rw [chars_append, chars_cons, chars_nil, List.append_nil] at hcs
    obtain ⟨us, d, hd⟩ := (List.eq_nil_or_concat (w.char c)).resolve_left char_ne_nil
    rw [List.concat_eq_append] at hd
    rw [hd, ← List.append_assoc] at hcs
    obtain ⟨rfl, hdx⟩ := List.append_inj' hcs rfl
    obtain rfl : d = x := by simpa using hdx
    obtain rfl := eq_of_mem_char h (hd ▸ List.mem_append_right us List.mem_cons_self : d ∈ w.char c)
    rw [char_of_isMark h] at hd
    have hus : us = [] := by
      have := congrArg List.length hd
      simpa using this
    exact ⟨init, rfl, by rw [hus, List.append_nil]⟩

theorem chars_of_isMark (h : ∀ x ∈ part, w.isMark x) : w.chars part = part := by
  induction part with
  | nil => rfl
  | cons x part ih =>
      rw [chars_cons_of_isMark (h x List.mem_cons_self), ih fun y hy => h y (List.mem_cons_of_mem x hy)]

/-- Some marks in front of a text are there in every spelling. -/
theorem exists_of_chars_eq_append (h : ∀ x ∈ part, w.isMark x) (hcs : w.chars cs = part ++ ds) :
    ∃ cs', cs = part ++ cs' ∧ w.chars cs' = ds := by
  induction part generalizing cs with
  | nil => exact ⟨cs, rfl, hcs⟩
  | cons x part ih =>
      obtain ⟨us, rfl, hus⟩ := exists_of_chars_eq_cons (h x List.mem_cons_self) hcs
      obtain ⟨cs', rfl, hcs'⟩ := ih (fun y hy => h y (List.mem_cons_of_mem x hy)) hus
      exact ⟨cs', rfl, hcs'⟩

theorem exists_of_chars_eq_append' (h : ∀ x ∈ part, w.isMark x) (hcs : w.chars cs = ds ++ part) :
    ∃ cs', cs = cs' ++ part ∧ w.chars cs' = ds := by
  induction part using List.reverseRecOn generalizing cs with
  | nil => exact ⟨cs, (List.append_nil cs).symm, by rwa [List.append_nil] at hcs⟩
  | append_singleton part x ih =>
      rw [← List.append_assoc] at hcs
      obtain ⟨us, rfl, hus⟩ :=
        exists_of_chars_eq_concat (h x (List.mem_append_right part List.mem_cons_self)) hcs
      obtain ⟨cs', rfl, hcs'⟩ := ih (fun y hy => h y (List.mem_append_left [x] hy)) hus
      exact ⟨cs', by rw [List.append_assoc], hcs'⟩

/-- The predicate does not tell a character from its spellings. -/
def Respects (w : Spelling) (p : Char → Bool) : Prop := ∀ c, ∀ d ∈ w.char c, p d = p c

theorem respects_of_isMark (h : w.isMark x) : w.Respects (decide <| · = x) :=
  fun _ _ hd => decide_eq_decide.mpr (eq_iff_of_mem_char h hd)

theorem Respects.not {p : Char → Bool} (h : w.Respects p) : w.Respects fun c => !p c :=
  fun c d hd => congrArg _ (h c d hd)

theorem Respects.and {p q : Char → Bool} (h : w.Respects p) (h' : w.Respects q) :
    w.Respects fun c => p c && q c :=
  fun c d hd => congrArg₂ _ (h c d hd) (h' c d hd)

theorem Respects.or {p q : Char → Bool} (h : w.Respects p) (h' : w.Respects q) :
    w.Respects fun c => p c || q c :=
  fun c d hd => congrArg₂ _ (h c d hd) (h' c d hd)

/-- A predicate is respected that says the same of all letters and the same of the two line ends. -/
theorem respects_of {p : Char → Bool} (b : Bool) (hletter : ∀ c, c.isAlpha → p c = b)
    (hline : p '\r' = p '\n') : w.Respects p := by
  intro c d hd
  cases w with
  | folded =>
      obtain rfl := List.mem_singleton.mp hd
      rcases Text.toLower_eq_or c with h | ⟨hupper, hlower⟩
      · rw [h]
      · rw [hletter c (Text.isAlpha_iff.mpr (.inl hupper)), hletter _ (Text.isAlpha_iff.mpr (.inr hlower))]
  | returns =>
      rw [char] at hd
      split_ifs at hd with hc
      · rw [hc]
        rcases List.mem_cons.mp hd with rfl | hd
        · exact hline
        · rw [List.mem_singleton.mp hd]
      · rw [List.mem_singleton.mp hd]

theorem takeWhile_chars (hp : w.Respects p) (cs : List Char) :
    (w.chars cs).takeWhile p = w.chars (cs.takeWhile p) := by
  induction cs with
  | nil => rfl
  | cons c cs ih =>
      rw [chars_cons]
      cases hc : p c with
      | true =>
          rw [List.takeWhile_append_of_pos fun d hd => (hp c d hd).trans hc, ih,
            List.takeWhile_cons_of_pos hc, chars_cons]
      | false =>
          obtain ⟨d, us, hd⟩ := List.exists_cons_of_ne_nil (char_ne_nil (w := w) (c := c))
          have hfalse : p d = false := (hp c d (hd ▸ List.mem_cons_self)).trans hc
          rw [hd, List.cons_append, List.takeWhile_cons_of_neg (by simp [hfalse]),
            List.takeWhile_cons_of_neg (by simp [hc]), chars_nil]

theorem any_head?_chars (hp : w.Respects p) (cs : List Char) :
    (w.chars cs).head?.any p = cs.head?.any p := by
  cases cs with
  | nil => rfl
  | cons c cs =>
      obtain ⟨d, us, hd⟩ := List.exists_cons_of_ne_nil (char_ne_nil (w := w) (c := c))
      rw [chars_cons, hd]
      exact hp c d (hd ▸ List.mem_cons_self)

theorem head?_chars (h : w.isMark x) : (w.chars cs).head? = some x ↔ cs.head? = some x := by
  constructor
  · intro hhead
    obtain ⟨ds, hds⟩ := List.head?_eq_some_iff.mp hhead
    obtain ⟨cs', rfl, -⟩ := exists_of_chars_eq_cons h hds
    rfl
  · intro hhead
    obtain ⟨cs', rfl⟩ := List.head?_eq_some_iff.mp hhead
    rw [chars_cons_of_isMark h]
    rfl

end

mutual

def block (w : Spelling) : Block → Block
  | ⟨ss, s⟩ => ⟨w.statements ss, s⟩

def block? (w : Spelling) : Option Block → Option Block
  | none => none
  | some b => some (w.block b)

/-- Keywords are kept in small letters whatever the spelling. -/
def statement (w : Spelling) : Statement → Statement
  | .pipeline p => .pipeline (w.pipeline p)
  | .assignment target operator value s =>
    .assignment (w.expression target) (w.text operator) (w.pipeline value) s
  | .function keyword name params body s =>
    .function keyword (w.text name) (w.expression? params) (w.block body) s
  | .compound keyword cs s => .compound keyword (w.clauses cs) s
  | .flow keyword value s => .flow keyword (w.pipeline? value) s
  | .trivia text s => .trivia (w.text text) s

def statements (w : Spelling) : List Statement → List Statement
  | [] => []
  | s :: ss => w.statement s :: w.statements ss

def clause (w : Spelling) : Clause → Clause
  | ⟨keyword, types, condition, body⟩ =>
    ⟨keyword, types.map w.text, w.expression? condition, w.block? body⟩

def clauses (w : Spelling) : List Clause → List Clause
  | [] => []
  | c :: cs => w.clause c :: w.clauses cs

def pipeline (w : Spelling) : Pipeline → Pipeline
  | ⟨ss, s⟩ => ⟨w.stages ss, s⟩

def pipeline? (w : Spelling) : Option Pipeline → Option Pipeline
  | none => none
  | some p => some (w.pipeline p)

def stage (w : Spelling) : Stage → Stage
  | .command i => .command (w.invocation i)
  | .expression e => .expression (w.expression e)

def stages (w : Spelling) : List Stage → List Stage
  | [] => []
  | s :: ss => w.stage s :: w.stages ss

def invocation (w : Spelling) : Invocation → Invocation
  | ⟨operator, head, es, rs, s⟩ =>
    ⟨operator, w.expression head, w.elements es, w.redirections rs, s⟩

def element (w : Spelling) : Element → Element
  | .parameter name argument s => .parameter (w.text name) (w.expression? argument) s
  | .argument value => .argument (w.expression value)

def elements (w : Spelling) : List Element → List Element
  | [] => []
  | e :: es => w.element e :: w.elements es

def redirection (w : Spelling) : Redirection → Redirection
  | ⟨operator, target, s⟩ => ⟨w.text operator, w.expression? target, s⟩

def redirections (w : Spelling) : List Redirection → List Redirection
  | [] => []
  | r :: rs => w.redirection r :: w.redirections rs

def entry (w : Spelling) : Entry → Entry
  | ⟨key, value⟩ => ⟨w.expression key, w.pipeline value⟩

def entries (w : Spelling) : List Entry → List Entry
  | [] => []
  | e :: es => w.entry e :: w.entries es

def expression (w : Spelling) : Expression → Expression
  | .bareword text s => .bareword (w.text text) s
  | .stringLiteral value expandable s => .stringLiteral (w.text value) expandable s
  | .variable name splatted s => .variable (w.text name) splatted s
  | .typeLiteral text s => .typeLiteral (w.text text) s
  | .scriptBlock b => .scriptBlock (w.block b)
  | .subexpression opener ss s => .subexpression (w.text opener) (w.statements ss) s
  | .hashtable es s => .hashtable (w.entries es) s
  | .array es s => .array (w.expressions es) s
  | .sequence es s => .sequence (w.expressions es) s

def expression? (w : Spelling) : Option Expression → Option Expression
  | none => none
  | some e => some (w.expression e)

def expressions (w : Spelling) : List Expression → List Expression
  | [] => []
  | e :: es => w.expression e :: w.expressions es

end

def problem (w : Spelling) : Problem → Problem
  | .unexpectedToken text => .unexpectedToken (w.text text)
  | p => p

variable (w : Spelling)

@[simp] theorem statements_eq (ss : List Statement) : w.statements ss = ss.map w.statement :=
  View.eq_map (by rw [statements]) (fun _ _ => by rw [statements]) ss

@[simp] theorem stages_eq (ss : List Stage) : w.stages ss = ss.map w.stage :=
  View.eq_map (by rw [stages]) (fun _ _ => by rw [stages]) ss

@[simp] theorem clauses_eq (cs : List Clause) : w.clauses cs = cs.map w.clause :=
  View.eq_map (by rw [clauses]) (fun _ _ => by rw [clauses]) cs

@[simp] theorem elements_eq (es : List Element) : w.elements es = es.map w.element :=
  View.eq_map (by rw [elements]) (fun _ _ => by rw [elements]) es

@[simp] theorem redirections_eq (rs : List Redirection) :
    w.redirections rs = rs.map w.redirection :=
  View.eq_map (by rw [redirections]) (fun _ _ => by rw [redirections]) rs

@[simp] theorem entries_eq (es : List Entry) : w.entries es = es.map w.entry :=
  View.eq_map (by rw [entries]) (fun _ _ => by rw [entries]) es

@[simp] theorem expressions_eq (es : List Expression) : w.expressions es = es.map w.expression :=
  View.eq_map (by rw [expressions]) (fun _ _ => by rw [expressions]) es

@[simp] theorem span_expression (e : Expression) : (w.expression e).span = e.span := by
  cases e with
  | scriptBlock b => cases b; rfl
  | _ => rfl

@[simp] theorem span_stage (s : Stage) : (w.stage s).span = s.span := by
  cases s with
  | command i => cases i; rfl
  | expression e => exact w.span_expression e

theorem hides_statement (v : View) (s : Statement) : v.hides (w.statement s) = v.hides s := by
  cases s <;> rfl

end Spelling

/-- A view of a tree in a spelling of its own, if it has one. -/
structure Telling extends View where
  spelling? : Option Spelling

namespace Telling

/-- Something in the spelling of the telling. -/
def spelled {α : Type} (v : Telling) (f : Spelling → α → α) (a : α) : α :=
  match v.spelling? with
  | none => a
  | some w => f w a

def text (v : Telling) (s : String) : String := v.spelled Spelling.text s

def fault (v : Telling) (f : Fault) : Fault := ⟨v.spelled Spelling.problem f.problem, v.span f.span⟩

def block (v : Telling) (b : Block) : Block := v.toView.block (v.spelled Spelling.block b)

def statement (v : Telling) (s : Statement) : Statement :=
  v.toView.statement (v.spelled Spelling.statement s)

def statements (v : Telling) (ss : List Statement) : List Statement :=
  v.toView.statements (v.spelled Spelling.statements ss)

def clause (v : Telling) (c : Clause) : Clause := v.toView.clause (v.spelled Spelling.clause c)

def pipeline (v : Telling) (p : Pipeline) : Pipeline :=
  v.toView.pipeline (v.spelled Spelling.pipeline p)

def stage (v : Telling) (s : Stage) : Stage := v.toView.stage (v.spelled Spelling.stage s)

def invocation (v : Telling) (i : Invocation) : Invocation :=
  v.toView.invocation (v.spelled Spelling.invocation i)

def element (v : Telling) (e : Element) : Element := v.toView.element (v.spelled Spelling.element e)

def redirection (v : Telling) (r : Redirection) : Redirection :=
  v.toView.redirection (v.spelled Spelling.redirection r)

def entry (v : Telling) (e : Entry) : Entry := v.toView.entry (v.spelled Spelling.entry e)

def expression (v : Telling) (e : Expression) : Expression :=
  v.toView.expression (v.spelled Spelling.expression e)

variable (v : Telling)

theorem fault_unexpectedToken (text : String) (s : Span) :
    v.fault ⟨.unexpectedToken text, s⟩ = ⟨.unexpectedToken (v.text text), v.span s⟩ := by
  obtain ⟨u, _ | w⟩ := v <;> rfl

/-- A problem that no text of the script is part of is told as it is. -/
theorem fault_of_problem {p : Problem} (h : ∀ w : Spelling, w.problem p = p) (s : Span) :
    v.fault ⟨p, s⟩ = ⟨p, v.span s⟩ := by
  obtain ⟨u, _ | w⟩ := v
  · rfl
  · exact congrArg (Fault.mk · (u.span s)) (h w)

@[simp] theorem expression_bareword (text : String) (s : Span) :
    v.expression (.bareword text s) = .bareword (v.text text) (v.span s) := by
  obtain ⟨u, _ | w⟩ := v <;> rfl

@[simp] theorem expression_stringLiteral (value : String) (expandable : Bool) (s : Span) :
    v.expression (.stringLiteral value expandable s) =
      .stringLiteral (v.text value) expandable (v.span s) := by
  obtain ⟨u, _ | w⟩ := v <;> rfl

@[simp] theorem expression_variable (name : String) (splatted : Bool) (s : Span) :
    v.expression (.variable name splatted s) = .variable (v.text name) splatted (v.span s) := by
  obtain ⟨u, _ | w⟩ := v <;> rfl

@[simp] theorem expression_typeLiteral (text : String) (s : Span) :
    v.expression (.typeLiteral text s) = .typeLiteral (v.text text) (v.span s) := by
  obtain ⟨u, _ | w⟩ := v <;> rfl

@[simp] theorem expression_scriptBlock (b : Block) :
    v.expression (.scriptBlock b) = .scriptBlock (v.block b) := by
  obtain ⟨u, _ | w⟩ := v <;> rfl

@[simp] theorem expression_subexpression (opener : String) (ss : List Statement) (s : Span) :
    v.expression (.subexpression opener ss s) =
      .subexpression (v.text opener) (v.statements ss) (v.span s) := by
  obtain ⟨u, _ | w⟩ := v <;> rfl

@[simp] theorem expression_hashtable (es : List Entry) (s : Span) :
    v.expression (.hashtable es s) = .hashtable (es.map v.entry) (v.span s) := by
  obtain ⟨u, _ | w⟩ := v
  · exact congrArg (Expression.hashtable · (u.span s)) (u.entries_eq es)
  · refine congrArg (Expression.hashtable · (u.span s)) ?_
    rw [View.entries_eq, Spelling.entries_eq, List.map_map]
    rfl

@[simp] theorem expression_array (es : List Expression) (s : Span) :
    v.expression (.array es s) = .array (es.map v.expression) (v.span s) := by
  obtain ⟨u, _ | w⟩ := v
  · exact congrArg (Expression.array · (u.span s)) (u.expressions_eq es)
  · refine congrArg (Expression.array · (u.span s)) ?_
    rw [View.expressions_eq, Spelling.expressions_eq, List.map_map]
    rfl

@[simp] theorem expression_sequence (es : List Expression) (s : Span) :
    v.expression (.sequence es s) = .sequence (es.map v.expression) (v.span s) := by
  obtain ⟨u, _ | w⟩ := v
  · exact congrArg (Expression.sequence · (u.span s)) (u.expressions_eq es)
  · refine congrArg (Expression.sequence · (u.span s)) ?_
    rw [View.expressions_eq, Spelling.expressions_eq, List.map_map]
    rfl

@[simp] theorem entry_mk (key : Expression) (value : Pipeline) :
    v.entry ⟨key, value⟩ = ⟨v.expression key, v.pipeline value⟩ := by
  obtain ⟨u, _ | w⟩ := v <;> rfl

@[simp] theorem redirection_mk (operator : String) (target : Option Expression) (s : Span) :
    v.redirection ⟨operator, target, s⟩ =
      ⟨v.text operator, target.map v.expression, v.span s⟩ := by
  obtain ⟨u, _ | w⟩ := v <;> cases target <;> rfl

@[simp] theorem element_parameter (name : String) (argument : Option Expression) (s : Span) :
    v.element (.parameter name argument s) =
      .parameter (v.text name) (argument.map v.expression) (v.span s) := by
  obtain ⟨u, _ | w⟩ := v <;> cases argument <;> rfl

@[simp] theorem element_argument (value : Expression) :
    v.element (.argument value) = .argument (v.expression value) := by
  obtain ⟨u, _ | w⟩ := v <;> rfl

@[simp] theorem invocation_mk (operator : Option CallOperator) (head : Expression) (es : List Element)
    (rs : List Redirection) (s : Span) : v.invocation ⟨operator, head, es, rs, s⟩ =
      ⟨operator, v.expression head, es.map v.element, rs.map v.redirection, v.span s⟩ := by
  obtain ⟨u, _ | w⟩ := v
  · simp only [invocation, spelled, View.invocation, View.elements_eq, View.redirections_eq]
    rfl
  · simp only [invocation, spelled, Spelling.invocation, View.invocation, View.elements_eq,
      View.redirections_eq, Spelling.elements_eq, Spelling.redirections_eq, List.map_map]
    rfl

@[simp] theorem stage_command (i : Invocation) :
    v.stage (.command i) = .command (v.invocation i) := by
  obtain ⟨u, _ | w⟩ := v <;> rfl

@[simp] theorem stage_expression (e : Expression) :
    v.stage (.expression e) = .expression (v.expression e) := by
  obtain ⟨u, _ | w⟩ := v <;> rfl

@[simp] theorem pipeline_mk (ss : List Stage) (s : Span) :
    v.pipeline ⟨ss, s⟩ = ⟨ss.map v.stage, v.span s⟩ := by
  obtain ⟨u, _ | w⟩ := v
  · exact congrArg (Pipeline.mk · (u.span s)) (u.stages_eq ss)
  · refine congrArg (Pipeline.mk · (u.span s)) ?_
    rw [View.stages_eq, Spelling.stages_eq, List.map_map]
    rfl

@[simp] theorem clause_mk (keyword : String) (types : List String) (condition : Option Expression)
    (body : Option Block) : v.clause ⟨keyword, types, condition, body⟩ =
      ⟨keyword, types.map v.text, condition.map v.expression, body.map v.block⟩ := by
  obtain ⟨u, _ | w⟩ := v
  · have htypes : types.map (text ⟨u, none⟩) = types := List.map_id types
    rw [htypes]
    cases condition <;> cases body <;> rfl
  · cases condition <;> cases body <;> rfl

@[simp] theorem block_mk (ss : List Statement) (s : Span) :
    v.block ⟨ss, s⟩ = ⟨v.statements ss, v.span s⟩ := by
  obtain ⟨u, _ | w⟩ := v <;> rfl

@[simp] theorem statements_block (b : Block) : (v.block b).statements = v.statements b.statements := by
  obtain ⟨ss, s⟩ := b
  rw [block_mk]

@[simp] theorem statement_pipeline (p : Pipeline) :
    v.statement (.pipeline p) = .pipeline (v.pipeline p) := by
  obtain ⟨u, _ | w⟩ := v <;> rfl

@[simp] theorem statement_assignment (target : Expression) (operator : String) (value : Pipeline)
    (s : Span) : v.statement (.assignment target operator value s) =
      .assignment (v.expression target) (v.text operator) (v.pipeline value) (v.span s) := by
  obtain ⟨u, _ | w⟩ := v <;> rfl

@[simp] theorem statement_function (keyword name : String) (params : Option Expression)
    (body : Block) (s : Span) : v.statement (.function keyword name params body s) =
      .function keyword (v.text name) (params.map v.expression) (v.block body) (v.span s) := by
  obtain ⟨u, _ | w⟩ := v <;> cases params <;> rfl

@[simp] theorem statement_compound (keyword : String) (cs : List Clause) (s : Span) :
    v.statement (.compound keyword cs s) = .compound keyword (cs.map v.clause) (v.span s) := by
  obtain ⟨u, _ | w⟩ := v
  · exact congrArg (Statement.compound keyword · (u.span s)) (u.clauses_eq cs)
  · refine congrArg (Statement.compound keyword · (u.span s)) ?_
    rw [View.clauses_eq, Spelling.clauses_eq, List.map_map]
    rfl

@[simp] theorem statement_flow (keyword : String) (value : Option Pipeline) (s : Span) :
    v.statement (.flow keyword value s) = .flow keyword (value.map v.pipeline) (v.span s) := by
  obtain ⟨u, _ | w⟩ := v <;> cases value <;> rfl

@[simp] theorem statement_trivia (text : String) (s : Span) :
    v.statement (.trivia text s) = .trivia (v.text text) (v.span s) := by
  obtain ⟨u, _ | w⟩ := v <;> rfl

/-- A statement is hidden however it is told. -/
theorem hides_statement (u : View) (s : Statement) : u.hides (v.statement s) = u.hides s := by
  obtain ⟨_, _ | w⟩ := v
  · cases s <;> rfl
  · cases s <;> rfl

theorem statements_eq (ss : List Statement) :
    v.statements ss = (ss.filter (!v.hides ·)).map v.statement := by
  obtain ⟨u, _ | w⟩ := v
  · exact u.statements_eq ss
  · have hhides : (fun s => !u.hides s) ∘ w.statement = fun s => !u.hides s :=
      funext fun s => congrArg not (w.hides_statement u s)
    show u.statements (w.statements ss) = _
    rw [View.statements_eq, Spelling.statements_eq, List.filter_map, List.map_map, hhides]
    rfl

theorem statements_append (ss us : List Statement) :
    v.statements (ss ++ us) = v.statements ss ++ v.statements us := by
  simp only [statements_eq, List.filter_append, List.map_append]

@[simp] theorem statements_nil : v.statements [] = [] := by
  rw [statements_eq]
  rfl

theorem statements_singleton (s : Statement) :
    v.statements [s] = if v.hides s then [] else [v.statement s] := by
  rw [statements_eq]
  cases h : v.hides s <;> simp [h]

@[simp] theorem span_expression (e : Expression) : (v.expression e).span = v.span e.span := by
  obtain ⟨u, _ | w⟩ := v
  · exact u.span_expression e
  · exact (u.span_expression _).trans (congrArg u.span (w.span_expression e))

@[simp] theorem span_stage (s : Stage) : (v.stage s).span = v.span s.span := by
  obtain ⟨u, _ | w⟩ := v
  · exact u.span_stage s
  · exact (u.span_stage _).trans (congrArg u.span (w.span_stage s))

end Telling

end ScriptLint
