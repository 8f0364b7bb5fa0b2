import ScriptLint.Syntax.Tree

/-!
Nodes: the parts of a tree, of one type, with the parts right below each. A stage, an element, a clause, an
entry or a redirection is no node of its own; what it holds counts among the children of the node around
it.
-/

namespace ScriptLint

/-- A part of a tree. -/
inductive Node
  | block (b : Block)
  | statement (s : Statement)
  | pipeline (p : Pipeline)
  | expression (e : Expression)
  | invocation (i : Invocation)

namespace Node

def ofStage : Stage → Node
  | .command i => .invocation i
  | .expression e => .expression e

def ofClause (c : Clause) : List Node :=
  (c.condition.map .expression).toList ++ (c.body.map .block).toList

def ofElement : Element → List Node
  | .parameter _ argument _ => (argument.map .expression).toList
  | .argument value => [.expression value]

def ofRedirection (r : Redirection) : List Node :=
  (r.target.map .expression).toList

def ofEntry (e : Entry) : List Node := [.expression e.key, .pipeline e.value]

/-- The children of a node, the first one in the script first. -/
def children : Node → List Node
  | block b => b.statements.map .statement
  | statement (.pipeline p) => [.pipeline p]
  | statement (.assignment target _ value _) => [.expression target, .pipeline value]
  | statement (.function _ _ params body _) => (params.map .expression).toList ++ [.block body]
  | statement (.compound _ clauses _) => clauses.flatMap ofClause
  | statement (.flow _ value _) => (value.map .pipeline).toList
  | statement (.trivia _ _) => []
  | pipeline p => p.stages.map ofStage
  | expression (.scriptBlock b) => [.block b]
  | expression (.subexpression _ statements _) => statements.map .statement
  | expression (.hashtable entries _) => entries.flatMap ofEntry
  | expression (.array items _) => items.map .expression
  | expression (.sequence parts _) => parts.map .expression
  | expression (.bareword _ _) | expression (.stringLiteral _ _ _) | expression (.variable _ _ _)
  | expression (.typeLiteral _ _) => []
  | invocation i =>
    .expression i.head :: (i.elements.flatMap ofElement ++ i.redirections.flatMap ofRedirection)

/-- The call that the node is, if it is one of a named command. -/
def named? : Node → Option Invocation
  | invocation i => if i.commandName?.isSome then some i else none
  | _ => none

/-- The size of all the nodes in a list. -/
noncomputable def total (ps : List Node) : Nat :=
  ps.foldr (fun p n => sizeOf p + n) 0

@[simp] theorem total_nil : total [] = 0 := rfl

@[simp] theorem total_cons (p : Node) (ps : List Node) :
    total (p :: ps) = sizeOf p + total ps := rfl

@[simp] theorem total_append (ps qs : List Node) : total (ps ++ qs) = total ps + total qs := by
  induction ps with
  | nil => simp
  | cons p ps ih =>
    rw [List.cons_append, total_cons, total_cons, ih, Nat.add_assoc]

theorem total_flatMap_lt {α : Type} [SizeOf α] {f : α → List Node} {xs : List α}
    (h : ∀ x, total (f x) ≤ 1 + sizeOf x) : total (xs.flatMap f) < sizeOf xs := by
  induction xs with
  | nil => simp
  | cons x xs ih =>
    have := h x
    simp only [List.flatMap_cons, total_append, List.cons.sizeOf_spec]
    omega

theorem total_map_lt {α : Type} [SizeOf α] {f : α → Node} {xs : List α}
    (h : ∀ x, sizeOf (f x) ≤ 1 + sizeOf x) : total (xs.map f) < sizeOf xs := by
  rw [List.map_eq_flatMap]
  exact total_flatMap_lt fun x => by simpa using h x

theorem total_toList_le {α : Type} [SizeOf α] {f : α → Node} {o : Option α}
    (h : ∀ x, sizeOf (f x) ≤ 1 + sizeOf x) : total (o.map f).toList ≤ sizeOf o := by
  cases o with
  | none => simp
  | some x => simpa using h x

theorem total_expression?_le (e : Option Expression) : total (e.map expression).toList ≤ sizeOf e :=
  total_toList_le fun x => by simp

theorem total_statements_lt (ss : List Statement) : total (ss.map statement) < sizeOf ss :=
  total_map_lt fun x => by simp

theorem total_expressions_lt (es : List Expression) : total (es.map expression) < sizeOf es :=
  total_map_lt fun x => by simp

theorem total_stages_lt (ss : List Stage) : total (ss.map ofStage) < sizeOf ss :=
  total_map_lt fun x => by cases x <;> simp [ofStage]

theorem total_clauses_lt (cs : List Clause) : total (cs.flatMap ofClause) < sizeOf cs :=
  total_flatMap_lt fun ⟨_, _, condition, body⟩ => by
    have hcondition := total_expression?_le condition
    have hbody : total (body.map block).toList ≤ sizeOf body := total_toList_le fun x => by simp
    simp only [ofClause, total_append, Clause.mk.sizeOf_spec]
    omega

theorem total_entries_lt (es : List Entry) : total (es.flatMap ofEntry) < sizeOf es :=
  total_flatMap_lt fun ⟨_, _⟩ => by
    simp only [ofEntry, total_cons, total_nil, Entry.mk.sizeOf_spec, expression.sizeOf_spec,
      pipeline.sizeOf_spec]
    omega

theorem total_elements_lt (es : List Element) : total (es.flatMap ofElement) < sizeOf es :=
  total_flatMap_lt fun
    | .parameter _ argument _ => by
      have hargument := total_expression?_le argument
      simp only [ofElement, Element.parameter.sizeOf_spec]
      omega
    | .argument _ => by simp [ofElement]

theorem total_redirections_lt (rs : List Redirection) : total (rs.flatMap ofRedirection) < sizeOf rs :=
  total_flatMap_lt fun ⟨_, target, _⟩ => by
    have htarget := total_expression?_le target
    simp only [ofRedirection, Redirection.mk.sizeOf_spec]
    omega

/-- Visiting a node leaves less to visit. -/
theorem total_children_lt (p : Node) : total p.children < sizeOf p := by
  match p with
  | block ⟨ss, _⟩ =>
    have hstatements := total_statements_lt ss
    simp only [children, block.sizeOf_spec, Block.mk.sizeOf_spec]
    omega
  | statement (.pipeline _) =>
    simp only [children, total_cons, total_nil, pipeline.sizeOf_spec, statement.sizeOf_spec,
      Statement.pipeline.sizeOf_spec]
    omega
  -- the span makes up for what the two children are larger than the target and the value
  | statement (.assignment _ _ _ ⟨_, _⟩) =>
    simp only [children, total_cons, total_nil, expression.sizeOf_spec, pipeline.sizeOf_spec,
      statement.sizeOf_spec, Statement.assignment.sizeOf_spec, Span.mk.sizeOf_spec]
    omega
  | statement (.function _ _ params _ ⟨_, _⟩) =>
    have hparams := total_expression?_le params
    simp only [children, total_append, total_cons, total_nil, block.sizeOf_spec,
      statement.sizeOf_spec, Statement.function.sizeOf_spec, Span.mk.sizeOf_spec]
    omega
  | statement (.compound _ cs _) =>
    have hclauses := total_clauses_lt cs
    simp only [children, statement.sizeOf_spec, Statement.compound.sizeOf_spec]
    omega
  | statement (.flow _ value _) =>
    have hvalue : total (value.map pipeline).toList ≤ sizeOf value := total_toList_le fun x => by simp
    simp only [children, statement.sizeOf_spec, Statement.flow.sizeOf_spec]
    omega
  | statement (.trivia ..) =>
    simp only [children, total_nil, statement.sizeOf_spec]
    omega
  | pipeline ⟨ss, _⟩ =>
    have hstages := total_stages_lt ss
    simp only [children, pipeline.sizeOf_spec, Pipeline.mk.sizeOf_spec]
    omega
  | expression (.scriptBlock _) =>
    simp only [children, total_cons, total_nil, block.sizeOf_spec, expression.sizeOf_spec,
      Expression.scriptBlock.sizeOf_spec]
    omega
  | expression (.subexpression _ ss _) =>
    have hstatements := total_statements_lt ss
    simp only [children, expression.sizeOf_spec, Expression.subexpression.sizeOf_spec]
    omega
  | expression (.hashtable es _) =>
    have hentries := total_entries_lt es
    simp only [children, expression.sizeOf_spec, Expression.hashtable.sizeOf_spec]
    omega
  | expression (.array es _) =>
    have hitems := total_expressions_lt es
    simp only [children, expression.sizeOf_spec, Expression.array.sizeOf_spec]
    omega
  | expression (.sequence es _) =>
    have hparts := total_expressions_lt es
    simp only [children, expression.sizeOf_spec, Expression.sequence.sizeOf_spec]
    omega
  | expression (.bareword ..) | expression (.stringLiteral ..) | expression (.variable ..)
  | expression (.typeLiteral ..) =>
    simp only [children, total_nil, expression.sizeOf_spec]
    omega
  | invocation ⟨_, _, es, rs, _⟩ =>
    have helements := total_elements_lt es
    have hredirections := total_redirections_lt rs
    simp only [children, total_cons, total_append, expression.sizeOf_spec, invocation.sizeOf_spec,
      Invocation.mk.sizeOf_spec]
    omega

end Node

end ScriptLint
