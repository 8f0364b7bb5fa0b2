import ScriptLint.Proofs.Rule.Binding
import ScriptLint.Proofs.Syntax.Walk
import ScriptLint.Rule.CmdletUse

/-!
Views of a tree. A view tells a tree again with every offset moved and, if it is said so, without the
comments that stand as statements. Two scripts are compared by what a view shows of their trees. What a
check reads of a call is the same in every view: the name of the command, and how its elements are bound.
-/

namespace ScriptLint

structure View where
  /-- Where an offset is moved. -/
  offset : Nat → Nat
  /-- Comments are shown. -/
  comments : Bool

namespace View

/-- Everything stands `k` bytes further on. -/
def shift (k : Nat) : View := ⟨(· + k), true⟩

/-- All of a tree, where it is. -/
def whole : View := ⟨id, true⟩

/-- A tree without its comments. -/
def bare : View := ⟨id, false⟩

def span (v : View) (s : Span) : Span := ⟨v.offset s.start, v.offset s.stop⟩

def hides (v : View) : Statement → Bool
  | .trivia _ _ => !v.comments
  | _ => false

mutual

def block (v : View) : Block → Block
  | ⟨ss, s⟩ => ⟨v.statements ss, v.span s⟩

def block? (v : View) : Option Block → Option Block
  | none => none
  | some b => some (v.block b)

def statement (v : View) : Statement → Statement
  | .pipeline p => .pipeline (v.pipeline p)
  | .assignment target operator value s =>
    .assignment (v.expression target) operator (v.pipeline value) (v.span s)
  | .function keyword name params body s =>
    .function keyword name (v.expression? params) (v.block body) (v.span s)
  | .compound keyword cs s => .compound keyword (v.clauses cs) (v.span s)
  | .flow keyword value s => .flow keyword (v.pipeline? value) (v.span s)
  | .trivia text s => .trivia text (v.span s)

def statements (v : View) : List Statement → List Statement
  | [] => []
  | s :: ss => if v.hides s then v.statements ss else v.statement s :: v.statements ss

def clause (v : View) : Clause → Clause
  | ⟨keyword, types, condition, body⟩ => ⟨keyword, types, v.expression? condition, v.block? body⟩

def clauses (v : View) : List Clause → List Clause
  | [] => []
  | c :: cs => v.clause c :: v.clauses cs

def pipeline (v : View) : Pipeline → Pipeline
  | ⟨ss, s⟩ => ⟨v.stages ss, v.span s⟩

def pipeline? (v : View) : Option Pipeline → Option Pipeline
  | none => none
  | some p => some (v.pipeline p)

def stage (v : View) : Stage → Stage
  | .command i => .command (v.invocation i)
  | .expression e => .expression (v.expression e)

def stages (v : View) : List Stage → List Stage
  | [] => []
  | s :: ss => v.stage s :: v.stages ss

def invocation (v : View) : Invocation → Invocation
  | ⟨operator, head, es, rs, s⟩ =>
    ⟨operator, v.expression head, v.elements es, v.redirections rs, v.span s⟩

def element (v : View) : Element → Element
  | .parameter name argument s => .parameter name (v.expression? argument) (v.span s)
  | .argument value => .argument (v.expression value)

def elements (v : View) : List Element → List Element
  | [] => []
  | e :: es => v.element e :: v.elements es

def redirection (v : View) : Redirection → Redirection
  | ⟨operator, target, s⟩ => ⟨operator, v.expression? target, v.span s⟩

def redirections (v : View) : List Redirection → List Redirection
  | [] => []
  | r :: rs => v.redirection r :: v.redirections rs

def entry (v : View) : Entry → Entry
  | ⟨key, value⟩ => ⟨v.expression key, v.pipeline value⟩

def entries (v : View) : List Entry → List Entry
  | [] => []
  | e :: es => v.entry e :: v.entries es

def expression (v : View) : Expression → Expression
  | .bareword text s => .bareword text (v.span s)
  | .stringLiteral value expandable s => .stringLiteral value expandable (v.span s)
  | .variable name splatted s => .variable name splatted (v.span s)
  | .typeLiteral text s => .typeLiteral text (v.span s)
  | .scriptBlock b => .scriptBlock (v.block b)
  | .subexpression opener ss s => .subexpression opener (v.statements ss) (v.span s)
  | .hashtable es s => .hashtable (v.entries es) (v.span s)
  | .array es s => .array (v.expressions es) (v.span s)
  | .sequence es s => .sequence (v.expressions es) (v.span s)

def expression? (v : View) : Option Expression → Option Expression
  | none => none
  | some e => some (v.expression e)

def expressions (v : View) : List Expression → List Expression
  | [] => []
  | e :: es => v.expression e :: v.expressions es

end

mutual

/-- A view of everything where it is changes nothing. -/
theorem whole_block : ∀ b : Block, whole.block b = b
  | ⟨ss, s⟩ => by rw [block, whole_statements ss]; rfl

theorem whole_statement : ∀ s : Statement, whole.statement s = s
  | .pipeline p => by rw [statement, whole_pipeline p]
  | .assignment target operator value s => by
    rw [statement, whole_expression target, whole_pipeline value]; rfl
  | .function keyword name none body s => by rw [statement, whole_block body]; rfl
  | .function keyword name (some e) body s => by
    rw [statement, whole_block body, expression?, whole_expression e]; rfl
  | .compound keyword cs s => by rw [statement, whole_clauses cs]; rfl
  | .flow keyword none s => rfl
  | .flow keyword (some p) s => by rw [statement, pipeline?, whole_pipeline p]; rfl
  | .trivia text s => rfl

theorem whole_statements : ∀ ss : List Statement, whole.statements ss = ss
  | [] => rfl
  | s :: ss => by
    have hshown : ¬whole.hides s := by cases s <;> simp [hides, whole]
    rw [statements, if_neg hshown, whole_statement s, whole_statements ss]

theorem whole_clause : ∀ c : Clause, whole.clause c = c
  | ⟨keyword, types, none, none⟩ => rfl
  | ⟨keyword, types, none, some b⟩ => by rw [clause, block?, whole_block b]; rfl
  | ⟨keyword, types, some e, none⟩ => by rw [clause, expression?, whole_expression e]; rfl
  | ⟨keyword, types, some e, some b⟩ => by
    rw [clause, expression?, whole_expression e, block?, whole_block b]

theorem whole_clauses : ∀ cs : List Clause, whole.clauses cs = cs
  | [] => rfl
  | c :: cs => by rw [clauses, whole_clause c, whole_clauses cs]

theorem whole_pipeline : ∀ p : Pipeline, whole.pipeline p = p
  | ⟨ss, s⟩ => by rw [pipeline, whole_stages ss]; rfl

theorem whole_stages : ∀ ss : List Stage, whole.stages ss = ss
  | [] => rfl
  | .command i :: ss => by rw [stages, stage, whole_invocation i, whole_stages ss]
  | .expression e :: ss => by rw [stages, stage, whole_expression e, whole_stages ss]

theorem whole_invocation : ∀ i : Invocation, whole.invocation i = i
  | ⟨operator, head, es, rs, s⟩ => by
    rw [invocation, whole_expression head, whole_elements es, whole_redirections rs]; rfl

theorem whole_elements : ∀ es : List Element, whole.elements es = es
  | [] => rfl
  | .parameter name none s :: es => by rw [elements, whole_elements es]; rfl
  | .parameter name (some e) s :: es => by
    rw [elements, element, expression?, whole_expression e, whole_elements es]; rfl
  | .argument e :: es => by rw [elements, element, whole_expression e, whole_elements es]

theorem whole_redirections : ∀ rs : List Redirection, whole.redirections rs = rs
  | [] => rfl
  | ⟨operator, none, s⟩ :: rs => by rw [redirections, whole_redirections rs]; rfl
  | ⟨operator, some e, s⟩ :: rs => by
    rw [redirections, redirection, expression?, whole_expression e, whole_redirections rs]; rfl

theorem whole_entries : ∀ es : List Entry, whole.entries es = es
  | [] => rfl
  | ⟨key, value⟩ :: es => by
    rw [entries, entry, whole_expression key, whole_pipeline value, whole_entries es]

theorem whole_expression : ∀ e : Expression, whole.expression e = e
  | .bareword text s | .stringLiteral value expandable s | .variable name splatted s
  | .typeLiteral text s => rfl
  | .scriptBlock b => by rw [expression, whole_block b]
  | .subexpression opener ss s => by rw [expression, whole_statements ss]; rfl
  | .hashtable es s => by rw [expression, whole_entries es]; rfl
  | .array es s | .sequence es s => by rw [expression, whole_expressions es]; rfl

theorem whole_expressions : ∀ es : List Expression, whole.expressions es = es
  | [] => rfl
  | e :: es => by rw [expressions, whole_expression e, whole_expressions es]

end

variable (v : View)

@[simp] theorem block?_eq (b? : Option Block) : v.block? b? = b?.map v.block := by
  cases b? <;> rfl

@[simp] theorem pipeline?_eq (p? : Option Pipeline) : v.pipeline? p? = p?.map v.pipeline := by
  cases p? <;> rfl

@[simp] theorem expression?_eq (e? : Option Expression) :
    v.expression? e? = e?.map v.expression := by
  cases e? <;> rfl

theorem eq_map {α β : Type} {f : α → β} {all : List α → List β} (hnil : all [] = [])
    (hcons : ∀ a as, all (a :: as) = f a :: all as) (as : List α) : all as = as.map f := by
  induction as with
  | nil => exact hnil
  | cons a as ih => rw [hcons, ih, List.map_cons]

@[simp] theorem stages_eq (ss : List Stage) : v.stages ss = ss.map v.stage :=
  eq_map (by rw [stages]) (fun _ _ => by rw [stages]) ss

@[simp] theorem clauses_eq (cs : List Clause) : v.clauses cs = cs.map v.clause :=
  eq_map (by rw [clauses]) (fun _ _ => by rw [clauses]) cs

@[simp] theorem elements_eq (es : List Element) : v.elements es = es.map v.element :=
  eq_map (by rw [elements]) (fun _ _ => by rw [elements]) es

@[simp] theorem redirections_eq (rs : List Redirection) :
    v.redirections rs = rs.map v.redirection :=
  eq_map (by rw [redirections]) (fun _ _ => by rw [redirections]) rs

@[simp] theorem entries_eq (es : List Entry) : v.entries es = es.map v.entry :=
  eq_map (by rw [entries]) (fun _ _ => by rw [entries]) es

@[simp] theorem expressions_eq (es : List Expression) : v.expressions es = es.map v.expression :=
  eq_map (by rw [expressions]) (fun _ _ => by rw [expressions]) es

theorem statements_eq (ss : List Statement) :
    v.statements ss = (ss.filter (!v.hides ·)).map v.statement := by
  induction ss with
  | nil => rw [statements]; rfl
  | cons s ss ih => cases h : v.hides s <;> simp [statements, h, ih]

@[simp] theorem span_expression (e : Expression) : (v.expression e).span = v.span e.span := by
  cases e with
  | scriptBlock b => cases b; rfl
  | _ => rfl

@[simp] theorem span_stage (s : Stage) : (v.stage s).span = v.span s.span := by
  cases s with
  | command i => cases i; rfl
  | expression e => exact v.span_expression e

@[simp] theorem commandName?_invocation (i : Invocation) :
    (v.invocation i).commandName? = i.commandName? := by
  obtain ⟨operator, head, es, rs, s⟩ := i
  cases head with
  | stringLiteral value expandable s => cases expandable <;> rfl
  | _ => rfl

def node (v : View) : Node → Node
  | .block b => .block (v.block b)
  | .statement s => .statement (v.statement s)
  | .pipeline p => .pipeline (v.pipeline p)
  | .expression e => .expression (v.expression e)
  | .invocation i => .invocation (v.invocation i)

def shows (v : View) : Node → Bool
  | .statement s => !v.hides s
  | _ => true

/-- The views of some nodes, those left out that it does not show. -/
def nodes (v : View) (ns : List Node) : List Node := (ns.filter v.shows).map v.node

theorem nodes_append (ns ms : List Node) : v.nodes (ns ++ ms) = v.nodes ns ++ v.nodes ms := by
  rw [nodes, List.filter_append, List.map_append]
  rfl

theorem nodes_statements (ss : List Statement) :
    v.nodes (ss.map .statement) = (v.statements ss).map .statement := by
  rw [nodes, statements_eq, List.filter_map, List.map_map, List.map_map]
  rfl

theorem nodes_expression? (e? : Option Expression) :
    v.nodes (e?.map .expression).toList = ((e?.map v.expression).map .expression).toList := by
  cases e? <;> rfl

theorem nodes_block? (b? : Option Block) :
    v.nodes (b?.map .block).toList = ((b?.map v.block).map .block).toList := by
  cases b? <;> rfl

/-- The parts of a list, each of them with some nodes below it. -/
theorem nodes_flatMap {α : Type} {view : α → α} {below : α → List Node} (as : List α)
    (h : ∀ a, below (view a) = v.nodes (below a)) :
    (as.map view).flatMap below = v.nodes (as.flatMap below) := by
  induction as with
  | nil => rfl
  | cons a as ih =>
      rw [List.map_cons, List.flatMap_cons, List.flatMap_cons, nodes_append, h, ih]

theorem nodes_map {α : Type} {view : α → α} {node : α → Node} (as : List α)
    (h : ∀ a, [node (view a)] = v.nodes [node a]) :
    (as.map view).map node = v.nodes (as.map node) := by
  rw [List.map_eq_flatMap, @List.map_eq_flatMap _ _ node as]
  exact v.nodes_flatMap as h

/-- A view of a node has the views of its children below it. -/
theorem children_node (n : Node) : (v.node n).children = v.nodes n.children := by
  match n with
  | .block ⟨ss, _⟩ => exact (v.nodes_statements ss).symm
  | .statement (.pipeline _) | .statement (.assignment _ _ _ _) => rfl
  | .statement (.function _ _ params body _) =>
    simp only [node, View.statement, Node.children, expression?_eq, nodes_expression?, nodes_append]
    rfl
  | .statement (.compound _ cs _) =>
    simp only [node, View.statement, Node.children, clauses_eq]
    refine v.nodes_flatMap cs fun c => ?_
    obtain ⟨_, _, condition, body⟩ := c
    simp only [clause, Node.ofClause, expression?_eq, block?_eq, nodes_expression?, nodes_block?,
      nodes_append]
  | .statement (.flow _ value _) => cases value <;> rfl
  | .statement (.trivia _ _) => rfl
  | .pipeline ⟨ss, _⟩ =>
    simp only [node, View.pipeline, Node.children, stages_eq]
    exact v.nodes_map ss fun s => by cases s <;> rfl
  | .expression (.scriptBlock _) => rfl
  | .expression (.subexpression _ ss _) => exact (v.nodes_statements ss).symm
  | .expression (.hashtable es _) =>
    simp only [node, View.expression, Node.children, entries_eq]
    exact v.nodes_flatMap es fun e => by cases e; rfl
  | .expression (.array es _) | .expression (.sequence es _) =>
    simp only [node, View.expression, Node.children, expressions_eq]
    exact v.nodes_map es fun _ => rfl
  | .expression (.bareword _ _) | .expression (.stringLiteral _ _ _)
  | .expression (.variable _ _ _) | .expression (.typeLiteral _ _) => rfl
  | .invocation ⟨_, head, es, rs, _⟩ =>
    simp only [node, View.invocation, Node.children, elements_eq, redirections_eq]
    rw [v.nodes_flatMap es fun e => ?_, v.nodes_flatMap rs fun r => ?_, ← nodes_append]
    · rfl
    · obtain ⟨_, target, _⟩ := r
      simp only [redirection, Node.ofRedirection, expression?_eq, nodes_expression?]
    · cases e with
      | parameter name argument s =>
          simp only [element, Node.ofElement, expression?_eq, nodes_expression?]
      | argument value => rfl

/-- What a view does not show holds no call. -/
theorem calls_of_not_shows {n : Node} (h : v.shows n = false) : n.calls = [] := by
  match n with
  | .statement (.trivia _ _) => rw [Node.calls, Calls.ofStatement]
  | .statement (.pipeline _) | .statement (.assignment _ _ _ _) | .statement (.function _ _ _ _ _)
  | .statement (.compound _ _ _) | .statement (.flow _ _ _) | .block _ | .pipeline _
  | .expression _ | .invocation _ => exact absurd h Bool.noConfusion

/-- The calls in a view of a node are the views of its calls. -/
theorem calls_node (n : Node) : (v.node n).calls = n.calls.map v.invocation :=
  Node.calls_of_children (fun n => by cases n <;> rfl) v.children_node (fun _ => v.calls_of_not_shows) n

theorem calls_statements (ss : List Statement) :
    Calls.ofStatements (v.statements ss) = (Calls.ofStatements ss).map v.invocation := by
  have h := v.calls_node (.block ⟨ss, ⟨0, 0⟩⟩)
  rwa [node, block, Node.calls, Node.calls, Calls.ofBlock, Calls.ofBlock] at h

/-- The calls among some statements that a walk finds. -/
def named (ss : List Statement) : List Invocation :=
  (Calls.ofStatements ss).filter (·.commandName?.isSome)

theorem toList_walker (t : Tree) : (Walker.ofTree t).toList = named t.body.statements := by
  rw [Walker.toList_ofTree, Tree.invocations, Tree.calls, named]
  obtain ⟨ss, s⟩ := t.body
  rw [Calls.ofBlock]

theorem named_append (ss us : List Statement) : named (ss ++ us) = named ss ++ named us := by
  rw [named, ← Node.calls_statements, List.map_append, List.flatMap_append, List.filter_append,
    Node.calls_statements, Node.calls_statements]
  rfl

theorem named_statements (ss : List Statement) :
    named (v.statements ss) = (named ss).map v.invocation := by
  rw [named, calls_statements, List.filter_map, named]
  congr 1
  refine List.filter_congr fun i _ => ?_
  rw [Function.comp_apply, commandName?_invocation]

def binding (v : View) : Binding → Binding
  | .named name s .none => .named name (v.span s) .none
  | .named name s (.inline value) => .named name (v.span s) (.inline (v.expression value))
  | .named name s (.following value) => .named name (v.span s) (.following (v.expression value))
  | .positional value => .positional (v.expression value)

theorem isPositional_binding : ∀ b : Binding, (v.binding b).isPositional = b.isPositional
  | .named _ _ .none | .named _ _ (.inline _) | .named _ _ (.following _) | .positional _ => rfl

theorem name?_binding : ∀ b : Binding, (v.binding b).name? = b.name?
  | .named _ _ .none | .named _ _ (.inline _) | .named _ _ (.following _) | .positional _ => rfl

theorem bind_map_element (command : Option Command) (es : List Element) :
    bind command (es.map v.element) = (bind command es).map v.binding := by
  fun_induction bind command es with
  | case1 => rfl
  | case2 value rest ih => exact congrArg (Binding.positional (v.expression value) :: ·) ih
  | case3 name value s rest ih =>
      exact congrArg (Binding.named name (v.span s) (.inline (v.expression value)) :: ·) ih
  | case4 name s value rest hswitch ih =>
      exact (if_pos hswitch).trans (congrArg (Binding.named name (v.span s) .none :: ·) ih)
  | case5 name s value rest hswitch ih =>
      exact (if_neg hswitch).trans
        (congrArg (Binding.named name (v.span s) (.following (v.expression value)) :: ·) ih)
  | case6 name s rest hnext ih =>
      simp only [List.map_cons, element, expression?]
      rw [bind, ih]
      · rfl
      · intro value rest' h
        obtain ⟨e, es, rfl, he, -⟩ := List.map_eq_cons_iff.mp h
        cases e with
        | parameter => cases he
        | argument value => exact hnext value es rfl

theorem bindings_invocation (i : Invocation) (command : Option Command) :
    (v.invocation i).bindings command = (i.bindings command).map v.binding := by
  obtain ⟨operator, head, es, rs, s⟩ := i
  rw [Invocation.bindings, invocation, elements_eq]
  exact v.bind_map_element command es

def diagnostic (v : View) (d : Diagnostic) : Diagnostic := { d with span := d.span.map v.span }

/-- The verdict on a call does not depend on where the call stands. -/
theorem check_invocation (p : Provider) (i : Invocation) :
    CmdletUse.check p (v.invocation i) = CmdletUse.check p i := by
  have hpositional (command : Option Command) :
      (v.invocation i).bindsByPosition command = i.bindsByPosition command := by
    rw [Invocation.bindsByPosition, bindings_invocation, List.any_map]
    exact congrArg (List.any _) (funext v.isPositional_binding)
  have hnamed (command : Option Command) :
      (v.invocation i).namedParameters command = i.namedParameters command := by
    rw [Invocation.namedParameters, bindings_invocation, List.filterMap_map]
    exact congrArg (List.filterMap · _) (funext v.name?_binding)
  simp only [CmdletUse.check, CmdletUse.checkResolved, commandName?_invocation, hpositional, hnamed]

theorem warning?_invocation (p : Provider) (file : String) (i : Invocation) :
    CmdletUse.warning? p file (v.invocation i) = (CmdletUse.warning? p file i).map v.diagnostic := by
  rw [CmdletUse.warning?, CmdletUse.warning?, check_invocation]
  cases CmdletUse.check p i with
  | conformant reason => rfl
  | nonConformant command resolved => cases i; rfl

/-- The rule reports the calls in a view as it reports the calls themselves. -/
theorem warnings_map_invocation (p : Provider) (file : String) (calls : List Invocation) :
    (calls.map v.invocation).filterMap (CmdletUse.warning? p file) =
      (calls.filterMap (CmdletUse.warning? p file)).map v.diagnostic := by
  rw [List.filterMap_map, List.map_filterMap]
  exact congrArg (List.filterMap · calls) (funext fun i => v.warning?_invocation p file i)

@[simp] theorem span_invocation (i : Invocation) : (v.invocation i).span = v.span i.span := by
  cases i
  rfl

theorem bare_diagnostic (d : Diagnostic) : bare.diagnostic d = d := by
  obtain ⟨_, _, _, _ | _, _, _⟩ := d <;> rfl

section

variable {t t' : Tree} (h : bare.statements t'.body.statements = bare.statements t.body.statements)

include h

/-- Where two trees are the same but for their comments, walks find the same calls but for the comments in
them. -/
theorem map_walker_of_bare_eq {α : Type} {f g : Invocation → α}
    (hf : ∀ i, g (bare.invocation i) = f i) :
    (Walker.ofTree t').toList.map f = (Walker.ofTree t).toList.map f := by
  have htold (t : Tree) : (Walker.ofTree t).toList.map f =
      (named (bare.statements t.body.statements)).map g := by
    rw [toList_walker, named_statements, List.map_map]
    exact List.map_congr_left fun i _ => (hf i).symm
  rw [htold, htold, h]

theorem analyze_of_bare_eq (p : Provider) (file : String) :
    CmdletUse.analyze p t' file = CmdletUse.analyze p t file := by
  have htold (t : Tree) : CmdletUse.analyze p t file =
      (named (bare.statements t.body.statements)).filterMap (CmdletUse.warning? p file) := by
    rw [named_statements, warnings_map_invocation, CmdletUse.analyze, toList_walker]
    exact ((List.map_congr_left fun d _ => bare_diagnostic d).trans (List.map_id _)).symm
  rw [htold, htold, h]

end

end View

end ScriptLint
