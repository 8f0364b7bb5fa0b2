import ScriptLint.Proofs.Syntax.Spelling.Token

/-!
Walks through a tree in another spelling. They find the calls that they find in the tree, spelled: their
names, their parameters, and which values are bound to these.
-/

namespace ScriptLint

namespace Spelling

variable (w : Spelling)

def node : Node → Node
  | .block b => .block (w.block b)
  | .statement s => .statement (w.statement s)
  | .pipeline p => .pipeline (w.pipeline p)
  | .expression e => .expression (w.expression e)
  | .invocation i => .invocation (w.invocation i)

theorem children_node (n : Node) : (w.node n).children = n.children.map w.node := by
  have helement (e : Element) : Node.ofElement (w.element e) = (Node.ofElement e).map w.node := by
    rcases e with ⟨_, _ | _, _⟩ | _ <;> rfl
  have hredirection (r : Redirection) :
      Node.ofRedirection (w.redirection r) = (Node.ofRedirection r).map w.node := by
    obtain ⟨_, _ | _, _⟩ := r <;> rfl
  have hclause (c : Clause) : Node.ofClause (w.clause c) = (Node.ofClause c).map w.node := by
    obtain ⟨_, _, _ | _, _ | _⟩ := c <;> rfl
  have hstage (s : Stage) : Node.ofStage (w.stage s) = w.node (Node.ofStage s) := by cases s <;> rfl
  have hentry (e : Entry) : Node.ofEntry (w.entry e) = (Node.ofEntry e).map w.node := by cases e; rfl
  match n with
  | .block ⟨ss, _⟩ | .expression (.subexpression _ ss _) =>
    simp [node, block, expression, Node.children, Function.comp_def]
  | .statement (.pipeline _) | .statement (.assignment _ _ _ _) | .statement (.function _ _ none _ _)
  | .statement (.function _ _ (some _) _ _) | .statement (.flow _ none _) | .statement (.flow _ (some _) _)
  | .statement (.trivia _ _) => rfl
  | .statement (.compound _ cs _) =>
    simp [node, statement, Node.children, List.flatMap_map, List.map_flatMap, hclause]
  | .pipeline ⟨ss, _⟩ => simp [node, pipeline, Node.children, Function.comp_def, hstage]
  | .expression (.scriptBlock _) => rfl
  | .expression (.hashtable es _) =>
    simp [node, expression, Node.children, List.flatMap_map, List.map_flatMap, hentry]
  | .expression (.array es _) | .expression (.sequence es _) =>
    simp [node, expression, Node.children, Function.comp_def]
  | .expression (.bareword _ _) | .expression (.stringLiteral _ _ _)
  | .expression (.variable _ _ _) | .expression (.typeLiteral _ _) => rfl
  | .invocation ⟨_, head, es, rs, _⟩ =>
    simp [node, invocation, Node.children, List.flatMap_map, List.map_flatMap, helement, hredirection]

theorem calls_node (n : Node) : (w.node n).calls = n.calls.map w.invocation :=
  @Node.calls_of_children w.node (fun _ => true) w.invocation (fun n => by cases n <;> rfl)
    (fun n => by rw [List.filter_true, children_node]) nofun n

theorem commandName?_invocation (i : Invocation) :
    (w.invocation i).commandName? = i.commandName?.map w.text := by
  obtain ⟨operator, head, es, rs, s⟩ := i
  cases head with
  | stringLiteral value expandable s => cases expandable <;> rfl
  | _ => rfl

/-- The calls of named commands among some statements. -/
theorem named_statements (ss : List Statement) :
    View.named (w.statements ss) = (View.named ss).map w.invocation := by
  have hcalls : Calls.ofStatements (w.statements ss) = (Calls.ofStatements ss).map w.invocation := by
    have h := w.calls_node (.block ⟨ss, ⟨0, 0⟩⟩)
    rwa [node, block, Node.calls, Node.calls, Calls.ofBlock, Calls.ofBlock] at h
  rw [View.named, hcalls, List.filter_map, View.named]
  congr 1
  refine List.filter_congr fun i _ => ?_
  rw [Function.comp_apply, commandName?_invocation, Option.isSome_map]

end Spelling

namespace Telling

variable (v : Telling)

theorem commandName?_invocation (i : Invocation) :
    (v.invocation i).commandName? = i.commandName?.map v.text := by
  obtain ⟨u, _ | w⟩ := v
  · exact (u.commandName?_invocation i).trans Option.map_id'.symm
  · exact (u.commandName?_invocation _).trans (w.commandName?_invocation i)

theorem named_statements (ss : List Statement) :
    View.named (v.statements ss) = (View.named ss).map v.invocation := by
  obtain ⟨u, _ | w⟩ := v
  · exact u.named_statements ss
  · refine (u.named_statements _).trans ?_
    show (View.named (w.statements ss)).map u.invocation = _
    rw [w.named_statements, List.map_map]
    rfl

end Telling

end ScriptLint
