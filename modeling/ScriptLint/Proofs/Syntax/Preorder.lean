import Mathlib.Data.List.Basic
import ScriptLint.Proofs.Syntax.Part
import ScriptLint.Proofs.Syntax.Walk

/-!
The nodes of a tree in the order of a walk through it, each node in front of what is in it. Calls and
values are picked out of this list, so that a walk comes by them in its order.
-/

namespace ScriptLint

/-- The string or the variable that a token is by itself. -/
def Token.value? (t : Token) : Option Expression :=
  match t.kind with
  | .string _ => some t.stringLiteral
  | .variable => some t.variableReference
  | _ => none

namespace Node

/-- The string or the variable that the node is. -/
def value? : Node → Option Expression
  | expression (.stringLiteral value expandable span) => some (.stringLiteral value expandable span)
  | expression (.variable name splatted span) => some (.variable name splatted span)
  | _ => none

/-- All of a tree from a node down, the node itself first and what is in its children behind it. -/
def below (n : Node) : List Node :=
  n :: n.children.attach.flatMap fun ⟨m, _⟩ => below m
termination_by sizeOf n
decreasing_by exact size_lt_of_mem_children ‹_›

theorem below_eq (n : Node) : n.below = n :: n.children.flatMap below := by
  rw [below, List.flatMap_subtype (fun _ _ => rfl), List.unattach_attach]

/-- What holds of a node whenever it holds of the children of the node holds of all nodes. -/
theorem induction_on_children {P : Node → Prop} (h : ∀ n, (∀ m ∈ n.children, P m) → P n)
    (n : Node) : P n :=
  h n fun m hm =>
    have := size_lt_of_mem_children hm
    induction_on_children h m
termination_by sizeOf n

theorem mem_below {m n : Node} : m ∈ n.below ↔ Within m n := by
  induction n using induction_on_children with
  | h n ih =>
      rw [below_eq, List.mem_cons, List.mem_flatMap]
      constructor
      · rintro (rfl | ⟨k, hk, hm⟩)
        · exact .refl
        · exact .child hk ((ih k hk).mp hm)
      · intro h
        cases h with
        | refl => exact .inl rfl
        | child hk hm => exact .inr ⟨_, hk, (ih _ hk).mpr hm⟩

section

variable {α : Type} (f : Node → Option α)

theorem filterMap_below (n : Node) :
    n.below.filterMap f = (f n).toList ++ n.children.flatMap fun m => m.below.filterMap f := by
  rw [below_eq, List.filterMap_cons, List.filterMap_flatMap]
  cases f n <;> rfl

/-- A list that each node puts together of what it is and of what is in its children. -/
theorem eq_filterMap_below {all : Node → List α}
    (h : ∀ n, all n = (f n).toList ++ n.children.flatMap all) (n : Node) :
    all n = n.below.filterMap f := by
  induction n using induction_on_children with
  | h n ih => rw [h, filterMap_below, List.flatMap_congr ih]

end

theorem calls_eq_filterMap (n : Node) : n.calls = n.below.filterMap call? :=
  eq_filterMap_below call? calls_eq n

theorem mem_calls {n : Node} {i : Invocation} : i ∈ n.calls ↔ .invocation i ∈ n.below := by
  rw [calls_eq_filterMap, List.mem_filterMap]
  constructor
  · rintro ⟨m, hm, hi⟩
    cases m <;> cases hi
    exact hm
  · exact fun h => ⟨_, h, rfl⟩

theorem invocations_eq_filterMap (n : Node) : n.invocations = n.below.filterMap named? :=
  eq_filterMap_below named? invocations_eq n

/-- The strings and variables in a node. -/
def values (n : Node) : List Expression := n.below.filterMap value?

end Node

namespace Part

/-- The nodes that are there for a part and all that is in them. -/
def below (p : Part) : List Node := p.nodes.flatMap Node.below

theorem below_node (n : Node) : (node n).below = n.below := List.flatMap_singleton _ _

theorem below_eq (n : Node) : (node n).below = n :: (node n).parts.flatMap below := by
  have hparts : (node n).parts.flatMap below = n.children.flatMap Node.below := by
    rw [← flatMap_nodes_parts, List.flatMap_assoc]
    rfl
  rw [hparts, ← Node.below_eq, below_node]

theorem below_element (e : Element) : (element e).below = (element e).parts.flatMap below := by
  simp [below, parts, rows, nodes, List.flatMap_map]

theorem below_redirection (r : Redirection) :
    (redirection r).below = (redirection r).parts.flatMap below := by
  simp [below, parts, rows, nodes, List.flatMap_map]

/-- What is picked out of a tree is what is picked out of the parts below its root, behind what the root
is. -/
theorem filterMap_below {α : Type} (f : Node → Option α) (n : Node) :
    n.below.filterMap f =
      (f n).toList ++ (node n).parts.flatMap fun p => p.below.filterMap f := by
  rw [← below_node, below_eq, List.filterMap_cons, List.filterMap_flatMap]
  cases f n <;> rfl

theorem below_eq_singleton {n : Node} (h : n.children = []) : (node n).below = [n] := by
  rw [below_eq, parts_eq_nil h, List.flatMap_nil]

/-- A node of a part is the part itself, or it is in a part below. -/
theorem mem_below {p : Part} {n : Node} : n ∈ p.below ↔ p = node n ∨ ∃ q ∈ p.parts, n ∈ q.below := by
  rw [← List.mem_flatMap]
  match p with
  | .node m => rw [below_eq, List.mem_cons, node.injEq, eq_comm]
  | .element e => simp [below_element]
  | .redirection r => simp [below_redirection]

end Part

end ScriptLint
