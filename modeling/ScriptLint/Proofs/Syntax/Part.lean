import Mathlib.Logic.Relation
import ScriptLint.Proofs.Syntax.Brackets

/-!
Parts of a tree: its nodes, and what a call is written with behind its head. An element and a redirection
are no nodes, but they have spans of their own, and what is said about the spans of a tree is said about
them too. A part keeps the parts right below it in rows; a call has two of them, for the tree keeps its
redirections apart from its elements.
-/

namespace ScriptLint

/-- Something in a tree that has a span. -/
inductive Part
  | node (n : Node)
  | element (e : Element)
  | redirection (r : Redirection)

namespace Part

@[match_pattern] abbrev block (b : Block) : Part := node (.block b)

@[match_pattern] abbrev statement (s : Statement) : Part := node (.statement s)

@[match_pattern] abbrev pipeline (p : Pipeline) : Part := node (.pipeline p)

@[match_pattern] abbrev expression (e : Expression) : Part := node (.expression e)

@[match_pattern] abbrev invocation (i : Invocation) : Part := node (.invocation i)

abbrev stage (s : Stage) : Part := node (.ofStage s)

def span : Part → Span
  | node n => n.span
  | element e => e.span
  | redirection r => r.span

/-- The lists of the parts right below a part. -/
def rows : Part → List (List Part)
  | invocation i => [.expression i.head :: i.elements.map element, i.redirections.map redirection]
  | node n => [n.children.map node]
  | element e => [(Node.ofElement e).map node]
  | redirection r => [(Node.ofRedirection r).map node]

def parts (p : Part) : List Part := p.rows.flatten

/-- The nodes that stand for a part among the children of a node. -/
def nodes : Part → List Node
  | node n => [n]
  | element e => Node.ofElement e
  | redirection r => Node.ofRedirection r

theorem rows_block (b : Block) : (block b).rows = [b.statements.map statement] := by
  simp [rows, Node.children]

theorem parts_block (b : Block) : (block b).parts = b.statements.map statement := by
  simp [parts, rows_block]

/-- The part `q` is `p` or stands somewhere in it. -/
def Within (q p : Part) : Prop := Relation.ReflTransGen (fun p q => q ∈ p.parts) p q

/-- All of a tree from a part down, the part itself among it. -/
def All (P : Part → Prop) (p : Part) : Prop := ∀ q, Within q p → P q

theorem all_iff {P : Part → Prop} {p : Part} : p.All P ↔ P p ∧ ∀ q ∈ p.parts, q.All P := by
  constructor
  · intro h
    exact ⟨h p .refl, fun q hq r hr => h r (.head hq hr)⟩
  · rintro ⟨hp, hparts⟩ r hr
    rcases Relation.ReflTransGen.cases_head_iff.mp hr with rfl | ⟨q, hq, hr⟩
    · exact hp
    · exact hparts q hq r hr

theorem mem_parts_of_mem_row {p q : Part} {row : List Part} (hrow : row ∈ p.rows) (hq : q ∈ row) :
    q ∈ p.parts :=
  List.mem_flatten.mpr ⟨row, hrow, hq⟩

theorem flatMap_nodes_map {α : Type} {part : α → Part} {below : α → List Node}
    (h : ∀ a, (part a).nodes = below a) (as : List α) :
    (as.map part).flatMap nodes = as.flatMap below := by
  simp [List.flatMap_map, h]

/-- Parts that are nodes stand for themselves. -/
theorem flatMap_nodes_map_node {α : Type} (below : α → Node) (as : List α) :
    (as.map fun a => node (below a)).flatMap nodes = as.map below := by
  rw [List.flatMap_map, List.map_eq_flatMap]
  rfl

@[simp] theorem flatMap_nodes_map_id (ns : List Node) : (ns.map node).flatMap nodes = ns :=
  (flatMap_nodes_map_node id ns).trans (List.map_id ns)

/-- The parts right below a node are there for its children. -/
theorem flatMap_nodes_parts (n : Node) : (node n).parts.flatMap nodes = n.children := by
  match n with
  | .invocation i =>
    simp only [parts, rows, List.flatten_cons, List.flatten_nil, List.append_nil, List.cons_append,
      List.flatMap_cons, List.flatMap_append, Node.children]
    rw [flatMap_nodes_map fun _ => rfl, flatMap_nodes_map fun _ => rfl]
    rfl
  | .block _ | .statement _ | .pipeline _ | .expression _ => simp [parts, rows]

/-- A part has no more than one node that is there for it. -/
theorem length_nodes_le_one (p : Part) : p.nodes.length ≤ 1 := by
  match p with
  | node n => exact Nat.le_refl 1
  | element (.parameter _ argument _) => cases argument <;> simp [nodes, Node.ofElement]
  | element (.argument value) => exact Nat.le_refl 1
  | redirection ⟨_, target, _⟩ => cases target <;> simp [nodes, Node.ofRedirection]

theorem within_of_mem_nodes {p : Part} {n : Node} (h : n ∈ p.nodes) : Within (node n) p := by
  match p with
  | node m =>
    obtain rfl := List.mem_singleton.mp h
    exact .refl
  | element e => exact .single (by simpa [parts, rows, nodes] using h)
  | redirection r => exact .single (by simpa [parts, rows, nodes] using h)

theorem within_of_mem_children {m n : Node} (h : m ∈ n.children) : Within (node m) (node n) := by
  rw [← flatMap_nodes_parts] at h
  obtain ⟨p, hp, hm⟩ := List.mem_flatMap.mp h
  exact .head hp (within_of_mem_nodes hm)

/-- What is a node of a tree among nodes is one among parts. -/
theorem within_of_within {m n : Node} (h : Node.Within m n) : Within (node m) (node n) := by
  induction h with
  | refl => exact .refl
  | child hk _ ih => exact (within_of_mem_children hk).trans ih

theorem parts_eq_nil {n : Node} (h : n.children = []) : (node n).parts = [] := by
  match n with
  | .invocation i => cases h
  | .block _ | .statement _ | .pipeline _ | .expression _ => simp [parts, rows, h]

theorem rows_pairwise_of_children_eq_nil {R : Part → Part → Prop} {n : Node} (h : n.children = []) :
    ∀ row ∈ (node n).rows, row.Pairwise R := by
  intro row hrow
  cases row with
  | nil => exact .nil
  | cons q row => simpa [parts_eq_nil h] using mem_parts_of_mem_row hrow List.mem_cons_self

/-- A node without children is all of the tree below it. -/
theorem all_of_children_eq_nil {P : Part → Prop} {n : Node} (hn : P (node n))
    (h : n.children = []) : (node n).All P :=
  all_iff.mpr ⟨hn, by simp [parts_eq_nil h]⟩

end Part

end ScriptLint
