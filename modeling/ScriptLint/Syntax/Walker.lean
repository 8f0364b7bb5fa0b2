import ScriptLint.Syntax.Invocations
import ScriptLint.Syntax.Node

/-!
Walker: finds the calls of named commands in a tree one at a time, in the order in which
`Tree.invocations` lists them. It holds the nodes still to visit, the next one first; visiting a node
puts its children in its place.
-/

namespace ScriptLint

/-- A walk through a tree, by the nodes still to visit. -/
structure Walker where
  pending : List Node

namespace Walker

def ofTree (t : Tree) : Walker := ⟨[.block t.body]⟩

/-- The next call of a named command, and the walk behind it. -/
def next? (w : Walker) : Option (Invocation × Walker) :=
  match w with
  | ⟨[]⟩ => none
  | ⟨p :: rest⟩ =>
    match p.named? with
    | some i => some (i, ⟨p.children ++ rest⟩)
    | none => next? ⟨p.children ++ rest⟩
termination_by Node.total w.pending
decreasing_by
  have := p.total_children_lt
  simp only [Node.total_append, Node.total_cons]
  omega

theorem total_next?_lt {w v : Walker} {i : Invocation} (h : w.next? = some (i, v)) :
    Node.total v.pending < Node.total w.pending := by
  fun_induction next? w with
  | case1 => simp at h
  | case2 p rest j _ =>
    have := p.total_children_lt
    cases h
    simp only [Node.total_append, Node.total_cons]
    omega
  | case3 p rest _ ih =>
    have := p.total_children_lt
    have := ih h
    simp only [Node.total_append, Node.total_cons] at *
    omega

/-- All the calls that the walk still finds. -/
def toList (w : Walker) : List Invocation :=
  match _ : w.next? with
  | none => []
  | some (i, v) => i :: v.toList
termination_by Node.total w.pending
decreasing_by exact total_next?_lt ‹_›

end Walker

end ScriptLint
