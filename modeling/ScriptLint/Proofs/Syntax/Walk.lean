import ScriptLint.Syntax.Walker

/-!
The walk through a tree. A walker with nodes still to visit finds the calls in these nodes, one node after
the other, so that a walk through a whole tree finds what `Tree.invocations` lists. The second half tells
the same by places: the path to a node says which child is taken at each step from the root, and the walk
comes by the calls of named commands in the order of their paths, by each of them once.
-/

namespace ScriptLint

namespace Node

/-- All calls in a node, by the function for its kind. -/
def calls : Node → List Invocation
  | block b => Calls.ofBlock b
  | statement s => Calls.ofStatement s
  | pipeline p => Calls.ofPipeline p
  | expression e => Calls.ofExpression e
  | invocation i => Calls.ofInvocation i

/-- The call that the node is by itself. -/
def call? : Node → Option Invocation
  | invocation i => some i
  | _ => none

theorem named?_eq (n : Node) : n.named? = n.call?.filter (·.commandName?.isSome) := by
  cases n <;> rfl

theorem named?_eq_some {n : Node} {i : Invocation} :
    n.named? = some i ↔ n = .invocation i ∧ i.commandName?.isSome := by
  cases n with
  | invocation j =>
      rw [named?_eq, call?, Option.filter_eq_some_iff, Option.some.injEq, invocation.injEq]
  | block b | statement s | pipeline p | expression e => exact iff_of_false nofun nofun

section

variable {α : Type} {below : α → List Node} {f : α → List Invocation}
  {all : List α → List Invocation}

/-- The calls in the parts of a list are found part by part. -/
theorem calls_flatMap (hf : ∀ a, (below a).flatMap calls = f a) (hnil : all [] = [])
    (hcons : ∀ a as, all (a :: as) = f a ++ all as) (as : List α) :
    (as.flatMap below).flatMap calls = all as := by
  induction as with
  | nil => exact hnil.symm
  | cons a as ih => rw [List.flatMap_cons, List.flatMap_append, hf, ih, hcons]

theorem calls_map {node : α → Node} (hf : ∀ a, (node a).calls = f a) (hnil : all [] = [])
    (hcons : ∀ a as, all (a :: as) = f a ++ all as) (as : List α) :
    (as.map node).flatMap calls = all as := by
  rw [List.map_eq_flatMap]
  exact calls_flatMap (fun a => by rw [List.flatMap_singleton, hf]) hnil hcons as

end

theorem calls_statements (ss : List Statement) :
    (ss.map .statement).flatMap calls = Calls.ofStatements ss :=
  calls_map (f := Calls.ofStatement) (fun _ => rfl) (by rw [Calls.ofStatements])
    (fun _ _ => by rw [Calls.ofStatements]) ss

theorem calls_expressions (es : List Expression) :
    (es.map .expression).flatMap calls = Calls.ofExpressions es :=
  calls_map (f := Calls.ofExpression) (fun _ => rfl) (by rw [Calls.ofExpressions])
    (fun _ _ => by rw [Calls.ofExpressions]) es

theorem calls_expression? (e? : Option Expression) :
    (e?.map Node.expression).toList.flatMap calls = Calls.ofExpression? e? := by
  cases e? with
  | none => rw [Calls.ofExpression?]; rfl
  | some e => rw [Calls.ofExpression?]; exact List.flatMap_singleton _ _

theorem calls_stages (ss : List Stage) : (ss.map ofStage).flatMap calls = Calls.ofStages ss := by
  refine calls_map (f := Calls.ofStage) (fun s => ?_) (by rw [Calls.ofStages])
    (fun _ _ => by rw [Calls.ofStages]) ss
  cases s <;> rw [Calls.ofStage, ofStage, calls]

theorem calls_clauses (cs : List Clause) :
    (cs.flatMap ofClause).flatMap calls = Calls.ofClauses cs := by
  refine calls_flatMap (f := Calls.ofClause) (fun ⟨_, _, condition, body⟩ => ?_)
    (by rw [Calls.ofClauses]) (fun _ _ => by rw [Calls.ofClauses]) cs
  rw [Calls.ofClause, ofClause, List.flatMap_append, calls_expression?]
  cases body with
  | none => rw [Calls.ofBlock?]; rfl
  | some b => rw [Calls.ofBlock?]; exact congrArg _ (List.flatMap_singleton _ _)

theorem calls_entries (es : List Entry) :
    (es.flatMap ofEntry).flatMap calls = Calls.ofEntries es := by
  refine calls_flatMap (f := Calls.ofEntry) (fun ⟨_, _⟩ => ?_) (by rw [Calls.ofEntries])
    (fun _ _ => by rw [Calls.ofEntries]) es
  rw [Calls.ofEntry, ofEntry, List.flatMap_cons, List.flatMap_singleton]
  rfl

theorem calls_elements (es : List Element) :
    (es.flatMap ofElement).flatMap calls = Calls.ofElements es := by
  refine calls_flatMap (f := Calls.ofElement) (fun e => ?_) (by rw [Calls.ofElements])
    (fun _ _ => by rw [Calls.ofElements]) es
  cases e with
  | parameter name argument span => rw [Calls.ofElement, ofElement, calls_expression?]
  | argument value => rw [Calls.ofElement, ofElement, List.flatMap_singleton, calls]

theorem calls_redirections (rs : List Redirection) :
    (rs.flatMap ofRedirection).flatMap calls = Calls.ofRedirections rs := by
  refine calls_flatMap (f := Calls.ofRedirection) (fun ⟨_, _, _⟩ => ?_)
    (by rw [Calls.ofRedirections]) (fun _ _ => by rw [Calls.ofRedirections]) rs
  rw [Calls.ofRedirection, ofRedirection, calls_expression?]

/-- A node holds the call that it is, if it is one, and behind it the calls in its children. -/
theorem calls_eq (n : Node) : n.calls = n.call?.toList ++ n.children.flatMap calls := by
  match n with
  | block ⟨ss, _⟩ => rw [calls, Calls.ofBlock, children, calls_statements]; rfl
  | statement (.pipeline p) =>
    rw [calls, Calls.ofStatement, children, List.flatMap_singleton]; rfl
  | statement (.assignment target _ value _) =>
    rw [calls, Calls.ofStatement, children, List.flatMap_cons, List.flatMap_singleton]; rfl
  | statement (.function _ _ params body _) =>
    rw [calls, Calls.ofStatement, children, List.flatMap_append, calls_expression?,
      List.flatMap_singleton]; rfl
  | statement (.compound _ clauses _) =>
    rw [calls, Calls.ofStatement, children, calls_clauses]; rfl
  | statement (.flow _ value _) =>
    cases value with
    | none => rw [calls, Calls.ofStatement, Calls.ofPipeline?]; rfl
    | some p =>
        rw [calls, Calls.ofStatement, Calls.ofPipeline?]
        exact (List.flatMap_singleton calls (.pipeline p)).symm
  | statement (.trivia _ _) => rw [calls, Calls.ofStatement]; rfl
  | pipeline ⟨ss, _⟩ => rw [calls, Calls.ofPipeline, children, calls_stages]; rfl
  | expression (.scriptBlock b) =>
    rw [calls, Calls.ofExpression, children, List.flatMap_singleton]; rfl
  | expression (.subexpression _ ss _) =>
    rw [calls, Calls.ofExpression, children, calls_statements]; rfl
  | expression (.hashtable es _) => rw [calls, Calls.ofExpression, children, calls_entries]; rfl
  | expression (.array es _) => rw [calls, Calls.ofExpression, children, calls_expressions]; rfl
  | expression (.sequence es _) =>
    rw [calls, Calls.ofExpression, children, calls_expressions]; rfl
  | expression (.bareword _ _) | expression (.stringLiteral _ _ _) | expression (.variable _ _ _)
  | expression (.typeLiteral _ _) => rw [calls, Calls.ofExpression]; rfl
  | invocation ⟨_, _, es, rs, _⟩ =>
    rw [calls, Calls.ofInvocation, children, List.flatMap_cons, List.flatMap_append,
      calls_elements, calls_redirections, List.append_assoc]; rfl

/-- The calls of named commands in a node. -/
def invocations (n : Node) : List Invocation := n.calls.filter (·.commandName?.isSome)

theorem invocations_eq (n : Node) :
    n.invocations = n.named?.toList ++ n.children.flatMap invocations := by
  have hchildren : (n.children.flatMap calls).filter (·.commandName?.isSome) =
      n.children.flatMap invocations := List.filter_flatMap
  rw [invocations, calls_eq, List.filter_append, hchildren, named?_eq]
  cases hcall : n.call? with
  | none => rfl
  | some i => cases hname : i.commandName?.isSome <;> simp [hname, Option.filter]

end Node

namespace Walker

/-- The walk finds these calls, one after the other, and then no more. -/
inductive Finds : Walker → List Invocation → Prop
  | stop {w : Walker} : w.next? = none → Finds w []
  | next {w v : Walker} {i : Invocation} {is : List Invocation} :
      w.next? = some (i, v) → Finds v is → Finds w (i :: is)

/-- All that a walk has still to find. -/
def ahead (w : Walker) : List Invocation := w.pending.flatMap Node.invocations

/-- Visiting a node leaves what it is, if it is a call of a named command, and what is in its children. -/
theorem ahead_cons (p : Node) (rest : List Node) :
    ahead ⟨p :: rest⟩ = p.named?.toList ++ ahead ⟨p.children ++ rest⟩ := by
  unfold ahead
  rw [List.flatMap_cons, Node.invocations_eq, List.flatMap_append, List.append_assoc]

/-- The next call is the first of those ahead, and the walk behind it has the others ahead. -/
theorem ahead_next? (w : Walker) :
    w.ahead = match w.next? with
      | none => []
      | some (i, v) => i :: v.ahead := by
  fun_induction next? w with
  | case1 => rfl
  | case2 p rest i hi => rw [ahead_cons, hi]; rfl
  | case3 p rest hnone ih => rw [ahead_cons, hnone, ← ih]; rfl

theorem finds_ahead (w : Walker) : Finds w w.ahead := by
  have hnext := ahead_next? w
  cases hw : w.next? with
  | none =>
      rw [hw] at hnext
      rw [hnext]
      exact .stop hw
  | some r =>
      obtain ⟨i, v⟩ := r
      rw [hw] at hnext
      have := total_next?_lt hw
      rw [hnext]
      exact .next hw (finds_ahead v)
termination_by Node.total w.pending

/-- What a walk finds is told by what it finds next. -/
theorem Finds.toList_eq {w : Walker} {is : List Invocation} (h : Finds w is) : w.toList = is := by
  induction h with
  | stop hw =>
      unfold toList
      split
      case h_1 => rfl
      case h_2 h => cases hw.symm.trans h
  | next hw _ ih =>
      unfold toList
      split
      case h_1 h => cases hw.symm.trans h
      case h_2 h =>
        obtain ⟨rfl, rfl⟩ := Prod.mk.inj (Option.some.inj (hw.symm.trans h))
        rw [ih]

theorem ahead_ofTree (t : Tree) : (ofTree t).ahead = t.invocations :=
  List.flatMap_singleton Node.invocations (.block t.body)

theorem toList_ofTree (t : Tree) : (ofTree t).toList = t.invocations := by
  rw [← ahead_ofTree]
  exact (finds_ahead (ofTree t)).toList_eq

end Walker

namespace Node

/-- The node that a path leads to: each number says which child is taken next. -/
def at? : List Nat → Node → Option Node
  | [], n => some n
  | k :: path, n => n.children[k]?.bind (at? path)

/-- The calls of named commands in a node with the paths to them, in the order of the paths. -/
structure Placed (n : Node) (found : List (List Nat × Invocation)) : Prop where
  sorted : found.Pairwise fun a b => a.1 < b.1
  mem_iff : ∀ path i, (path, i) ∈ found ↔
    at? path n = some (.invocation i) ∧ i.commandName?.isSome

/-- The same of nodes side by side, the first of them at the place `first`. -/
structure PlacedFrom (first : Nat) (ns : List Node) (found : List (List Nat × Invocation)) :
    Prop where
  sorted : found.Pairwise fun a b => a.1 < b.1
  mem_iff : ∀ path i, (path, i) ∈ found ↔ ∃ k rest n, path = (first + k) :: rest ∧
    ns[k]? = some n ∧ at? rest n = some (.invocation i) ∧ i.commandName?.isSome

theorem PlacedFrom.nil {first : Nat} : PlacedFrom first [] [] :=
  ⟨.nil, fun _ _ => iff_of_false List.not_mem_nil (by rintro ⟨_, _, _, -, h, -⟩; cases h)⟩

theorem PlacedFrom.cons {first : Nat} {n : Node} {ns : List Node}
    {found behind : List (List Nat × Invocation)} (h : n.Placed found)
    (h' : PlacedFrom (first + 1) ns behind) :
    PlacedFrom first (n :: ns) (found.map (fun a => (first :: a.1, a.2)) ++ behind) := by
  constructor
  · refine List.pairwise_append.mpr ⟨List.pairwise_map.mpr (h.sorted.imp ?_), h'.sorted, ?_⟩
    · exact fun hlt => List.cons_lt_cons_iff.mpr (.inr ⟨rfl, hlt⟩)
    · intro a ha b hb
      obtain ⟨a, -, rfl⟩ := List.mem_map.mp ha
      obtain ⟨k, rest, -, hpath, -⟩ := (h'.mem_iff b.1 b.2).mp hb
      rw [hpath]
      exact List.cons_lt_cons_iff.mpr (.inl (by omega))
  · intro path i
    rw [List.mem_append, List.mem_map, h'.mem_iff]
    constructor
    · rintro (⟨⟨rest, j⟩, hmem, heq⟩ | ⟨k, rest, m, rfl, hm, hrest⟩)
      · obtain ⟨rfl, rfl⟩ := Prod.mk.inj heq
        exact ⟨0, rest, n, rfl, rfl, (h.mem_iff rest j).mp hmem⟩
      · exact ⟨k + 1, rest, m, by rw [Nat.add_right_comm, Nat.add_assoc], hm, hrest⟩
    · rintro ⟨k, rest, m, rfl, hm, hrest⟩
      cases k with
      | zero =>
          obtain rfl := Option.some.inj hm
          exact .inl ⟨(rest, i), (h.mem_iff rest i).mpr hrest, rfl⟩
      | succ k => exact .inr ⟨k, rest, m, by rw [Nat.add_right_comm, Nat.add_assoc], hm, hrest⟩

/-- What is in the children comes behind what the node is itself. -/
theorem PlacedFrom.placed {n : Node} {found : List (List Nat × Invocation)}
    (h : PlacedFrom 0 n.children found) :
    n.Placed (n.named?.toList.map (fun i => ([], i)) ++ found) := by
  constructor
  · refine List.pairwise_append.mpr ⟨?_, h.sorted, ?_⟩
    · cases n.named? <;> simp
    · intro a ha b hb
      obtain ⟨i, -, rfl⟩ := List.mem_map.mp ha
      obtain ⟨k, rest, -, hpath, -⟩ := (h.mem_iff b.1 b.2).mp hb
      rw [hpath]
      exact List.nil_lt_cons _ _
  · intro path i
    rw [List.mem_append, List.mem_map, h.mem_iff]
    constructor
    · rintro (⟨j, hj, heq⟩ | ⟨k, rest, m, rfl, hm, hrest⟩)
      · obtain ⟨rfl, rfl⟩ := Prod.mk.inj heq
        obtain ⟨rfl, hname⟩ := named?_eq_some.mp (Option.mem_toList.mp hj)
        exact ⟨rfl, hname⟩
      · rw [Nat.zero_add, at?, hm]
        exact hrest
    · rintro ⟨hat, hname⟩
      cases path with
      | nil =>
          have hnamed := named?_eq_some.mpr ⟨Option.some.inj hat, hname⟩
          exact .inl ⟨i, Option.mem_toList.mpr hnamed, rfl⟩
      | cons k rest =>
          obtain ⟨m, hm, hrest⟩ := Option.bind_eq_some_iff.mp hat
          exact .inr ⟨k, rest, m, by rw [Nat.zero_add], hm, hrest, hname⟩

theorem exists_placedFrom {ns : List Node}
    (h : ∀ n ∈ ns, ∃ found, n.Placed found ∧ found.map Prod.snd = n.invocations) (first : Nat) :
    ∃ found, PlacedFrom first ns found ∧ found.map Prod.snd = ns.flatMap invocations := by
  induction ns generalizing first with
  | nil => exact ⟨[], .nil, rfl⟩
  | cons n ns ih =>
      obtain ⟨found, hfound, hcalls⟩ := h n List.mem_cons_self
      obtain ⟨behind, hbehind, hcalls'⟩ := ih (fun m hm => h m (.tail _ hm)) (first + 1)
      refine ⟨_, .cons hfound hbehind, ?_⟩
      rw [List.map_append, List.map_map, hcalls', List.flatMap_cons, ← hcalls]
      rfl

theorem size_lt_of_mem_children {n m : Node} (h : m ∈ n.children) : sizeOf m < sizeOf n := by
  have hle : sizeOf m ≤ total n.children := by
    generalize n.children = ns at h
    induction ns with
    | nil => exact absurd h List.not_mem_nil
    | cons k ns ih =>
        rw [total_cons]
        rcases List.mem_cons.mp h with rfl | h
        · exact Nat.le_add_right _ _
        · exact Nat.le_add_left_of_le (ih h)
  exact Nat.lt_of_le_of_lt hle n.total_children_lt

/-- Where nodes are told in another way, and some without calls are left out, their calls are told in that
way. -/
theorem calls_of_children {f : Node → Node} {shows : Node → Bool} {g : Invocation → Invocation}
    (hcall : ∀ n, (f n).call? = n.call?.map g)
    (hchildren : ∀ n, (f n).children = (n.children.filter shows).map f)
    (hhidden : ∀ n, shows n = false → n.calls = []) (n : Node) : (f n).calls = n.calls.map g := by
  have hnodes (ns : List Node) (h : ∀ m ∈ ns, (f m).calls = m.calls.map g) :
      ((ns.filter shows).map f).flatMap calls = (ns.flatMap calls).map g := by
    induction ns with
    | nil => rfl
    | cons m ns ih =>
        have ih := ih fun k hk => h k (.tail _ hk)
        cases hm : shows m with
        | true =>
            rw [List.filter_cons_of_pos hm, List.map_cons, List.flatMap_cons, List.flatMap_cons, ih,
              List.map_append, h m List.mem_cons_self]
        | false =>
            rw [List.filter_cons_of_neg (Bool.not_eq_true _ ▸ hm), List.flatMap_cons, hhidden m hm, ih,
              List.nil_append]
  rw [calls_eq, calls_eq n, hchildren, hcall, List.map_append, hnodes n.children fun m hm =>
    have := size_lt_of_mem_children hm
    calls_of_children hcall hchildren hhidden m]
  cases n.call? <;> rfl
termination_by sizeOf n

/-- The calls of named commands in a node are listed in the order of their paths, each of them once. -/
theorem exists_placed (n : Node) :
    ∃ found, n.Placed found ∧ found.map Prod.snd = n.invocations := by
  have hchildren (m : Node) (hm : m ∈ n.children) :
      ∃ found, m.Placed found ∧ found.map Prod.snd = m.invocations :=
    have := size_lt_of_mem_children hm
    exists_placed m
  obtain ⟨found, hfound, hcalls⟩ := exists_placedFrom hchildren 0
  refine ⟨_, hfound.placed, ?_⟩
  rw [List.map_append, List.map_map, hcalls, invocations_eq]
  exact congrArg (· ++ _) (List.map_id _)
termination_by sizeOf n

end Node

/-- A walk through any tree comes to its end, and what it finds on the way are the calls of named
commands in the order in which `Tree.invocations` lists them. In terms of places: it comes by every call
of a named command, at any depth, once, in the order of the paths that lead to them, where a node stands
before what is in it and a child before the children behind it. -/
theorem Walker.finds_every_call_once (t : Tree) :
    Finds (ofTree t) t.invocations ∧ (ofTree t).toList = t.invocations ∧
      ∃ found : List (List Nat × Invocation), found.map Prod.snd = (ofTree t).toList ∧
        (found.Pairwise fun a b => a.1 < b.1) ∧
        ∀ path i, (path, i) ∈ found ↔
          Node.at? path (.block t.body) = some (.invocation i) ∧ i.commandName?.isSome := by
  have hfinds := finds_ahead (ofTree t)
  rw [ahead_ofTree] at hfinds
  obtain ⟨found, hfound, hcalls⟩ := Node.exists_placed (.block t.body)
  exact ⟨hfinds, toList_ofTree t, found, hcalls.trans (toList_ofTree t).symm, hfound.sorted,
    hfound.mem_iff⟩

end ScriptLint
