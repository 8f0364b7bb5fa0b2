import ScriptLint.Proofs.Parser.Reading
import ScriptLint.Proofs.Syntax.Preorder

/-!
The order of calls. A walk comes by the nodes of a tree, and the tree keeps what it has read in the order
of the script, with one exception: the redirections of a call stand behind all of its elements. So calls
are found in the order of the script unless the target of a redirection holds one that stands in front of
one in an element. The same is true of strings and variables: each starts with a token of its own, which
is why no two of them start at one place.
-/

namespace ScriptLint

open Cursor

/-- The node is a call, a string or a variable. -/
def Node.isMark (n : Node) : Bool := n.call?.isSome || n.value?.isSome

/-- Nothing is marked among the groups. -/
theorem Node.OpenedBy.not_isMark {n : Node} {o : Token} (h : n.OpenedBy o) : n.isMark = false := by
  match n with
  | .block _ | .expression (.subexpression _ _ _) | .expression (.hashtable _ _) => rfl

theorem Node.value?_eq_none_of_not_isMark {n : Node} (h : n.isMark = false) : n.value? = none := by
  simp [isMark] at h
  exact h.2

namespace Part

/-- Of what is marked in two parts all in the first starts in front of all in the second. -/
def Before (p q : Part) : Prop :=
  ∀ m ∈ p.below, ∀ n ∈ q.below, m.isMark → n.isMark → m.span.start < n.span.start

/-- What is marked in one row stands in its order, and what is marked itself starts first, like the head
of a call. -/
structure Ordered (p : Part) : Prop where
  rows_before : ∀ row ∈ p.rows, row.Pairwise Before
  first : ∀ n, p = node n → n.isMark → ∀ q ∈ p.parts, ∀ m ∈ q.below, m.isMark →
    n.span.start < m.span.start
  head_before : ∀ i, p = invocation i → ∀ r ∈ i.redirections,
    Before (expression i.head) (redirection r)

theorem Ordered.of_not_isMark {n : Node} (hn : n.isMark = false)
    (hrows : ∀ row ∈ (node n).rows, row.Pairwise Before) : (node n).Ordered where
  rows_before := hrows
  first := by
    intro m hm hmark
    cases hm
    simp [hn] at hmark
  head_before := by
    intro i hi
    cases hi
    cases hn

theorem Ordered.of_children_eq_nil {n : Node} (h : n.children = []) : (node n).Ordered where
  rows_before := rows_pairwise_of_children_eq_nil h
  first := by simp [parts_eq_nil h]
  head_before := by
    intro i hi
    cases hi
    cases h

/-- A part that is made of others is no string and no variable. -/
theorem value?_of_isJoint {p : Part} {n : Node} (hp : p.isJoint) (h : p = node n) :
    n.value? = none := by
  subst h
  match n with
  | .block _ | .statement _ | .pipeline _ | .invocation _ => rfl
  | .expression (.stringLiteral _ _ _) | .expression (.variable _ _ _) => cases hp
  | .expression (.bareword _ _) | .expression (.typeLiteral _ _) | .expression (.scriptBlock _)
  | .expression (.subexpression _ _ _) | .expression (.hashtable _ _) | .expression (.array _ _)
  | .expression (.sequence _ _) => rfl

/-- Of such parts only a call is marked. -/
theorem exists_invocation_of_isMark {p : Part} {n : Node} (hp : p.isJoint) (h : p = node n)
    (hn : n.isMark) : ∃ i, p = invocation i := by
  have hvalue := value?_of_isJoint hp h
  subst h
  match n with
  | .invocation i => exact ⟨i, rfl⟩
  | .block _ | .statement _ | .pipeline _ | .expression _ =>
    simp [Node.isMark, Node.call?, hvalue] at hn

end Part

namespace Reads

variable {k : Level} {b d : Cursor} {ps : List Part}

/-- What is marked in a group is what is marked between its opener and the place where it is left. -/
theorem marks_inside {c e : Cursor} {o : Token} {ts : List Token} {n : Node} {left : Nat}
    {qs : List Part} {lost : List Expression} (hc : c.Sound) (hrest : c.rest = o :: ts) (hn : n.OpenedBy o)
    (hstart : n.span.start = o.start) (h : Reads k (c.inside o ts) qs e)
    (hholds : n.Gathers left (c.inside o ts) qs lost)
    (hmarks : ∀ q ∈ qs, ∀ m ∈ q.below, m.isMark → q.span.start ≤ m.span.start ∧
      m.span.start < e.offset) :
    ∀ m ∈ (Part.node n).below, m.isMark → n.span.start ≤ m.span.start ∧ m.span.start < e.offset := by
  intro m hm hmark
  rcases Part.mem_below.mp hm with hself | ⟨q, hq, hm⟩
  · cases hself
    simp [hn.not_isMark] at hmark
  · have hmem := hholds.subset hq
    have hplace := h.between (hc.inside hrest) q hmem
    have hm := hmarks q hmem m hm hmark
    have ho := hc.bounds hrest
    rw [offset_inside] at hplace
    omega

/-- What is marked in a part starts where the part does or behind, and with a token that has been
passed. -/
theorem marks (h : Reads k b ps d) (hb : b.Sound) :
    ∀ p ∈ ps, ∀ n ∈ p.below, n.isMark → p.span.start ≤ n.span.start ∧ n.span.start < d.offset := by
  induction h with
  | nil | passing => simp
  | append h h' ih ih' =>
      have hc := h.sound hb
      have hle := (h'.reaches hc).offset_le
      intro p hp n hn hmark
      rcases List.mem_append.mp hp with hp | hp
      · have := ih hb p hp n hn hmark
        omega
      · exact ih' hc p hp n hn hmark
  | operand hrest ht =>
      obtain ⟨hstart, hlt, hstop⟩ := hb.bounds hrest
      rw [List.forall_mem_singleton, Part.below_eq_singleton (Token.operand?_eq_some ht).2.2]
      simp only [List.forall_mem_singleton, Part.span, Node.span, Token.span_operand? ht, Token.span]
      omega
  | unclosed hrest =>
      obtain ⟨hstart, hlt, hstop⟩ := hb.bounds hrest
      rw [List.forall_mem_singleton, Part.below_eq_singleton rfl]
      exact List.forall_mem_singleton.mpr fun _ => ⟨Nat.le_refl _, hstop ▸ hlt⟩
  | comment hrest =>
      rw [List.forall_mem_singleton, Part.below_eq_singleton rfl]
      exact List.forall_mem_singleton.mpr fun hmark => by cases hmark
  | @joint _ _ _ p _ h hp ih =>
      have hstart := hp.start_eq
      refine List.forall_mem_singleton.mpr fun n hn hmark => ?_
      rcases Part.mem_below.mp hn with rfl | ⟨q, hq, hn⟩
      -- a call, which starts in front of the last token that counts
      · obtain ⟨i, hi⟩ := Part.exists_invocation_of_isMark hp.joint rfl hmark
        cases hi
        exact ⟨Nat.le_refl _, Nat.lt_of_lt_of_le hp.fits.1 (h.sound hb).lastEnd_le⟩
      · have hmem := hp.holds.subset hq
        have hplace := h.between hb q hmem
        have hm := ih hb q hmem n hn hmark
        omega
  | group hrest hn h hholds hcloser ih =>
      have hinside := hb.inside hrest
      have hcl := (h.sound hinside).bounds hcloser
      refine List.forall_mem_singleton.mpr fun m hm hmark => ?_
      have hm := marks_inside hb hrest hn.opened (by rw [hn.span_eq]) h hholds (ih hinside) m hm hmark
      rw [offset_outside]
      exact ⟨hm.1, by omega⟩
  | cutOff hrest hn h hholds _ ih =>
      rw [offset_report, offset_outside]
      exact List.forall_mem_singleton.mpr
        (marks_inside hb hrest hn.opened (by rw [hn.span_eq]) h hholds (ih (hb.inside hrest)))
  | tooDeep _ hn hchildren =>
      rw [List.forall_mem_singleton, Part.below_eq_singleton hchildren]
      simp [hn.not_isMark]
  | bodiless =>
      rw [List.forall_mem_singleton, Part.below_eq_singleton rfl]
      exact List.forall_mem_singleton.mpr fun hmark => by cases hmark

/-- Parts that are read one behind the other are marked in their order. -/
theorem before (h : Reads k b ps d) (hb : b.Sound) : ps.Pairwise Part.Before := by
  induction ps generalizing b with
  | nil => exact .nil
  | cons p ps ih =>
      obtain ⟨a, c, hfront, hpart, hbehind, -⟩ := h.uncons hb
      have ha := hfront.sound hb
      have hc := hpart.sound ha
      refine .cons (fun q hq m hm n hn hmark hmark' => ?_) (ih hbehind hc)
      have hm := hpart.marks ha p List.mem_cons_self m hm hmark
      have hn := hbehind.marks hc q hq n hn hmark'
      have hplace := hbehind.between hc q hq
      omega

end Reads

/-- The head of a call is read first. It starts behind the operator of the call, or it is a bare name. -/
theorem Part.Joins.ordered {p : Part} {k : Level} {b c : Cursor} {qs : List Part}
    (hp : p.Joins b qs c) (h : Reads k b qs c) (hb : b.Sound) : p.Ordered where
  rows_before := hp.holds.rows_pairwise (h.before hb)
  first := by
    intro n hn hmark q hq m hm hmark'
    obtain ⟨i, rfl⟩ := exists_invocation_of_isMark hp.joint hn hmark
    cases hn
    obtain ⟨-, behind, rfl, hhead, hbehind⟩ := hp.fits
    have hmem := hp.holds.subset hq
    have hmarked := (h.marks hb q hmem m hm hmark').1
    rcases List.mem_cons.mp hmem with rfl | hq
    · rcases hhead with hlt | ⟨text, s, hname⟩
      · exact Nat.lt_of_lt_of_le hlt hmarked
      · rw [hname, below_eq_singleton rfl] at hm
        obtain rfl := List.mem_singleton.mp hm
        cases hmark'
    · exact Nat.lt_of_lt_of_le (hbehind q hq) hmarked
  head_before := by
    rintro i rfl r hr
    obtain ⟨-, behind, rfl, -⟩ := hp.fits
    have hmem : redirection r ∈ expression i.head :: behind :=
      hp.holds.subset (by simp [parts, rows, hr])
    simp only [List.mem_cons, reduceCtorEq, false_or] at hmem
    exact (List.pairwise_cons.mp (h.before hb)).1 _ hmem

theorem Reads.ordered {k : Level} {b d : Cursor} {ps : List Part} (h : Reads k b ps d)
    (hb : b.Sound) : ∀ p ∈ ps, p.All Part.Ordered := by
  induction h with
  | nil | passing => simp
  | append h _ ih ih' => exact List.forall_mem_append.mpr ⟨ih hb, ih' (h.sound hb)⟩
  | operand _ ht =>
      have hchildren := (Token.operand?_eq_some ht).2.2
      exact List.forall_mem_singleton.mpr
        (Part.all_of_children_eq_nil (.of_children_eq_nil hchildren) hchildren)
  | unclosed | comment | bodiless =>
      exact List.forall_mem_singleton.mpr
        (Part.all_of_children_eq_nil (.of_children_eq_nil rfl) rfl)
  | tooDeep _ _ hchildren =>
      exact List.forall_mem_singleton.mpr
        (Part.all_of_children_eq_nil (.of_children_eq_nil hchildren) hchildren)
  | joint h hp ih =>
      refine List.forall_mem_singleton.mpr (Part.all_iff.mpr ⟨hp.ordered h hb, fun q hq => ?_⟩)
      exact ih hb q (hp.holds.subset hq)
  | group hrest hn h hholds _ ih =>
      have hinside := hb.inside hrest
      refine List.forall_mem_singleton.mpr (Part.all_iff.mpr ⟨?_, fun q hq => ?_⟩)
      · exact .of_not_isMark hn.opened.not_isMark (hholds.rows_pairwise (h.before hinside))
      · exact ih hinside q (hholds.subset hq)
  | cutOff hrest hn h hholds _ ih =>
      have hinside := hb.inside hrest
      refine List.forall_mem_singleton.mpr (Part.all_iff.mpr ⟨?_, fun q hq => ?_⟩)
      · exact .of_not_isMark hn.opened.not_isMark (hholds.rows_pairwise (h.before hinside))
      · exact ih hinside q (hholds.subset hq)

section

variable {α : Type} {f : Node → Option α} {start : α → Nat}

/-- What is picked in the elements of a call starts in front of what is picked in its redirections. -/
def Invocation.InOrder (f : Node → Option α) (start : α → Nat) (i : Invocation) : Prop :=
  ∀ e ∈ i.elements, ∀ r ∈ i.redirections, ∀ x ∈ (Part.element e).below.filterMap f,
    ∀ y ∈ (Part.redirection r).below.filterMap f, start x < start y

variable (hf : ∀ n x, f n = some x → n.isMark ∧ start x = n.span.start)

include hf in
theorem Part.Before.filterMap {p q : Part} (h : p.Before q) :
    ∀ x ∈ p.below.filterMap f, ∀ y ∈ q.below.filterMap f, start x < start y := by
  intro x hx y hy
  obtain ⟨m, hm, hfm⟩ := List.mem_filterMap.mp hx
  obtain ⟨n, hn, hfn⟩ := List.mem_filterMap.mp hy
  obtain ⟨hmark, hstart⟩ := hf m x hfm
  obtain ⟨hmark', hstart'⟩ := hf n y hfn
  rw [hstart, hstart']
  exact h m hm n hn hmark hmark'

/-- What is picked in a part is in order if it is in the node that is there for the part. -/
theorem Part.pairwise_below_iff {R : α → α → Prop} {p : Part} :
    (p.below.filterMap f).Pairwise R ↔ ∀ n ∈ p.nodes, (n.below.filterMap f).Pairwise R := by
  rw [below, List.filterMap_flatMap, List.pairwise_flatMap]
  refine and_iff_left ?_
  have hlength := p.length_nodes_le_one
  cases hnodes : p.nodes with
  | nil => exact .nil
  | cons n ns =>
      obtain rfl : ns = [] := by simpa [hnodes] using hlength
      exact List.pairwise_singleton _ _

include hf in
theorem Part.Ordered.row_pairwise {p : Part} (h : p.Ordered) {row : List Part} (hrow : row ∈ p.rows) :
    row.Pairwise fun p q => ∀ x ∈ p.below.filterMap f, ∀ y ∈ q.below.filterMap f,
      start x < start y :=
  (h.rows_before row hrow).imp fun hpq => hpq.filterMap hf

include hf in
/-- The parts right below a node are in order, but for the redirections and the elements of a call. -/
theorem Part.Ordered.parts_iff {n : Node} (h : (Part.node n).Ordered) :
    ((Part.node n).parts.Pairwise fun p q => ∀ x ∈ p.below.filterMap f,
        ∀ y ∈ q.below.filterMap f, start x < start y) ↔
      ∀ i, n = .invocation i → i.InOrder f start := by
  cases n with
  | invocation i =>
    have helements := h.row_pairwise hf List.mem_cons_self
    have hredirections := h.row_pairwise hf (List.mem_cons_of_mem _ List.mem_cons_self)
    have hparts : (Part.invocation i).parts = (Part.expression i.head ::
        i.elements.map Part.element) ++ i.redirections.map Part.redirection := by
      simp [Part.parts, Part.rows]
    rw [hparts, List.pairwise_append]
    constructor
    · rintro ⟨-, -, hcross⟩ _ hi e he r hr
      cases hi
      exact hcross _ (.tail _ (List.mem_map_of_mem he)) _ (List.mem_map_of_mem hr)
    · refine fun hcall => ⟨helements, hredirections, fun p hp q hq => ?_⟩
      obtain ⟨r, hr, rfl⟩ := List.mem_map.mp hq
      rcases List.mem_cons.mp hp with rfl | hp
      · exact (h.head_before i rfl r hr).filterMap hf
      · obtain ⟨e, he, rfl⟩ := List.mem_map.mp hp
        exact hcall i rfl e he r hr
  | block _ | statement _ | pipeline _ | expression _ =>
    refine iff_of_true ?_ fun i hi => by cases hi
    rw [Part.parts, Part.rows, List.flatten_cons, List.flatten_nil, List.append_nil]
    · exact h.row_pairwise hf List.mem_cons_self
    · intro i hi
      cases hi

include hf in
theorem Part.Ordered.first_before {n : Node} (h : (Part.node n).Ordered) :
    ∀ x ∈ (f n).toList, ∀ y ∈ (Part.node n).parts.flatMap fun p => p.below.filterMap f,
      start x < start y := by
  intro x hx y hy
  obtain ⟨p, hp, hy⟩ := List.mem_flatMap.mp hy
  obtain ⟨m, hm, hfm⟩ := List.mem_filterMap.mp hy
  obtain ⟨hmark, hx⟩ := hf n x (Option.mem_toList.mp hx)
  obtain ⟨hmark', hy⟩ := hf m y hfm
  rw [hx, hy]
  exact h.first n rfl hmark p hp m hm hmark'

include hf in
/-- What is picked among the marked nodes of a tree is met in the order of the script, but for what is in
the redirections of a call and in elements behind them. -/
theorem Node.pairwise_below_iff {n : Node} (h : Part.All Part.Ordered (.node n)) :
    ((n.below.filterMap f).Pairwise fun x y => start x < start y) ↔
      ∀ i, .invocation i ∈ n.below → i.InOrder f start := by
  induction n using induction_on_children with
  | h n ih =>
      have hn := (Part.all_iff.mp h).1
      have hchildren (m : Node) (hm : m ∈ n.children) :=
        ih m hm fun q hq => h q ((Part.within_of_mem_children hm).trans hq)
      have hbelow (m : Node) : m ∈ n.below ↔ n = m ∨ ∃ k ∈ n.children, m ∈ k.below := by
        rw [below_eq, List.mem_cons, List.mem_flatMap, eq_comm]
      have hmem (m : Node) : m ∈ n.children ↔ ∃ p ∈ (Part.node n).parts, m ∈ p.nodes := by
        rw [← Part.flatMap_nodes_parts, List.mem_flatMap]
      rw [Part.filterMap_below, List.pairwise_append, List.pairwise_flatMap]
      constructor
      · rintro ⟨-, ⟨hparts, hcross⟩, -⟩ i hi
        rcases (hbelow _).mp hi with rfl | ⟨m, hm, hi⟩
        · exact (hn.parts_iff hf).mp hcross i rfl
        · obtain ⟨p, hp, hpm⟩ := (hmem m).mp hm
          exact (hchildren m hm).mp (Part.pairwise_below_iff.mp (hparts p hp) m hpm) i hi
      · refine fun hall => ⟨?_, ⟨fun p hp => ?_, ?_⟩, hn.first_before hf⟩
        · cases f n <;> simp
        · refine Part.pairwise_below_iff.mpr fun m hm => ?_
          have hchild := (hmem m).mpr ⟨p, hp, hm⟩
          exact (hchildren m hchild).mpr fun i hi => hall i ((hbelow _).mpr (.inr ⟨m, hchild, hi⟩))
        · exact (hn.parts_iff hf).mpr fun i hi => hall i ((hbelow _).mpr (.inl hi))

end

/-- The tree of a script is marked in the order of the script, row by row. -/
theorem ordered_parse (source : String) :
    Part.All Part.Ordered (.block (parse source).tree.body) := by
  obtain ⟨body, c, hreads, -, hparse⟩ := exists_reads source
  have hb := sound_ofSource source
  rw [hparse]
  refine Part.all_iff.mpr ⟨.of_not_isMark rfl ?_, ?_⟩
  · rw [Part.rows_block]
    exact List.forall_mem_singleton.mpr (hreads.before hb)
  · rw [Part.parts_block]
    exact hreads.ordered hb

/-- The calls of named commands that are in an element. -/
def Element.invocations (e : Element) : List Invocation :=
  (Node.ofElement e).flatMap Node.invocations

/-- The calls of named commands that are in the target of a redirection. -/
def Redirection.invocations (r : Redirection) : List Invocation :=
  (Node.ofRedirection r).flatMap Node.invocations

/-- A walk through the tree of a script comes by its calls in the order of the script, each starting
behind the one before it, unless a call has one in the target of a redirection that starts in front of one
in an element. There is no other way in which the order of the tree differs from that of the script. -/
theorem invocations_in_order_iff (source : String) :
    ((Walker.ofTree (parse source).tree).toList.Pairwise fun i j => i.span.start < j.span.start) ↔
      ∀ i ∈ (parse source).tree.calls, ∀ e ∈ i.elements, ∀ r ∈ i.redirections,
        ∀ j ∈ e.invocations, ∀ k ∈ r.invocations, j.span.start < k.span.start := by
  have hnamed (n : Node) (i : Invocation) (h : n.named? = some i) :
      n.isMark ∧ i.span.start = n.span.start := by
    obtain ⟨rfl, -⟩ := Node.named?_eq_some.mp h
    exact ⟨rfl, rfl⟩
  have hpart (p : Part) : p.below.filterMap Node.named? = p.nodes.flatMap Node.invocations := by
    rw [Part.below, List.filterMap_flatMap]
    exact List.flatMap_congr fun n _ => (Node.invocations_eq_filterMap n).symm
  rw [Walker.toList_ofTree]
  have hiff := Node.pairwise_below_iff hnamed (ordered_parse source)
  rw [← Node.invocations_eq_filterMap] at hiff
  simp only [Invocation.InOrder, hpart, ← Node.mem_calls] at hiff
  exact hiff

/-- In `a > (b) (c)` the walk comes by the call of `c`, which is in an element, and then by that of `b`,
which is in the target of the redirection in front of it. -/
theorem redirection_found_late :
    ¬((Walker.ofTree (parse "a > (b) (c)").tree).toList.Pairwise
      fun i j => i.span.start < j.span.start) := by
  rw [Walker.toList_ofTree]
  decide +kernel

end ScriptLint
