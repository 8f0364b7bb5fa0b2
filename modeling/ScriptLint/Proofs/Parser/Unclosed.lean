import ScriptLint.Proofs.Parser.Along
import ScriptLint.Proofs.Parser.GroupEnds

/-!
Groups without a closer. Such a group runs to the end of the script, and whatever is around it has been read up
to there. But a part of a tree stops with the last token that counts, unless its own end is that of a group: so
where blanks or comments stand behind this token, the group sticks out of a call, a pipeline or a statement
around it.
-/

namespace ScriptLint

open ScriptLint.Parser Cursor

/-- The node stops with the script if a group in it does: it is a group or a function, or a call with such a
head. -/
def Node.runsOn (size : Nat) : Node → Bool
  | block _ | expression (.scriptBlock _) | expression (.subexpression _ _ _) | expression (.hashtable _ _)
  | statement (.function _ _ _ _ _) => true
  | invocation i => i.head.span.stop = size
  | _ => false

namespace Part

/-- An argument that is a group stops with the script too. -/
def runsOn (size : Nat) : Part → Bool
  | node n => n.runsOn size
  | element (.argument value) => (Node.expression value).runsOn size
  | _ => false

/-- A group that runs to the end of the script is in the part, or the part is one. -/
def Reaching (size : Nat) (p : Part) : Prop :=
  ∃ n, Within (node n) p ∧ n.isGroup ∧ n.span.stop = size

/-- If a group in the part runs to the end of the script, then the part stops there or with the last token that
counts, according to what it is. -/
def RunsTo (size last : Nat) (p : Part) : Prop :=
  p.Reaching size → p.span.stop = if p.runsOn size then size else last

variable {size last : Nat} {p q : Part} {n : Node}

theorem runsOn_of_isGroup (h : n.isGroup) : n.runsOn size := by
  unfold Node.isGroup at h
  split at h
  · rfl
  · rfl
  · rfl
  · cases h

/-- A group runs to the end of the script only where it stops there. -/
theorem runsTo_group (h : n.isGroup) (hstop : n.span.stop = size) : (node n).RunsTo size last := by
  intro _
  rw [runsOn, runsOn_of_isGroup h, if_pos rfl]
  exact hstop

theorem not_reaching (h : p.All fun q => q.span.stop < size) : ¬ p.Reaching size := by
  rintro ⟨n, hn, -, hstop⟩
  exact absurd hstop (h _ hn).ne

theorem runsTo_of_lt (h : p.All fun q => q.span.stop < size) : p.All (RunsTo size last) :=
  fun _ hq hreaching => absurd hreaching (not_reaching fun _ hr => h _ (hq.trans hr))

/-- A node without children runs to the end of the script only as a group. -/
theorem runsTo_of_children_eq_nil (h : n.children = []) : (node n).All (RunsTo size last) := by
  refine all_of_children_eq_nil ?_ h
  rintro ⟨m, hm, hgroup, hstop⟩
  obtain rfl : m = n := node.inj (all_of_children_eq_nil (P := (· = node n)) rfl h _ hm)
  exact runsTo_group hgroup hstop ⟨m, .refl, hgroup, hstop⟩

/-- A part that is no group reaches the end only through what is below it. -/
theorem exists_reaching (h : p.Reaching size) (hp : ∀ n, p = node n → n.isGroup = false) :
    ∃ q ∈ p.parts, q.Reaching size := by
  obtain ⟨n, hn, hgroup, hstop⟩ := h
  rcases Relation.ReflTransGen.cases_head_iff.mp hn with rfl | ⟨q, hq, hn⟩
  · rw [hp n rfl] at hgroup
    cases hgroup
  · exact ⟨q, hq, n, hn, hgroup, hstop⟩

/-- What has been read for a part with one row is this row. -/
theorem Holds.eq_of_rows {row qs : List Part} (h : p.Holds qs []) (hrows : p.rows = [row]) : qs = row := by
  have hsublist := h.sublist row (by simp [hrows])
  have hlength := h.perm.length_eq
  simp only [parts, hrows, List.map_nil, List.append_nil, List.flatten_cons, List.flatten_nil] at hlength
  exact (hsublist.eq_of_length hlength.symm).symm

end Part

namespace Reads

variable {k : Level} {b c d : Cursor} {p q : Part} {ps qs : List Part}

/-- A pipeline that is read at the end of a script stops with the last token that counts. -/
theorem stop_of_pipeline (h : Reads k b ps d) (hb : b.rest = []) {v : Pipeline} (hv : .pipeline v ∈ ps) :
    v.span.stop = d.lastEnd := by
  induction h with
  | nil | passing => cases hv
  | append h h' ih ih' =>
      obtain ⟨hrest, hlast, -⟩ := h.at_end hb
      rcases List.mem_append.mp hv with hv | hv
      · rw [(h'.at_end hrest).2.1]
        exact ih hb hv
      · exact ih' hrest hv
  | joint _ hp =>
      obtain rfl := List.mem_singleton.mp hv
      exact hp.stops
  | bodiless => simp at hv
  | operand hrest | comment hrest | unclosed hrest | group hrest | cutOff hrest | tooDeep hrest =>
      simp [hb] at hrest

/-- Nothing in a part stops behind the stretch of the way on which the part has been read. -/
theorem all_stop_le (h : Reads k b ps d) (hb : b.Sound) :
    ∀ p ∈ ps, p.All fun q => q.span.stop ≤ d.offset := by
  have hbetween := h.between hb
  induction h with
  | nil | passing => simp
  | append h h' ih ih' =>
      have hc := h.sound hb
      have hle := (h'.reaches hc).offset_le
      refine List.forall_mem_append.mpr ⟨fun p hp q hq => ?_, ih' hc (h'.between hc)⟩
      exact Nat.le_trans (ih hb (h.between hb) p hp q hq) hle
  | operand _ ht =>
      have hstop := (hbetween _ (List.mem_singleton_self _)).2.2
      exact List.forall_mem_singleton.mpr (Part.all_of_children_eq_nil hstop (Token.operand?_eq_some ht).2.2)
  | unclosed | comment | bodiless =>
      have hstop := (hbetween _ (List.mem_singleton_self _)).2.2
      exact List.forall_mem_singleton.mpr (Part.all_of_children_eq_nil hstop rfl)
  | tooDeep _ _ hchildren =>
      have hstop := (hbetween _ (List.mem_singleton_self _)).2.2
      exact List.forall_mem_singleton.mpr (Part.all_of_children_eq_nil hstop hchildren)
  | joint h hp ih =>
      have hstop := (hbetween _ (List.mem_singleton_self _)).2.2
      refine List.forall_mem_singleton.mpr (Part.all_iff.mpr ⟨hstop, fun q hq => ?_⟩)
      exact ih hb (h.between hb) q (hp.holds.subset hq)
  | group hrest _ h hholds hcloser ih =>
      have hinside := hb.inside hrest
      have hle := ((h.sound hinside).reaches_pass hcloser).offset_le
      have hstop := (hbetween _ (List.mem_singleton_self _)).2.2
      refine List.forall_mem_singleton.mpr (Part.all_iff.mpr ⟨hstop, fun q hq r hr => ?_⟩)
      exact Nat.le_trans (ih hinside (h.between hinside) q (hholds.subset hq) r hr) hle
  | cutOff hrest _ h hholds _ ih =>
      have hinside := hb.inside hrest
      have hstop := (hbetween _ (List.mem_singleton_self _)).2.2
      refine List.forall_mem_singleton.mpr (Part.all_iff.mpr ⟨hstop, fun q hq => ?_⟩)
      exact ih hinside (h.between hinside) q (hholds.subset hq)

/-- Where a token is ahead, nothing that has been read runs to the end of the script. -/
theorem all_stop_lt (h : Reads k b ps d) (hb : b.Sound) (hd : d.rest ≠ []) :
    ∀ p ∈ ps, p.All fun q => q.span.stop < d.size := by
  obtain ⟨t, ts, hrest⟩ := List.exists_cons_of_ne_nil hd
  obtain ⟨hstart, hlt, -⟩ := (h.sound hb).bounds hrest
  have hsize := (h.sound hb).stop_le hrest
  intro p hp q hq
  have hstop := h.all_stop_le hb p hp q hq
  omega

/-- If the first of two parts reaches the end of the script, the second one is read there. -/
theorem second_at_end (h : Reads k b [p, q] d) (hb : b.Sound) (hp : p.Reaching d.size) :
    ∃ c, c.Sound ∧ c.rest = [] ∧ c.size = d.size ∧ Reads k c [q] d := by
  obtain ⟨a, c, hfront, hpart, hbehind, -⟩ := h.uncons hb
  have ha := hfront.sound hb
  have hc := hpart.sound ha
  have hsize := (hbehind.reaches hc).size_eq
  refine ⟨c, hc, ?_, hsize.symm, hbehind⟩
  by_contra hrest
  exact Part.not_reaching (hpart.all_stop_lt ha hrest p List.mem_cons_self) (hsize ▸ hp)

/-- A part made of others stops as it should with a group in it that runs to the end of the script, if they do. -/
theorem runsTo_of_joins (h : Reads k b qs d) (hb : b.Sound) (hd : d.rest = []) (hp : p.Joins b qs d)
    (hparts : ∀ q ∈ p.parts, q.RunsTo d.size d.lastEnd) : p.RunsTo d.size d.lastEnd := by
  intro hreaching
  have hstops := hp.stops
  have hnode : ∀ n, p = .node n → n.isGroup = false := by
    rintro n rfl
    exact Node.not_isGroup_of_isJoint (Part.isJoint_of_isJoint_node hp.joint)
  obtain ⟨q, hq, hq'⟩ := Part.exists_reaching hreaching hnode
  match p, hp with
  | .statement (.pipeline v), _ =>
    obtain rfl := List.mem_singleton.mp hq
    exact hparts (.pipeline v) hq hq'
  | .expression (.scriptBlock v), _ =>
    obtain rfl := List.mem_singleton.mp hq
    exact hparts (.block v) hq hq'
  | .element (.argument value), _ =>
    obtain rfl := List.mem_singleton.mp hq
    exact hparts (.expression value) hq hq'
  | .statement (.flow _ (some value) _), _ =>
    obtain rfl := List.mem_singleton.mp hq
    exact hstops.trans (hparts _ hq hq')
  | .statement (.function _ _ none body _), _ =>
    obtain rfl := List.mem_singleton.mp hq
    exact hstops.trans (hparts _ hq hq')
  | .statement (.function _ _ (some params) body _), hp =>
    rcases List.mem_pair.mp hq with rfl | rfl
    · -- the body has been read behind the parameters, at the end of the script
      obtain rfl := hp.holds.eq_of_rows rfl
      obtain ⟨c, hc, hrest, hsize, hbody⟩ := h.second_at_end hb hq'
      obtain ⟨hle, hle', hle''⟩ := hbody.between hc _ (List.mem_singleton_self _)
      have hfrom := offset_of_rest_nil hrest
      have hto := offset_of_rest_nil hd
      refine hstops.trans (Nat.le_antisymm ?_ ?_)
      · exact hto ▸ hle''
      · exact hsize ▸ hfrom ▸ Nat.le_trans hle hle'
    · exact hstops.trans (hparts _ hq hq')
  | .statement (.assignment target _ value _), hp =>
    rcases List.mem_pair.mp hq with rfl | rfl
    · obtain rfl := hp.holds.eq_of_rows rfl
      obtain ⟨c, hc, hrest, -, hvalue⟩ := h.second_at_end hb hq'
      exact hstops.trans (hvalue.stop_of_pipeline hrest (List.mem_singleton_self _))
    · exact hstops.trans (hparts _ hq hq')
  | .invocation i, _ =>
    simp only [Part.runsOn, Node.runsOn, decide_eq_true_eq]
    exact hstops
  | .pipeline _, _ | .redirection _, _ | .element (.parameter ..), _ | .statement (.compound ..), _
  | .expression (.array ..), _ | .expression (.sequence ..), _ => exact hstops
  | .statement (.flow _ none _), _ => cases hq
  | .block _, hp | .statement (.trivia ..), hp | .expression (.bareword ..), hp
  | .expression (.stringLiteral ..), hp | .expression (.variable ..), hp | .expression (.typeLiteral ..), hp
  | .expression (.subexpression ..), hp | .expression (.hashtable ..), hp => cases hp.joint

/-- At the end of a script every part that has been read stops as a group in it makes it stop. -/
theorem runs_to (h : Reads k b ps d) (hb : b.Sound) (hd : d.rest = []) :
    ∀ p ∈ ps, p.All (Part.RunsTo d.size d.lastEnd) := by
  induction h with
  | nil | passing => simp
  | @append _ _ c _ _ _ h h' ih ih' =>
      have hc := h.sound hb
      have hsize := (h'.reaches hc).size_eq
      refine List.forall_mem_append.mpr ⟨?_, ih' hc hd⟩
      by_cases hrest : c.rest = []
      · rw [(h'.at_end hrest).2.1, hsize]
        exact ih hb hrest
      · exact fun p hp => Part.runsTo_of_lt (hsize ▸ h.all_stop_lt hb hrest p hp)
  | operand _ ht =>
      exact List.forall_mem_singleton.mpr (Part.runsTo_of_children_eq_nil (Token.operand?_eq_some ht).2.2)
  | unclosed | comment | bodiless =>
      exact List.forall_mem_singleton.mpr (Part.runsTo_of_children_eq_nil rfl)
  | tooDeep _ _ hchildren =>
      exact List.forall_mem_singleton.mpr (Part.runsTo_of_children_eq_nil hchildren)
  | joint h hp ih =>
      refine List.forall_mem_singleton.mpr (Part.all_iff.mpr ⟨?_, fun q hq => ?_⟩)
      · exact h.runsTo_of_joins hb hd hp fun q hq => ih hb hd q (hp.holds.subset hq) q .refl
      · exact ih hb hd q (hp.holds.subset hq)
  | group hrest hn h hholds hcloser ih =>
      have hinside := hb.inside hrest
      have hcl := ((h.sound hinside).bounds hcloser).2.2
      refine List.forall_mem_singleton.mpr (Part.all_iff.mpr ⟨?_, fun q hq => ?_⟩)
      · refine Part.runsTo_group hn.opened.isGroup ?_
        rw [hn.span_eq, ← hcl]
        exact offset_of_rest_nil hd
      · exact Part.runsTo_of_lt (h.all_stop_lt hinside (by simp [hcloser]) q (hholds.subset hq))
  | cutOff hrest hn h hholds hend ih =>
      refine List.forall_mem_singleton.mpr (Part.all_iff.mpr ⟨?_, fun q hq => ?_⟩)
      · exact Part.runsTo_group hn.opened.isGroup (congrArg Span.stop hn.span_eq)
      · exact ih (hb.inside hrest) hend q (hholds.subset hq)

end Reads

namespace Cursor

/-- The last token that counted is one of the script, unless it is the first part of a word of which the second
one is ahead. -/
structure Ending (source : String) (c : Cursor) : Prop extends c.Along source where
  last : (c.lastEnd = 0 ∨ ∃ t ∈ tokenize source, t.stop = c.lastEnd) ∨ ∃ t ts, c.rest = t :: ts ∧ t.kind = .word

instance (source : String) : Lasting (Ending source) where
  pass {c t ts} := fun hc hrest => by
    refine ⟨hc.toAlong.pass hrest, ?_⟩
    by_cases ht : t.kind.isSpacing
    · have hlast : (c.pass t ts).lastEnd = c.lastEnd := if_pos ht
      rw [hlast]
      refine .inl (hc.last.resolve_right ?_)
      rintro ⟨u, us, hrest', hu⟩
      obtain ⟨rfl, -⟩ := List.cons.inj (hrest.symm.trans hrest')
      rw [hu] at ht
      cases ht
    · rw [lastEnd_pass (eq_false_of_ne_true ht)]
      obtain ⟨w, hw, hend, -⟩ := hc.stems t (hrest ▸ List.mem_cons_self)
      exact .inl (.inr ⟨w, hw, hend.stop_eq.symm⟩)
  part {c t ts head tail} := fun hc hrest ht htext hhead htail => by
    refine ⟨hc.toAlong.part hrest ht htext hhead htail, .inr ⟨_, ts, rfl, ?_⟩⟩
    rw [Token.cut_eq htext]
  skip {c p} := fun hp hc => by
    refine ⟨hc.toAlong.skip hp, hc.last.imp_right ?_⟩
    rintro ⟨t, ts, hrest, ht⟩
    refine ⟨t, ts, ?_, ht⟩
    have hkept : ¬ p t.kind := by
      intro hskip
      rcases hp t.kind hskip with h | h | h <;> rw [ht] at h <;> cases h
    rw [Cursor.skip, hrest]
    exact List.dropWhile_cons_of_neg (p := fun t : Token => p t.kind) hkept
  report := fun problem s hc => ⟨Lasting.report problem s hc.toAlong, hc.last⟩
  deep := fun depth hc => ⟨Lasting.deep depth hc.toAlong, hc.last⟩

end Cursor

/-- Behind `last`, where a token stops unless there is none, no token of the script counts. -/
structure LastAt (source : String) (last : Nat) : Prop where
  stops : last = 0 ∨ ∃ t ∈ tokenize source, t.stop = last
  behind : ∀ t ∈ tokenize source, last ≤ t.start → t.kind.counts = false

/-- The groups `ns` are those of the script that its end cuts off, from the innermost to the outermost. -/
structure CutOffGroups (source : String) (ns : List Node) : Prop where
  /-- There are as many reports of a missing closer, each one for an opener of the script, whose group goes from
  there to the end. -/
  reported : List.Forall₂ (Fault.MissesCloserOf source) ((parse source).faults.filter Fault.lacksCloser) ns
  /-- A group that is reported later is around those reported in front of it. -/
  nested : ns.Pairwise fun m n => n.span.start < m.span.start
  /-- They are in the tree, all but those in a key that is lost with the end of a hashtable among them. -/
  kept : ∀ n ∈ ns, n ∈ (Node.block (parse source).tree.body).below ∨
    ∃ m ∈ ns, m.isTable ∧ m ∈ (Node.block (parse source).tree.body).below ∧ m.span.start < n.span.start
  /-- Every other group of the tree below its root has an end of its own. -/
  ends : ∀ s ∈ (parse source).tree.body.statements, ∀ n ∈ (Node.statement s).below, n.isGroup →
    n ∈ ns ∨ n.Ends source (parse source).faults

theorem exists_cutOffGroups (source : String) : ∃ ns, CutOffGroups source ns := by
  obtain ⟨body, d, hreads, -, hparse⟩ := exists_reads source
  obtain ⟨ns, hns⟩ := hreads.cuts_off (.ofSource source) rfl
  have hbelow : (body.map Part.statement).flatMap Part.below =
      body.flatMap fun s => (Node.statement s).below := by
    simp [List.flatMap_map, Part.below_node]
  have htree (n : Node) (hn : n ∈ body.flatMap fun s => (Node.statement s).below) :
      n ∈ (Node.block ⟨body, ⟨0, source.utf8ByteSize⟩⟩).below := by
    rw [Node.below_eq]
    exact List.mem_cons_of_mem _ (by simpa [Node.children, List.flatMap_map] using hn)
  refine ⟨ns, ?_, hns.nested, fun n hn => ?_, fun s hs n hn hgroup => ?_⟩
  · obtain ⟨fs, hfs, hreported⟩ := hns.reported
    obtain rfl : d.cutOffs = fs := hfs
    rw [hparse]
    exact hreported
  · rw [hparse]
    have hkept := hns.kept n hn
    rw [hbelow] at hkept
    refine hkept.imp (htree n) ?_
    rintro ⟨m, hm, htable, hin, hlt⟩
    exact ⟨m, hm, htable, htree m hin, hlt⟩
  · rw [hparse] at hs ⊢
    exact hns.ends n (hbelow ▸ List.mem_flatMap.mpr ⟨s, hs, hn⟩) hgroup

/-- Whatever is in a script, each of its groups ends with its closer or at the end of the script, where its
closer is reported missing, or else a fault says that it has been passed over or is not there at all. What is
around a group that goes to the end stops there too if it is a group or a function, or a call with the group in
its head, and with the last token that counts if it is something else: a call, a pipeline, a statement. -/
theorem unclosed_runs_to_end (source : String) :
    (∃ ns, CutOffGroups source ns) ∧
      ∃ last, LastAt source last ∧
        (Part.block (parse source).tree.body).All (Part.RunsTo source.utf8ByteSize last) := by
  refine ⟨exists_cutOffGroups source, ?_⟩
  obtain ⟨body, d, hrun, hreaches⟩ := Parse.run_ends source
  obtain ⟨hreads, hend⟩ := gives_iff.mp (Parse.statements_reads
    (Parse.groups_read Parse.maxNesting none) (sound_ofSource source) rfl) body d hrun
  have hrest : d.rest = [] := hend.resolve_right nofun
  have hfrom : (ofSource source).Ending source := ⟨along_ofSource source, .inl (.inl rfl)⟩
  obtain ⟨hd, -⟩ := gives_iff.mp (Parse.makes_statements (Parse.groups_makes Parse.maxNesting) none _ hfrom)
    body d hrun
  have hsize := hd.size_eq
  rw [parse_eq hrun]
  refine ⟨d.lastEnd, ⟨hd.last.resolve_right (by simp [hrest]), fun t ht hle => ?_⟩,
    Part.all_iff.mpr ⟨fun _ => hsize, ?_⟩⟩
  · by_contra hcounts
    have hoffset := offset_of_rest_nil hrest
    have hlt := start_lt_stop_of_mem ht
    have hstop := hd.stop_le_size ht
    have hcounted := hd.counted t ht (eq_true_of_ne_false hcounts) (by omega)
    omega
  · rw [← hsize, Part.parts_block]
    exact hreads.runs_to (sound_ofSource source) hrest

/-- In `a (b ` the group goes to the end of the script. The call of `a` stops with `b`, the last token that counts,
so that the group, its only element, does not lie in the call. -/
theorem group_sticks_out_of_call :
    (⟨.missingCloser .paren, .empty 5⟩ : Fault) ∈ (parse "a (b ").faults ∧
      ∃ i ∈ (parse "a (b ").tree.calls, i.span = ⟨0, 4⟩ ∧ i.elements.map Element.span = [⟨2, 5⟩] := by
  decide +kernel

end ScriptLint
