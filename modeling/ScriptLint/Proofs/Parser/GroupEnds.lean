import ScriptLint.Proofs.Parser.Nesting
import ScriptLint.Proofs.Parser.Recovery
import ScriptLint.Proofs.Parser.Skipping
import ScriptLint.Proofs.Syntax.Preorder

/-!
Where the groups of a tree end. A group ends with its closer, or the end of the script cuts it off. A parse
reports a closer missing for each group that is cut off, the innermost one first, and for nothing else. Apart
from these there are groups past the last level of nesting, which are passed over, and bodies that a function
should have and has not; a parse reports both.
-/

namespace ScriptLint

open Cursor

def Fault.lacksCloser (f : Fault) : Bool :=
  match f.problem with
  | .missingCloser _ => true
  | _ => false

/-- The fault says that the closer of the group is missing, which a token of the script opens. -/
def Fault.MissesCloserOf (source : String) (f : Fault) (n : Node) : Prop :=
  ∃ o ∈ tokenize source, ∃ closer, n.Lacks closer o source.utf8ByteSize ∧
    f = ⟨.missingCloser closer, .empty source.utf8ByteSize⟩

/-- A group ends with its closer, or a fault tells what has become of it. -/
inductive Node.Ends (source : String) (faults : List Fault) (n : Node) : Prop
  | closed {o cl : Token} : o ∈ tokenize source → cl ∈ tokenize source → n.Encloses o cl →
      n.Ends source faults
  | passedOver {o : Token} : o ∈ tokenize source → n.OpenedBy o → n.span.start = o.start →
      (n.span.stop = source.utf8ByteSize ∨
        ∃ cl ∈ tokenize source, cl.kind.isCloser ∧ n.span.stop = cl.stop) →
      n.PassedOver faults → n.Ends source faults
  /-- The body of a function that has none. -/
  | absent {text : String} : n.isPlaceholder → ⟨.unexpectedToken text, n.span⟩ ∈ faults →
      n.Ends source faults

theorem Node.Ends.mono {source : String} {faults faults' : List Fault} {n : Node}
    (h : n.Ends source faults) (hfaults : faults ⊆ faults') : n.Ends source faults' := by
  cases h with
  | closed ho hcl hn => exact .closed ho hcl hn
  | passedOver ho hopened hstart hstop hn =>
      obtain ⟨hchildren, limit, hfault⟩ := hn
      exact .passedOver ho hopened hstart hstop ⟨hchildren, limit, hfaults hfault⟩
  | absent hn hfault => exact .absent hn (hfaults hfault)

/-- The last token of a group that is passed over closes something. -/
theorem Parse.groupLength?_eq_some {depth n : Nat} {ts : List Token}
    (h : groupLength? (depth + 1) ts = some n) :
    ∃ inside cl behind, ts = inside ++ cl :: behind ∧ inside.length + 1 = n ∧ cl.kind.isCloser := by
  induction ts generalizing depth n with
  | nil => cases h
  | cons t ts ih =>
      rw [groupLength?] at h
      split at h
      case isTrue hlast =>
        obtain rfl := Option.some.inj h
        refine ⟨[], t, ts, rfl, rfl, ?_⟩
        by_contra hcloser
        unfold depthBehind at hlast
        split at hlast <;> simp_all
      case isFalse hopen =>
        obtain ⟨m, hm, rfl⟩ := Option.map_eq_some_iff.mp h
        rw [← Nat.succ_pred_eq_of_ne_zero hopen] at hm
        obtain ⟨inside, cl, behind, rfl, rfl, hcl⟩ := ih hm
        exact ⟨t :: inside, cl, behind, rfl, rfl, hcl⟩

namespace Cursor

/-- What has been reported of missing closers. -/
def cutOffs (c : Cursor) : List Fault := c.faults.toList.filter Fault.lacksCloser

theorem cutOffs_report {c : Cursor} {problem : Problem} {s : Span}
    (h : Fault.lacksCloser ⟨problem, s⟩ = false) : (c.report problem s).cutOffs = c.cutOffs := by
  rw [cutOffs, report, Array.toList_push, List.filter_append, List.filter_cons_of_neg (by simp [h])]
  exact List.append_nil _

/-- Where a group ends that is passed over. -/
theorem Skips.stop_eq {source : String} {c e : Cursor} {o : Token} {ts : List Token}
    (h : Skips (c.pass o ts) e) (hc : c.Follows (tokenize source)) (hsize : c.size = source.utf8ByteSize)
    (hrest : c.rest = o :: ts) (ho : o.kind.isOpener)
    (he : e.rest = c.rest.drop ((Parse.groupLength? 0 c.rest).getD c.rest.length)) :
    e.offset = source.utf8ByteSize ∨
      ∃ cl ∈ tokenize source, cl.kind.isCloser ∧ e.offset = cl.stop := by
  have hpass := hc.sound.reaches_pass hrest
  have hreaches := h.reaches hpass.sound
  rw [hrest, groupLength?_cons_of_isOpener ho] at he
  cases hlength : Parse.groupLength? (0 + 1) ts with
  | none =>
      rw [hlength, Option.map_none, Option.getD_none, List.drop_length] at he
      refine .inl ?_
      rw [offset_of_rest_nil he, hreaches.size_eq, hpass.size_eq, hsize]
  | some n =>
      obtain ⟨inside, cl, behind, rfl, rfl, hcl⟩ := Parse.groupLength?_eq_some hlength
      rw [hlength, Option.map_some, Option.getD_some] at he
      have hbehind : e.rest = behind := by
        have hsplit : o :: (inside ++ cl :: behind) = (o :: inside ++ [cl]) ++ behind := by simp
        rw [he, hsplit]
        exact List.drop_left' (by simp)
      have hmem : cl ∈ tokenize source := by
        refine ((hc.mem_iff cl (by simp [TokenKind.isBracket, hcl])).mp ?_).1
        simp [hrest]
      have hsplit : c.rest = (o :: inside) ++ cl :: behind := hrest
      refine .inr ⟨cl, hmem, hcl, ?_⟩
      rw [← hc.sound.offset_through hsplit, offset, offset, hbehind, hreaches.size_eq]
      rfl

end Cursor

/-- At the end of a script nothing is passed any more. -/
theorem Reads.at_end {k : Level} {b d : Cursor} {ps : List Part} (h : Reads k b ps d) (hb : b.rest = []) :
    d.rest = [] ∧ d.lastEnd = b.lastEnd ∧ d.size = b.size := by
  induction h with
  | nil | bodiless => exact ⟨hb, rfl, rfl⟩
  | passing hpassing =>
      cases hpassing with
      | aside hrest | leave hrest | cut hrest | stray hrest => simp [hb] at hrest
      | lacking => exact ⟨hb, rfl, rfl⟩
  | append _ _ ih ih' =>
      obtain ⟨hrest, hlast, hsize⟩ := ih hb
      obtain ⟨hrest', hlast', hsize'⟩ := ih' hrest
      exact ⟨hrest', hlast'.trans hlast, hsize'.trans hsize⟩
  | joint _ _ ih => exact ih hb
  | operand hrest | comment hrest | unclosed hrest | group hrest | cutOff hrest | tooDeep hrest =>
      simp [hb] at hrest

namespace Part

variable {p : Part} {qs : List Part} {lost : List Expression} {m n : Node}

/-- What is below the parts that have been read for one that loses none of them is below that one. -/
theorem Holds.below_subset (h : p.Holds qs []) : qs.flatMap below ⊆ [p].flatMap below := by
  intro n hn
  obtain ⟨q, hq, hn⟩ := List.mem_flatMap.mp hn
  have hparts := h.perm.mem_iff.mp hq
  rw [List.map_nil, List.append_nil] at hparts
  rw [List.flatMap_singleton]
  exact mem_below.mpr (.inr ⟨q, hparts, hn⟩)

/-- Below a part stands the part itself or what is below the parts that have been read for it. -/
theorem Holds.of_mem_below (h : p.Holds qs lost) (hn : n ∈ [p].flatMap below) :
    p = node n ∨ n ∈ qs.flatMap below := by
  rw [List.flatMap_singleton] at hn
  refine (mem_below.mp hn).imp_right ?_
  rintro ⟨q, hq, hn⟩
  exact List.mem_flatMap.mpr ⟨q, h.subset hq, hn⟩

theorem mem_below_self (n : Node) : n ∈ [node n].flatMap below := by
  rw [List.flatMap_singleton]
  exact mem_below.mpr (.inl rfl)

/-- Nothing but the part itself is below one without parts. -/
theorem eq_of_mem_below (hn : n.children = []) (hm : m ∈ [node n].flatMap below) : m = n := by
  rw [List.flatMap_singleton, below_eq_singleton hn] at hm
  exact List.mem_singleton.mp hm

end Part

/-- No group but a hashtable loses anything. -/
theorem Node.Gathers.holds_nil {n : Node} {left : Nat} {b : Cursor} {qs : List Part} {lost : List Expression}
    (h : n.Gathers left b qs lost) (hn : n.isTable = false) : (Part.node n).Holds qs [] := by
  have hlost := h.lost_eq
  rw [hn, if_neg Bool.false_ne_true] at hlost
  exact hlost ▸ h.toHolds

/-- On the way from `b` to `d` past the parts `ps` the groups `ns` are cut off, from the innermost to the
outermost, and all the others in these parts end as they should. -/
structure CutsOff (source : String) (b : Cursor) (ps : List Part) (d : Cursor) (ns : List Node) : Prop where
  reported : ∃ fs, d.cutOffs = b.cutOffs ++ fs ∧ List.Forall₂ (Fault.MissesCloserOf source) fs ns
  at_end : ns ≠ [] → d.rest = []
  nested : ns.Pairwise fun m n => n.span.start < m.span.start
  offset_le : ∀ n ∈ ns, b.offset ≤ n.span.start
  kept : ∀ n ∈ ns, n ∈ ps.flatMap Part.below ∨
    ∃ m ∈ ns, m.isTable ∧ m ∈ ps.flatMap Part.below ∧ m.span.start < n.span.start
  ends : ∀ n ∈ ps.flatMap Part.below, n.isGroup → n ∈ ns ∨ n.Ends source d.faults.toList

namespace CutsOff

variable {source : String} {b c d : Cursor} {ps qs : List Part} {ns ns' : List Node} {n : Node}

/-- Nothing is cut off, and no group is read but those that end. -/
theorem none (h : d.cutOffs = b.cutOffs)
    (hends : ∀ n ∈ ps.flatMap Part.below, n.isGroup → n.Ends source d.faults.toList) :
    CutsOff source b ps d [] where
  reported := ⟨[], by rw [h, List.append_nil], .nil⟩
  at_end := fun h => absurd rfl h
  nested := .nil
  offset_le := by simp
  kept := by simp
  ends := fun n hn hgroup => .inr (hends n hn hgroup)

/-- A part that is no group and has nothing below it. -/
theorem leaf (h : d.cutOffs = b.cutOffs) (hn : n.isGroup = false) (hchildren : n.children = []) :
    CutsOff source b [.node n] d [] := by
  refine none h fun m hm hgroup => ?_
  rw [Part.eq_of_mem_below hchildren hm, hn] at hgroup
  cases hgroup

theorem start_lt (h : CutsOff source b ps d ns) (hn : n ∈ ns) : n.span.start < source.utf8ByteSize := by
  obtain ⟨fs, -, hfs⟩ := h.reported
  obtain ⟨i, hi, rfl⟩ := List.mem_iff_getElem.mp hn
  obtain ⟨o, ho, closer, hlacks, -⟩ := hfs.get (hfs.length_eq ▸ hi) hi
  have hlt := (tiles_tokenize source).start_lt_stop ho
  have hle := (tiles_tokenize source).stop_le ho
  have hstart : (ns.get ⟨i, hi⟩).span.start = o.start := congrArg Span.start hlacks.span_eq
  simp only [List.get_eq_getElem] at hstart
  omega

/-- Where a token is ahead nothing has been cut off. -/
theorem eq_nil (h : CutsOff source b ps d ns) (hd : d.rest ≠ []) : ns = [] := by
  by_contra hns
  exact hd (h.at_end hns)

/-- Nothing is cut off at the end of the script, for no opener is there any more. -/
theorem eq_nil_of_end (h : CutsOff source b ps d ns) (hb : b.rest = []) (hsize : b.size = source.utf8ByteSize) :
    ns = [] := by
  refine List.eq_nil_iff_forall_not_mem.mpr fun n hn => ?_
  have hle := h.offset_le n hn
  have hlt := h.start_lt hn
  rw [offset_of_rest_nil hb] at hle
  omega

/-- Two ways, one behind the other, of which one at most cuts anything off. -/
theorem append (h : CutsOff source b ps c ns) (h' : CutsOff source c qs d ns')
    (hcut : ns = [] ∨ ns' = [] ∧ (c.rest = [] → d.rest = [])) (hle : b.offset ≤ c.offset)
    (hfaults : c.faults.toList ⊆ d.faults.toList) : CutsOff source b (ps ++ qs) d (ns ++ ns') where
  reported := by
    obtain ⟨fs, hfs, hns⟩ := h.reported
    obtain ⟨fs', hfs', hns'⟩ := h'.reported
    exact ⟨fs ++ fs', by rw [hfs', hfs, List.append_assoc], List.rel_append hns hns'⟩
  at_end := by
    intro hns
    rcases hcut with rfl | ⟨rfl, hrest⟩
    · exact h'.at_end hns
    · exact hrest (h.at_end (by simpa using hns))
  nested := by
    rcases hcut with rfl | ⟨rfl, -⟩
    · exact h'.nested
    · simpa using h.nested
  offset_le := List.forall_mem_append.mpr
    ⟨h.offset_le, fun n hn => Nat.le_trans hle (h'.offset_le n hn)⟩
  kept := by
    rw [List.flatMap_append]
    rintro n hn
    rcases List.mem_append.mp hn with hn | hn
    · exact (h.kept n hn).imp (List.mem_append_left _) fun ⟨m, hm, htable, hbelow, hlt⟩ =>
        ⟨m, List.mem_append_left _ hm, htable, List.mem_append_left _ hbelow, hlt⟩
    · exact (h'.kept n hn).imp (List.mem_append_right _) fun ⟨m, hm, htable, hbelow, hlt⟩ =>
        ⟨m, List.mem_append_right _ hm, htable, List.mem_append_right _ hbelow, hlt⟩
  ends := by
    rw [List.flatMap_append]
    rintro n hn hgroup
    rcases List.mem_append.mp hn with hn | hn
    · exact (h.ends n hn hgroup).imp (List.mem_append_left _) fun hends => hends.mono hfaults
    · exact (h'.ends n hn hgroup).imp_left (List.mem_append_right _)

/-- What has been read for a part that is no group stands in it. -/
theorem joint {p : Part} (h : CutsOff source b qs d ns) (hholds : p.Holds qs [])
    (hp : ∀ n, p = .node n → n.isGroup = false) : CutsOff source b [p] d ns := by
  have hbelow := hholds.below_subset
  refine ⟨h.reported, h.at_end, h.nested, h.offset_le, fun n hn => ?_, fun n hn hgroup => ?_⟩
  · exact (h.kept n hn).imp (@hbelow n) fun ⟨m, hm, htable, hin, hlt⟩ => ⟨m, hm, htable, hbelow hin, hlt⟩
  · rcases hholds.of_mem_below hn with rfl | hn
    · rw [hp n rfl] at hgroup
      cases hgroup
    · exact h.ends n hn hgroup

/-- Around a group with a closer nothing is cut off. -/
theorem group {left : Nat} {lost : List Expression} {e : Cursor} (h : CutsOff source b qs e [])
    (hn : n.Ends source e.faults.toList) (hholds : n.Gathers left b qs lost)
    (hc : c.cutOffs = b.cutOffs) (hd : d.faults = e.faults) : CutsOff source c [.node n] d [] := by
  obtain ⟨fs, hfs, hnone⟩ := h.reported
  obtain rfl := List.forall₂_nil_right_iff.mp hnone
  refine none ?_ fun m hm hgroup => ?_
  · rw [List.append_nil] at hfs
    rw [cutOffs, hd, hc]
    exact hfs
  · rw [hd]
    rcases hholds.of_mem_below hm with hm | hm
    · obtain rfl := Part.node.inj hm
      exact hn
    · exact (h.ends m hm hgroup).resolve_left List.not_mem_nil

/-- A group without a closer is cut off behind those in it. -/
theorem cutOff {left : Nat} {lost : List Expression} {e : Cursor} {o : Token} {closer : Closer}
    (h : CutsOff source b qs e ns) (ho : o ∈ tokenize source) (hn : n.Lacks closer o source.utf8ByteSize)
    (hholds : n.Gathers left b qs lost) (hc : c.cutOffs = b.cutOffs) (hco : c.offset = o.start)
    (hlt : o.start < b.offset) (hend : d.rest = [])
    (hd : d.faults = e.faults.push ⟨.missingCloser closer, .empty source.utf8ByteSize⟩) :
    CutsOff source c [.node n] d (ns ++ [n]) := by
  have hstart : n.span.start = o.start := congrArg Span.start hn.span_eq
  have hinside (m : Node) (hm : m ∈ ns) : n.span.start < m.span.start := by
    have := h.offset_le m hm
    omega
  have hfaults : e.faults.toList ⊆ d.faults.toList := by
    rw [hd, Array.toList_push]
    exact List.subset_append_left _ _
  refine ⟨?_, fun _ => hend, ?_, ?_, ?_, fun m hm hgroup => ?_⟩
  · obtain ⟨fs, hfs, hns⟩ := h.reported
    refine ⟨fs ++ [⟨.missingCloser closer, .empty source.utf8ByteSize⟩], ?_,
      List.rel_append hns (.cons ⟨o, ho, closer, hn, rfl⟩ .nil)⟩
    rw [cutOffs, hd, Array.toList_push, List.filter_append, hc, ← List.append_assoc, ← hfs]
    rfl
  · exact List.pairwise_append.mpr ⟨h.nested, List.pairwise_singleton _ _, fun m hm k hk => by
      obtain rfl := List.mem_singleton.mp hk
      exact hinside m hm⟩
  · refine List.forall_mem_append.mpr ⟨fun m hm => ?_, List.forall_mem_singleton.mpr ?_⟩
    · have := hinside m hm
      omega
    · omega
  · have hself := Part.mem_below_self n
    refine List.forall_mem_append.mpr ⟨fun m hm => ?_, List.forall_mem_singleton.mpr (.inl hself)⟩
    cases htable : n.isTable with
    -- where a hashtable is cut off, its last key may be lost, and with it what is cut off in the key
    | true => exact .inr ⟨n, List.mem_append_right _ List.mem_cons_self, htable, hself, hinside m hm⟩
    | false =>
        have hbelow := (hholds.holds_nil htable).below_subset
        exact (h.kept m hm).imp (@hbelow m) fun ⟨k, hk, htable, hin, hlt⟩ =>
          ⟨k, List.mem_append_left _ hk, htable, hbelow hin, hlt⟩
  · rcases hholds.of_mem_below hm with hm | hm
    · obtain rfl := Part.node.inj hm
      exact .inl (List.mem_append_right _ List.mem_cons_self)
    · exact (h.ends m hm hgroup).imp (List.mem_append_left _) fun hends => hends.mono hfaults

end CutsOff

/-- The groups that are cut off on a way, and how the others end. -/
theorem Reads.cuts_off {source : String} {k : Level} {b d : Cursor} {ps : List Part} (h : Reads k b ps d)
    (hb : b.Follows (tokenize source)) (hsize : b.size = source.utf8ByteSize) :
    ∃ ns, CutsOff source b ps d ns := by
  induction h with
  | nil => exact ⟨[], .none rfl (by simp)⟩
  | passing hpassing =>
      refine ⟨[], .none ?_ (by simp)⟩
      cases hpassing with
      | aside | leave | cut => rfl
      | stray | lacking => exact cutOffs_report rfl
  | append h h' ih ih' =>
      have hc := h.reaches hb.sound
      have hcsize := hc.size_eq.trans hsize
      obtain ⟨ns, hns⟩ := ih hb hsize
      obtain ⟨ns', hns'⟩ := ih' (h.follows hb) hcsize
      refine ⟨ns ++ ns', hns.append hns' ?_ hc.offset_le h'.faults_prefix.subset⟩
      refine or_iff_not_imp_left.mpr fun hcut => ?_
      have hend := hns.at_end hcut
      exact ⟨hns'.eq_nil_of_end hend hcsize, fun _ => (h'.at_end hend).1⟩
  | operand _ ht =>
      obtain ⟨-, hgroup, hchildren⟩ := Token.operand?_eq_some ht
      exact ⟨[], .leaf rfl hgroup hchildren⟩
  | unclosed => exact ⟨[], .leaf (cutOffs_report rfl) rfl rfl⟩
  | comment => exact ⟨[], .leaf (n := .statement (.trivia _ _)) rfl rfl rfl⟩
  | joint _ hp ih =>
      obtain ⟨ns, hns⟩ := ih hb hsize
      refine ⟨ns, hns.joint hp.holds ?_⟩
      rintro n rfl
      exact Node.not_isGroup_of_isJoint (Part.isJoint_of_isJoint_node hp.joint)
  | @group _ _ _ e o cl _ _ _ _ _ hrest hn h hholds hcloser ih =>
      obtain ⟨ho, hcl⟩ := hn.closed.isBracket
      have hinside := hb.inside hrest
      have he := h.follows hinside
      obtain ⟨ns, hns⟩ := ih hinside ((hb.sound.reaches_pass hrest).size_eq.trans hsize)
      obtain rfl := hns.eq_nil (by simp [hcloser])
      have hopener := List.mem_of_mem_filter (hb.mem_brackets hrest ho)
      have hends := List.mem_of_mem_filter (he.mem_brackets hcloser hcl)
      exact ⟨[], hns.group (.closed hopener hends hn) hholds rfl rfl⟩
  | @cutOff _ _ c e o ts _ closer _ _ hrest hn h hholds hend ih =>
      have hinside := hb.inside hrest
      have hpass := hb.sound.reaches_pass hrest
      have he := (h.reaches hinside.sound).size_eq.trans (hpass.size_eq.trans hsize)
      obtain ⟨ns, hns⟩ := ih hinside (hpass.size_eq.trans hsize)
      have hopener := List.mem_of_mem_filter
        (hb.mem_brackets hrest (TokenKind.isBracket_of_isOpener hn.opened.isOpener))
      obtain ⟨hstart, hlt, hstop⟩ := hb.sound.bounds hrest
      rw [he] at hn
      exact ⟨_, hns.cutOff hopener hn hholds rfl hstart (hstop ▸ hlt) hend (by rw [← he]; rfl)⟩
  | @tooDeep _ c e o ts n limit hrest hn hchildren hs hskips he =>
      refine ⟨[], .none ?_ fun m hm _ => ?_⟩
      · rw [cutOffs_report rfl, cutOffs, hskips.faults_eq]
        rfl
      · obtain rfl := Part.eq_of_mem_below hchildren hm
        have hopener := List.mem_of_mem_filter
          (hb.mem_brackets hrest (TokenKind.isBracket_of_isOpener hn.isOpener))
        have hstop := hskips.stop_eq hb hsize hrest hn.isOpener he
        rw [show e.offset = m.span.stop from (congrArg Span.stop hs).symm] at hstop
        exact .passedOver hopener hn (congrArg Span.start hs) hstop ⟨hchildren, limit, by simp [report]⟩
  | @bodiless _ c text =>
      refine ⟨[], .none (cutOffs_report rfl) fun m hm _ => ?_⟩
      obtain rfl := Part.eq_of_mem_below rfl hm
      have hfault : ⟨.unexpectedToken text, .empty c.offset⟩ ∈
          (c.report (.unexpectedToken text) (.empty c.offset)).faults.toList := by simp [report]
      exact .absent (by simp [Node.isPlaceholder, Span.empty]) hfault

end ScriptLint
