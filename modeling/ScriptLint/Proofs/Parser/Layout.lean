import ScriptLint.Proofs.Parser.Brackets

/-!
The layout of a tree. Spans are told in three ways, by tokens, by the last token that counts and by the
parts below, and what is passed between two parts belongs to neither of them. In a script without
diagnostics all of that agrees: whatever is below a part lies in it. What is missing or cut off can break
this, and a comment can, for it ends behind the last token that counts; but a comment is a statement, and
nothing is below a part that ends with such a token but expressions, pipelines and blocks.
-/

namespace ScriptLint

open Cursor

theorem TokenKind.not_isSpacing_of_isBracket {k : TokenKind} (h : k.isBracket) :
    k.isSpacing = false := by
  cases k <;> first | rfl | cases h

theorem Token.not_isSpacing_of_operand? {t : Token} {e : Expression} (h : t.operand? = some e) :
    t.kind.isSpacing = false := by
  unfold operand? at h
  split at h
  case h_8 => cases h
  all_goals simp [*, TokenKind.isSpacing, TokenKind.isTrivia]

namespace Part

def isComment : Part → Bool
  | statement (.trivia _ _) => true
  | _ => false

/-- The parts below lie in the part, and those of one row are disjoint and in the order of the script. -/
structure Laid (p : Part) : Prop where
  inside : ∀ q ∈ p.parts, p.span.start ≤ q.span.start ∧ q.span.stop ≤ p.span.stop
  disjoint : ∀ row ∈ p.rows, row.Pairwise fun q r => q.span.stop ≤ r.span.start

theorem Laid.of_children_eq_nil {n : Node} (h : n.children = []) : (node n).Laid := by
  exact ⟨by simp [parts_eq_nil h], rows_pairwise_of_children_eq_nil h⟩

/-- A statement is right below a group only. -/
theorem not_isJoint_of_statement_mem {n : Node} {s : Statement} (h : .statement s ∈ n.children) :
    n.isJoint = false := by
  match n with
  | .block _ | .expression (.subexpression _ _ _) | .expression (.hashtable _ _)
  | .expression (.bareword _ _) | .expression (.stringLiteral _ _ _)
  | .expression (.variable _ _ _) | .expression (.typeLiteral _ _) => rfl
  | .statement (.pipeline _) | .statement (.assignment _ _ _ _) | .statement (.trivia _ _)
  | .expression (.scriptBlock _) | .expression (.array _ _) | .expression (.sequence _ _) =>
    simp [Node.children] at h
  | .statement (.function _ _ params _ _) => simp [Node.children] at h
  | .statement (.flow _ value _) => simp [Node.children] at h
  | .statement (.compound _ clauses _) => simp [Node.children, Node.ofClause] at h
  | .pipeline p =>
    obtain ⟨stage, -, hstage⟩ := List.mem_map.mp h
    cases stage <;> cases hstage
  | .invocation i =>
    simp [Node.children, Node.ofRedirection] at h
    obtain ⟨e, -, he⟩ := h
    cases e <;> simp [Node.ofElement] at he

/-- No comment is right below a part that is made of others. -/
theorem not_isComment_of_isJoint {p q : Part} (hp : p.isJoint) (hq : q ∈ p.parts) :
    q.isComment = false := by
  by_contra hcomment
  obtain ⟨text, s, rfl⟩ : ∃ text s, q = statement (.trivia text s) := by
    unfold isComment at hcomment
    split at hcomment
    case h_1 text s => exact ⟨text, s, rfl⟩
    case h_2 => simp at hcomment
  match p with
  | .node n =>
    have hchild : Node.statement (.trivia text s) ∈ n.children := by
      rw [← flatMap_nodes_parts]
      exact List.mem_flatMap.mpr ⟨_, hq, List.mem_cons_self⟩
    have hjoint := isJoint_of_isJoint_node hp
    simp [not_isJoint_of_statement_mem hchild] at hjoint
  | .element e => cases e <;> simp [parts, rows, Node.ofElement] at hq
  | .redirection r => simp [parts, rows, Node.ofRedirection] at hq

end Part

namespace Reads

variable {k : Level} {b d : Cursor} {ps : List Part}

/-- Without faults no part but a comment ends behind the last token that counts. -/
theorem stop_le_lastEnd (h : Reads k b ps d) (hb : b.Sound) (hd : d.faults = #[]) :
    ∀ p ∈ ps, p.isComment = false → p.span.stop ≤ d.lastEnd := by
  induction h with
  | nil | passing => simp
  | append h h' ih ih' =>
      have hc := h.sound hb
      have hle := (h'.reaches hc).lastEnd_le
      intro p hp hcomment
      rcases List.mem_append.mp hp with hp | hp
      · exact Nat.le_trans (ih hb (h'.no_faults hd) p hp hcomment) hle
      · exact ih' hc hd p hp hcomment
  | operand hrest ht =>
      simp [Part.span, Node.span, Token.span_operand? ht, Token.span, Cursor.pass,
        Token.not_isSpacing_of_operand? ht]
  | comment => simp [Part.isComment]
  | @joint _ _ _ p _ _ hp ih =>
      refine List.forall_mem_singleton.mpr fun _ => ?_
      rcases hp.stop_eq with hstop | ⟨q, hq, hstop⟩
      · exact Nat.le_of_eq hstop
      · have hbelow : q ∈ p.parts := by simpa using hp.holds.perm.subset hq
        exact hstop ▸ ih hb hd q hq (Part.not_isComment_of_isJoint hp.joint hbelow)
  | group hrest hn h hholds hcloser ih =>
      have hspacing := TokenKind.not_isSpacing_of_isBracket hn.closed.isBracket.2
      simp [Part.span, hn.span_eq, Cursor.pass, hspacing]
  | unclosed | cutOff | tooDeep | bodiless => exact absurd hd faults_report_ne

/-- What is read in a group lies between its opener and its closer. -/
theorem inside_group {c e : Cursor} {o cl : Token} {ts us : List Token} {n : Node}
    {qs : List Part} (h : Reads k (c.inside o ts) qs e) (hc : c.Sound) (hrest : c.rest = o :: ts)
    (hn : n.Encloses o cl) (hcloser : e.rest = cl :: us) :
    ∀ q ∈ qs, n.span.start ≤ q.span.start ∧ q.span.stop ≤ n.span.stop := by
  intro q hq
  have hinside := hc.inside hrest
  have hplace := h.between hinside q hq
  have ho := hc.bounds hrest
  have hcl := (h.sound hinside).bounds hcloser
  rw [offset_inside] at hplace
  rw [hn.span_eq]
  dsimp only
  omega

/-- What is read without a fault is laid out as it should be. -/
theorem laid (h : Reads k b ps d) (hb : b.Sound) (hd : d.faults = #[]) :
    ∀ p ∈ ps, p.All Part.Laid := by
  induction h with
  | nil | passing => simp
  | append h h' ih ih' =>
      exact List.forall_mem_append.mpr ⟨ih hb (h'.no_faults hd), ih' (h.sound hb) hd⟩
  | operand hrest ht =>
      have hchildren := (Token.operand?_eq_some ht).2.2
      exact List.forall_mem_singleton.mpr
        (Part.all_of_children_eq_nil (.of_children_eq_nil hchildren) hchildren)
  | comment =>
      exact List.forall_mem_singleton.mpr
        (Part.all_of_children_eq_nil (.of_children_eq_nil rfl) rfl)
  | joint h hp ih =>
      refine List.forall_mem_singleton.mpr (Part.all_iff.mpr ⟨⟨fun q hq => ?_, ?_⟩, ?_⟩)
      · have hmem := hp.holds.subset hq
        have hstart := (h.between hb q hmem).1
        have hstop := h.stop_le_lastEnd hb hd q hmem (Part.not_isComment_of_isJoint hp.joint hq)
        exact ⟨hp.start_eq ▸ hstart, Nat.le_trans hstop hp.lastEnd_le⟩
      · exact hp.holds.rows_pairwise (h.pairwise hb)
      · exact fun q hq => ih hb hd q (hp.holds.subset hq)
  | group hrest hn h hholds hcloser ih =>
      have hinside := hb.inside hrest
      refine List.forall_mem_singleton.mpr (Part.all_iff.mpr ⟨⟨fun q hq => ?_, ?_⟩, ?_⟩)
      · exact h.inside_group hb hrest hn hcloser q (hholds.subset hq)
      · exact hholds.rows_pairwise (h.pairwise hinside)
      · exact fun q hq => ih hinside hd q (hholds.subset hq)
  | unclosed | cutOff | tooDeep | bodiless => exact absurd hd faults_report_ne

end Reads

/-- Spans nest in a script without diagnostics. Wherever a part is in the tree, what is right below it
lies in it, and of two parts in one row the first one ends before the second one starts. A row are the
statements of a block, the stages of a pipeline, the conditions and bodies of clauses, the head and the
elements of a call, its redirections, the items of an array, the parts of a sequence, the keys and values
of a hashtable. -/
theorem parse_laid {source : String} (h : (parse source).diagnostics = []) :
    ∀ p, Part.Within p (.block (parse source).tree.body) →
      (∀ q ∈ p.parts, p.span.start ≤ q.span.start ∧ q.span.stop ≤ p.span.stop) ∧
        ∀ row ∈ p.rows, row.Pairwise fun q r => q.span.stop ≤ r.span.start := by
  obtain ⟨body, c, hreads, hend, hparse⟩ := exists_reads source
  have hfaults := Parsed.diagnostics_eq_nil.mp h
  rw [hparse] at hfaults ⊢
  have hb := sound_ofSource source
  have hlaid := hreads.laid hb (Array.toList_eq_nil_iff.mp hfaults)
  have hall : Part.All Part.Laid (.block ⟨body, ⟨0, source.utf8ByteSize⟩⟩) := by
    rw [Part.all_iff, Part.parts_block]
    refine ⟨⟨fun q hq => ⟨Nat.zero_le _, ?_⟩, ?_⟩, hlaid⟩
    · rw [Part.parts_block] at hq
      have hstop := (hreads.between hb q hq).2.2
      have hsize := (hreads.sound hb).offset_le
      rw [(hreads.reaches hb).size_eq] at hsize
      exact Nat.le_trans hstop hsize
    · rw [Part.rows_block]
      exact List.forall_mem_singleton.mpr (hreads.pairwise hb)
  exact fun p hp => ⟨(hall p hp).inside, (hall p hp).disjoint⟩

theorem parse_laid_call :
    (parse "Get-Item -Path:$a > (b)").diagnostics = [] ∧
      ∀ p, Part.Within p (.block (parse "Get-Item -Path:$a > (b)").tree.body) →
        (∀ q ∈ p.parts, p.span.start ≤ q.span.start ∧ q.span.stop ≤ p.span.stop) ∧
          ∀ row ∈ p.rows, row.Pairwise fun q r => q.span.stop ≤ r.span.start :=
  ⟨by decide +kernel, parse_laid (by decide +kernel)⟩

end ScriptLint
