import ScriptLint.Proofs.Parser.Reading
import ScriptLint.Proofs.Syntax.Slice

/-!
The spans of a tree and of diagnostics are spans of the script, and the leaves of the tree say what the
script says there. A cursor on a script only knows bounds that stand between characters of it: where its
tokens start and stop, where the last of them that counts ended, and where the script ends. The two pieces
of a word that is cut are tokens like others, so nothing changes when one is.
-/

namespace ScriptLint

/-- What a leaf says is what a text says where the leaf is, read as its kind of literal; a redirection
starts with its operator there. -/
def Part.SaidBy (source : String) : Part → Prop
  | expression (.bareword text s) | expression (.typeLiteral text s)
  | statement (.trivia text s) => s.slice source = text
  | expression (.stringLiteral value expandable s) =>
      Literal.unquote (s.slice source) = (value, expandable)
  | expression (.variable name splatted s) =>
      Literal.variableName (s.slice source) = (name, splatted)
  | redirection r => ∃ behind, r.span.slice source = r.operator ++ behind
  | _ => True

/-- The part stands in a text, and the text says there what the part says. -/
structure Part.StandsIn (source : String) (p : Part) : Prop where
  span_in : p.span.In source
  said : p.SaidBy source

namespace Cursor

/-- All that the cursor knows of places stands in a text: tokens ahead, bounds, faults. -/
structure On (source : String) (c : Cursor) : Prop where
  size_eq : c.size = source.utf8ByteSize
  standsIn : ∀ t ∈ c.rest, t.StandsIn source
  lastEnd_isValid : String.Pos.Raw.IsValid source ⟨c.lastEnd⟩
  faults_in : ∀ f ∈ c.faults, f.span.In source

variable {source : String} {c d : Cursor} {t : Token} {ts : List Token}

theorem on_ofSource (source : String) : (ofSource source).On source where
  size_eq := rfl
  standsIn := fun _ => .of_mem
  lastEnd_isValid := String.Pos.Raw.isValid_zero
  faults_in := by simp [ofSource]

theorem On.size_isValid (h : c.On source) : String.Pos.Raw.IsValid source ⟨c.size⟩ := by
  rw [h.size_eq]
  exact String.Pos.Raw.isValid_rawEndPos

theorem On.ahead (h : c.On source) (hrest : c.rest = t :: ts) : t.StandsIn source :=
  h.standsIn t (by simp [hrest])

theorem On.offset_isValid (h : c.On source) : String.Pos.Raw.IsValid source ⟨c.offset⟩ := by
  unfold offset
  split
  case h_1 => exact h.size_isValid
  case h_2 t ts hrest => exact (h.ahead hrest).start_isValid

theorem On.tail (h : c.On source) (hrest : c.rest = t :: ts) : On source { c with rest := ts } where
  size_eq := h.size_eq
  standsIn := fun u hu => h.standsIn u (by simp [hrest, hu])
  lastEnd_isValid := h.lastEnd_isValid
  faults_in := h.faults_in

theorem On.pass (h : c.On source) (hrest : c.rest = t :: ts) : (c.pass t ts).On source where
  size_eq := h.size_eq
  standsIn := (h.tail hrest).standsIn
  lastEnd_isValid := by
    unfold Cursor.pass
    dsimp only
    split
    · exact h.lastEnd_isValid
    · exact (h.ahead hrest).stop_isValid
  faults_in := h.faults_in

theorem On.cut (h : c.On source) (hrest : c.rest = t :: ts) {head tail : String}
    (htext : t.text = head ++ tail) :
    On source { c with rest := (t.cut head.utf8ByteSize).1 :: (t.cut head.utf8ByteSize).2 :: ts } where
  size_eq := h.size_eq
  standsIn := by
    obtain ⟨hfirst, hsecond⟩ := (h.ahead hrest).cut htext
    simpa [hfirst, hsecond] using (h.tail hrest).standsIn
  lastEnd_isValid := h.lastEnd_isValid
  faults_in := h.faults_in

theorem On.deep (h : c.On source) (depth : Nat) : On source { c with depth := depth } :=
  ⟨h.size_eq, h.standsIn, h.lastEnd_isValid, h.faults_in⟩

theorem On.report (h : c.On source) (problem : Problem) {s : Span} (hs : s.In source) :
    (c.report problem s).On source where
  size_eq := h.size_eq
  standsIn := h.standsIn
  lastEnd_isValid := h.lastEnd_isValid
  faults_in := by
    intro f hf
    rcases Array.mem_push.mp hf with hf | rfl
    · exact h.faults_in f hf
    · exact hs

theorem Skips.on (h : Skips c d) (hc : c.On source) : d.On source := by
  induction h with
  | refl => exact hc
  | pass hrest _ ih => exact ih (hc.pass hrest)

theorem Passing.on {k : Level} (h : Passing k c d) (hsound : c.Sound) (hc : c.On source) :
    d.On source := by
  cases h with
  | aside hrest => exact hc.pass hrest
  | leave hrest => exact hc.tail hrest
  | cut hrest _ htext => exact hc.cut hrest htext
  | stray hrest => exact (hc.pass hrest).report _ (hc.ahead hrest).span_in
  | lacking => exact hc.report _ ⟨Nat.le_refl _, hc.size_eq ▸ hsound.offset_le, hc.offset_isValid,
      hc.offset_isValid⟩

end Cursor

open Cursor

theorem Part.standsIn_operand {source : String} {t : Token} {e : Expression}
    (ht : t.StandsIn source) (he : t.operand? = some e) : (Part.expression e).StandsIn source := by
  refine ⟨?_, ?_⟩
  · rw [Part.span, Node.span, Token.span_operand? he]
    exact ht.span_in
  · have hslice := ht.slice_span
    unfold Token.operand? at he
    split at he
    case h_8 => cases he
    all_goals
      cases he
      simp [Part.SaidBy, Token.bareword, Token.stringLiteral, Token.variableReference,
        Token.typeLiteral, hslice]

/-- A group is no leaf. -/
theorem Part.standsIn_group {source : String} {o : Token} {n : Node} (hn : n.OpenedBy o)
    (hspan : n.span.In source) : (Part.node n).StandsIn source := by
  refine ⟨hspan, ?_⟩
  match n with
  | .block _ | .expression (.subexpression _ _ _) | .expression (.hashtable _ _) => trivial

/-- A part that is made of others is no leaf either; where it starts with a token of its own, it starts
with what this token says. -/
theorem Part.Joins.standsIn {source : String} {p : Part} {b c : Cursor} {qs : List Part}
    (hp : p.Joins b qs c) (hb : b.On source) (hc : c.On source)
    (hqs : ∀ q ∈ qs, q.span.In source) : p.StandsIn source := by
  have hstop : String.Pos.Raw.IsValid source ⟨p.span.stop⟩ := by
    rcases hp.stop_eq with hstop | ⟨q, hq, hstop⟩
    · exact hstop ▸ hc.lastEnd_isValid
    · exact hstop ▸ (hqs q hq).stop_isValid
  refine ⟨⟨hp.start_le_stop, hstop.le_rawEndPos, ?_, hstop⟩, ?_⟩
  · exact hp.start_eq ▸ hb.offset_isValid
  · have hjoint := hp.joint
    match p with
    | .redirection r =>
      obtain ⟨t, ts, hrest, hoperator, hle⟩ := hp.fits
      have hstart : r.span.start = t.start := hp.start_eq.trans (offset_eq_start hrest)
      obtain ⟨behind, hslice, -⟩ := (hb.ahead hrest).slice_eq hstop hle
      refine ⟨behind, ?_⟩
      rw [hoperator, ← hslice, ← hstart]
      rfl
    | .element e => trivial
    | .block _ | .statement (.pipeline _) | .statement (.assignment _ _ _ _)
    | .statement (.function _ _ _ _ _) | .statement (.compound _ _ _) | .statement (.flow _ _ _)
    | .pipeline _ | .invocation _ | .expression (.scriptBlock _) | .expression (.subexpression _ _ _)
    | .expression (.hashtable _ _) | .expression (.array _ _) | .expression (.sequence _ _) => trivial

theorem Reads.standsIn {source : String} {k : Level} {b d : Cursor} {ps : List Part}
    (h : Reads k b ps d) (hb : b.Sound) (hon : b.On source) :
    d.On source ∧ ∀ p ∈ ps, p.All (Part.StandsIn source) := by
  induction h with
  | nil => exact ⟨hon, by simp⟩
  | passing hpassing => exact ⟨hpassing.on hb hon, by simp⟩
  | append h _ ih ih' =>
      obtain ⟨hc, hps⟩ := ih hb hon
      obtain ⟨hd, hqs⟩ := ih' (h.sound hb) hc
      exact ⟨hd, List.forall_mem_append.mpr ⟨hps, hqs⟩⟩
  | operand hrest ht =>
      refine ⟨hon.pass hrest, List.forall_mem_singleton.mpr ?_⟩
      exact Part.all_of_children_eq_nil (Part.standsIn_operand (hon.ahead hrest) ht)
        (Token.operand?_eq_some ht).2.2
  | unclosed hrest =>
      have ht := hon.ahead hrest
      refine ⟨(hon.pass hrest).report _ ht.span_in, List.forall_mem_singleton.mpr ?_⟩
      exact Part.all_of_children_eq_nil ⟨ht.span_in, congrArg Literal.unquote ht.slice_span⟩ rfl
  | comment hrest =>
      have ht := hon.ahead hrest
      refine ⟨hon.pass hrest, List.forall_mem_singleton.mpr ?_⟩
      exact Part.all_of_children_eq_nil ⟨ht.span_in, ht.slice_span⟩ rfl
  | joint _ hp ih =>
      obtain ⟨hc, hqs⟩ := ih hb hon
      refine ⟨hc, List.forall_mem_singleton.mpr (Part.all_iff.mpr ⟨?_, ?_⟩)⟩
      · exact hp.standsIn hon hc fun q hq => (Part.all_iff.mp (hqs q hq)).1.span_in
      · exact fun q hq => hqs q (hp.holds.subset hq)
  | group hrest hn h hholds hcloser ih =>
      obtain ⟨he, hqs⟩ := ih (hb.inside hrest) ((hon.pass hrest).deep _)
      have hread : Reads ⟨_, none⟩ _ _ _ := .group hrest hn h hholds hcloser
      have hle := (hread.between hb _ List.mem_cons_self).2.1
      refine ⟨(he.pass hcloser).deep _, List.forall_mem_singleton.mpr (Part.all_iff.mpr ⟨?_, ?_⟩)⟩
      · refine Part.standsIn_group hn.opened (Span.in_of_isValid hle ?_ ?_)
        · exact hn.span_eq ▸ (hon.ahead hrest).start_isValid
        · exact hn.span_eq ▸ (he.ahead hcloser).stop_isValid
      · exact fun q hq => hqs q (hholds.subset hq)
  | @cutOff _ _ _ _ _ _ n _ _ _ hrest hn _ hholds _ ih =>
      obtain ⟨he, hqs⟩ := ih (hb.inside hrest) ((hon.pass hrest).deep _)
      have ho := (hon.ahead hrest).span_in
      have hle : n.span.start ≤ n.span.stop := by
        rw [hn.span_eq, he.size_eq]
        exact Nat.le_trans ho.start_le_stop ho.stop_le
      refine ⟨(he.deep _).report _ (.empty he.size_isValid),
        List.forall_mem_singleton.mpr (Part.all_iff.mpr ⟨?_, ?_⟩)⟩
      · refine Part.standsIn_group hn.opened (Span.in_of_isValid hle ?_ ?_)
        · exact hn.span_eq ▸ ho.start_isValid
        · exact hn.span_eq ▸ he.size_isValid
      · exact fun q hq => hqs q (hholds.subset hq)
  | @tooDeep _ _ _ _ _ n _ hrest hn hchildren hspan hskips =>
      have he := hskips.on (hon.pass hrest)
      have hpass := hb.reaches_pass hrest
      have hle := (hpass.trans (hskips.reaches hpass.sound)).offset_le
      rw [offset_eq_start hrest] at hle
      have hin : n.span.In source := by
        refine Span.in_of_isValid (hspan ▸ hle) ?_ ?_
        · exact hspan ▸ (hon.ahead hrest).start_isValid
        · exact hspan ▸ he.offset_isValid
      refine ⟨he.report _ hin, List.forall_mem_singleton.mpr ?_⟩
      exact Part.all_of_children_eq_nil (Part.standsIn_group hn hin) hchildren
  | bodiless =>
      have hempty := Span.In.empty hon.offset_isValid
      exact ⟨hon.report _ hempty, List.forall_mem_singleton.mpr
        (Part.all_of_children_eq_nil ⟨hempty, trivial⟩ rfl)⟩

/-- Of every script the spans are spans: those of all that is in the tree and those of the diagnostics
start and end in this order, in the script and between two characters of it. And the leaves are what the
script says there: words, type literals and comments as they are written, strings and variables by what
their notation means, and a redirection starts with its operator. Nothing is asked of the script, so this
is so of words that were cut and of groups that nest too deeply, too. -/
theorem parse_standsIn (source : String) :
    (∀ p, Part.Within p (.block (parse source).tree.body) →
        p.span.In source ∧ p.SaidBy source) ∧
      ∀ d ∈ (parse source).diagnostics, ∃ s, d.span = some s ∧ s.In source := by
  obtain ⟨body, c, hreads, -, hparse⟩ := exists_reads source
  obtain ⟨hc, hbody⟩ := hreads.standsIn (sound_ofSource source) (on_ofSource source)
  have hend := hc.size_eq ▸ hc.size_isValid
  rw [hparse]
  constructor
  · -- the script itself, and what is in its statements
    have hall : Part.All (Part.StandsIn source) (.block ⟨body, ⟨0, source.utf8ByteSize⟩⟩) := by
      rw [Part.all_iff, Part.parts_block]
      exact ⟨⟨Span.in_of_isValid (Nat.zero_le _) String.Pos.Raw.isValid_zero hend, trivial⟩, hbody⟩
    exact fun p hp => ⟨(hall p hp).span_in, (hall p hp).said⟩
  · intro d hd
    obtain ⟨f, hf, rfl⟩ := List.mem_map.mp hd
    exact ⟨f.span, rfl, hc.faults_in f (Array.mem_toList_iff.mp hf)⟩

end ScriptLint
