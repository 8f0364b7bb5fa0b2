import Mathlib.Tactic.SplitIfs
import ScriptLint.Proofs.Parser.Extent
import ScriptLint.Proofs.Parser.Reading.Place
import ScriptLint.Proofs.Parser.Safety.Command

/-!
Commands and expressions, by what they read. Each function is shown to read the parts that it answers with
on the way from the cursor it is called at to the one it leaves. What it passes beside them is passed one
token at a time, as something that carries no operand or as something that is reported.
-/

namespace ScriptLint

open ScriptLint.Parser Cursor

variable {b c d : Cursor} {k : Level}

theorem Reads.sound {ps : List Part} (h : Reads k b ps d) (hb : b.Sound) : d.Sound :=
  (h.reaches hb).sound

theorem reads_aside {t : Token} {ts : List Token} (h : c.rest = t :: ts) (ht : t.kind.isAside) :
    Reads k c [] (c.pass t ts) :=
  .passing (.aside h ht)

/-- Tokens that carry no operand may be left behind. -/
theorem reads_skip {p : TokenKind → Bool} (hp : ∀ k, p k → k.isAside) : Reads k c [] (c.skip p) := by
  suffices h : ∀ ts, Reads k { c with rest := ts } []
      { c with rest := ts.dropWhile fun t => p t.kind } from h c.rest
  intro ts
  induction ts with
  | nil => exact .nil
  | cons t ts ih =>
      rw [List.dropWhile_cons]
      split
      case isTrue ht => exact Reads.on (.passing (.leave rfl (hp _ ht))) ih
      case isFalse => exact .nil

theorem isAside_of_isSpacing (k : TokenKind) (h : k.isSpacing) : k.isAside := by
  cases k <;> first | rfl | exact absurd h nofun

theorem reads_skipSpacing : Reads k c [] c.skipSpacing := reads_skip isAside_of_isSpacing

theorem reads_skipBlanks : Reads k c [] c.skipBlanks := by
  refine reads_skip fun kind h => ?_
  obtain rfl := of_decide_eq_true h
  rfl

/-- The groups that stand on the level `k`. -/
structure Groups.Read (g : Groups) (k : Level) : Prop extends Groups.Safe g where
  reads_block : ∀ {c : Cursor}, c.Sound → c.kind? = some .openBrace →
    Gives g.block c fun b d => Reads k c [.block b] d
  reads_subexpression : ∀ {c : Cursor} {kind : TokenKind}, c.Sound → c.kind? = some kind →
    kind.closer? = some .paren → Gives g.subexpression c fun e d => Reads k c [.expression e] d
  reads_hashtable : ∀ {c : Cursor}, c.Sound → c.kind? = some .atBrace →
    Gives g.hashtable c fun e d => Reads k c [.expression e] d
  extents : g.Extents

namespace Parse

variable {α : Type} {g : Groups} {kind : TokenKind}

/-- The part that an answer is, which may be missing. -/
def parts (part : α → Part) (a? : Option α) : List Part := (a?.map part).toList

/-- What a loop has read from `b` on, each of it one part, and the `firsts` before all others. -/
def Listed (k : Level) (part : α → Part) (b : Cursor) (firsts : List α) (as : Array α) (c : Cursor) :
    Prop :=
  firsts <+: as.toList ∧ Reads k b (as.toList.map part) c

variable {part : α → Part} {firsts : List α} {as : Array α}

theorem Listed.nil : Listed k part c [] #[] c := ⟨List.nil_prefix, .nil⟩

theorem Listed.single {a : α} (h : Reads k b [part a] c) : Listed k part b [a] #[a] c :=
  ⟨List.prefix_rfl, h⟩

theorem Listed.on (h : Listed k part b firsts as c) (h' : Reads k c [] d) :
    Listed k part b firsts as d :=
  ⟨h.1, h.2.on h'⟩

theorem Listed.push {a : α} (h : Listed k part b firsts as c) (ha : Reads k c [part a] d) :
    Listed k part b firsts (as.push a) d := by
  unfold Listed
  rw [Array.toList_push, List.map_append]
  exact ⟨h.1.trans (List.prefix_append _ _), h.2.append ha⟩

/-- What has been read goes on by one more or by none. -/
theorem Listed.push? {a? : Option α} (h : Listed k part b firsts as c)
    (ha : Reads k c (parts part a?) d) : Listed k part b firsts (as ++ a?.toArray) d := by
  cases a? with
  | none => simpa using h.on ha
  | some a => simpa using h.push ha

theorem Listed.sound (h : Listed k part b firsts as c) (hb : b.Sound) : c.Sound := h.2.sound hb

theorem advance_aside (k : Level) (hk : c.kind? = some kind) (haside : kind.isAside) :
    Gives advance c fun _ d => Reads k c [] d := by
  obtain ⟨t, ts, hrest, rfl⟩ := kind?_eq_some.mp hk
  exact (holds_advance hrest).mpr (reads_aside hrest haside)

theorem advance_operand {operand : Token → Expression} (hk : c.kind? = some kind)
    (hoperand : ∀ t : Token, t.kind = kind → t.operand? = some (operand t)) :
    Gives advance c fun t d => Reads k c [.expression (operand t)] d := by
  obtain ⟨t, ts, hrest, rfl⟩ := kind?_eq_some.mp hk
  exact (holds_advance hrest).mpr (.operand hrest (hoperand t rfl))

/-- Whether a token is a word by itself, or would be one as an argument. -/
theorem advance_bareword (hk : c.kind? = some kind)
    (hword : kind = .word ∨ isParameter kind ∨ kind = .comma ∨ kind = .redirection) :
    Gives advance c fun t d => Reads k c [.expression t.bareword] d := by
  refine advance_operand hk fun t ht => ?_
  rw [isParameter_iff] at hword
  obtain rfl | ⟨colon, rfl⟩ | rfl | rfl := hword <;> rw [Token.operand?, ht]

/-- The token ahead is passed and reported. -/
theorem reportUnexpected_reads (h : ∀ kind, c.kind? = some kind → k.Stray kind) :
    Gives reportUnexpected c fun _ d => Reads k c [] d := by
  apply gives_advance_bind
  intro t ts hrest
  exact .passing (.stray hrest (h t.kind (kind?_of_rest hrest)))

theorem primary_reads (hg : g.Read k) (hc : c.Sound) :
    Gives (primary g) c fun e? d => Reads k c (parts .expression e?) d := by
  rw [primary, Gives, holds_get_bind]
  split
  case h_1 hk => exact (advance_bareword hk (.inl rfl)).bind fun t d hd => hd
  case h_2 u hk =>
    obtain ⟨t, ts, hrest, ht⟩ := kind?_eq_some.mp hk
    apply (holds_advance_bind hrest).mpr
    unfold checkClosed
    split
    case isTrue hunclosed => exact .unclosed hrest hunclosed
    case isFalse hclosed =>
      cases u with
      | true => exact absurd ht hclosed
      | false => exact .operand (e := t.stringLiteral) hrest (by rw [Token.operand?, ht])
  case h_3 hk =>
    exact (advance_operand hk fun t ht => by rw [Token.operand?, ht]).bind fun t d hd => hd
  case h_4 hk =>
    exact (advance_operand hk fun t ht => by rw [Token.operand?, ht]).bind fun t d hd => hd
  case h_5 hk =>
    refine (hg.reads_block hc hk).bind fun body d hd => ?_
    exact hd.ofOne (p := .expression (.scriptBlock body)) hc rfl rfl rfl (fun _ => trivial)
      fun _ _ _ => trivial
  case h_6 hk | h_7 hk | h_8 hk =>
    exact (hg.reads_subexpression hc hk rfl).bind fun e d hd => hd
  case h_9 hk => exact (hg.reads_hashtable hc hk).bind fun e d hd => hd
  case h_10 => exact .nil

theorem joined_reads (hb : b.Sound) {es : List Expression}
    (h : Reads k b (es.map .expression) c) :
    Gives (joined es) c fun e? d => Reads k b (parts .expression e?) d := by
  unfold joined
  split
  case h_1 | h_2 => exact h
  case h_3 first second es =>
    apply gives_spanFrom_bind
    intro hle
    exact h.ofFirst (p := .expression (.sequence (first :: second :: es) _)) hb rfl
      (by simp [Part.rows, Node.children]) rfl hle id fun _ _ _ => trivial

theorem argumentAtom_reads (hg : g.Read k) (hc : c.Sound) :
    Gives (argumentAtom g) c fun e? d => Reads k c (parts .expression e?) d := by
  rw [argumentAtom, Gives, holds_get_bind]
  split
  case h_1 colon hk =>
    exact (advance_bareword hk (.inr (.inl rfl))).bind fun t d hd => hd
  case h_2 hk =>
    exact (advance_bareword hk (.inr (.inr (.inl rfl)))).bind fun t d hd => hd
  case h_3 => exact primary_reads hg hc

theorem adjacentRound_reads (hg : g.Read k) (hb : b.Sound) {firsts : List Expression}
    {es : Array Expression} (h : Listed k .expression b firsts es c) :
    Gives (adjacentRound g es) c (Kept (Listed k .expression b firsts)) := by
  rw [adjacentRound, Gives, holds_get_bind]
  split
  case isTrue =>
    refine (argumentAtom_reads hg (h.sound hb)).bind fun e? d hd => ?_
    cases e? with
    | none => exact h.on hd
    | some e => exact h.push hd
  case isFalse => exact h

theorem adjacent_reads (hg : g.Read k) (hc : c.Sound) :
    Gives (adjacent g) c fun e? d => Reads k c (parts .expression e?) d := by
  refine (argumentAtom_reads hg hc).bind fun first? d hd => ?_
  cases first? with
  | none => exact hd
  | some first =>
      refine (repeating_keeps (Listed.single hd)
        fun es e h => adjacentRound_reads hg hc h).bind fun es e h => ?_
      exact joined_reads hc h.2

theorem commaAhead_reads (k : Level) :
    Gives commaAhead c fun ahead d => Reads k c [] d ∧ (ahead → d.kind? = some .comma) := by
  rw [commaAhead, Gives, holds_get_bind]
  split
  case isTrue hk => exact ⟨reads_skipBlanks, fun _ => hk⟩
  case isFalse => exact ⟨.nil, fun h => absurd h Bool.false_ne_true⟩

theorem arrayRound_reads (hg : g.Read k) (hb : b.Sound) {firsts : List Expression}
    {items : Array Expression} (h : Listed k .expression b firsts items c) :
    Gives (arrayRound g items) c (Kept (Listed k .expression b firsts)) := by
  refine (commaAhead_reads k).bind fun ahead d ⟨hd, hcomma⟩ => ?_
  cases ahead with
  | false => exact h.on hd
  | true =>
      refine (advance_aside k (hcomma rfl) rfl).bind fun _ e he => ?_
      rw [holds_skipSpacing_bind]
      have hitem := (h.on hd).on (he.on reads_skipSpacing)
      refine (adjacent_reads hg (hitem.sound hb)).bind fun item? f hf => ?_
      cases item? with
      | none => exact hitem.on hf
      | some item => exact hitem.push hf

theorem argument_reads (hg : g.Read k) (hc : c.Sound) :
    Gives (argument g) c fun e? d => Reads k c (parts .expression e?) d := by
  refine (adjacent_reads hg hc).bind fun first? d hd => ?_
  cases first? with
  | none => exact hd
  | some first =>
      refine (commaAhead_reads k).bind fun ahead e ⟨he, _⟩ => ?_
      cases ahead with
      | false => exact hd.on he
      | true =>
          refine (repeating_keeps (Listed.single (hd.on he))
            fun items f h => arrayRound_reads hg hc h).bind fun items f h => ?_
          obtain ⟨⟨rest, hrest⟩, hitems⟩ := h
          rw [← hrest] at hitems ⊢
          apply gives_spanFrom_bind
          intro hle
          exact hitems.ofFirst (p := .expression (.array (first :: rest) _)) hc rfl
            (by simp [Part.rows, Node.children]) rfl hle id fun _ _ _ => trivial

theorem argumentIf_reads (hg : g.Read k) (hc : c.Sound) (expected : Bool) :
    Gives (argumentIf g expected) c fun e? d => Reads k c (parts .expression e?) d := by
  unfold argumentIf
  split
  case isTrue =>
    rw [Gives, holds_skipBlanks_bind]
    have hskip : Reads k c [] c.skipBlanks := reads_skipBlanks
    exact (argument_reads hg (hskip.sound hc)).mono fun e? d hd => hskip.append hd
  case isFalse => exact .nil

theorem redirection_reads (hg : g.Read k) (hc : c.Sound) (hk : c.kind? = some .redirection) :
    Gives (redirection g) c fun r d => Reads k c [.redirection r] d := by
  obtain ⟨t, ts, hrest, ht⟩ := kind?_eq_some.mp hk
  have hpass : Reads k c [] (c.pass t ts) := reads_aside hrest (by rw [ht]; rfl)
  have hlast : (c.pass t ts).lastEnd = t.stop := by rw [Cursor.pass, ht]; rfl
  apply (holds_advance_bind hrest).mpr
  refine (argumentIf_reads hg (hpass.sound hc) _).bind fun target d hd => ?_
  have hle := (hd.reaches (hpass.sound hc)).lastEnd_le
  rw [hlast] at hle
  apply gives_spanFrom_bind
  rw [← offset_eq_start hrest]
  intro hstart
  exact (hpass.append hd).ofWay (p := .redirection ⟨t.text, target, _⟩) rfl
    (by cases target <;> rfl) rfl hstart id ⟨t, ts, hrest, rfl, hle⟩

theorem parameter_reads (hg : g.Read k) (hc : c.Sound) (hk : c.kind? = some kind)
    (hparameter : isParameter kind) :
    Gives (parameter g) c fun e d => Reads k c [.element e] d := by
  obtain ⟨colon, rfl⟩ := isParameter_iff.mp hparameter
  obtain ⟨t, ts, hrest, ht⟩ := kind?_eq_some.mp hk
  have hpass : Reads k c [] (c.pass t ts) := reads_aside hrest (by rw [ht]; rfl)
  apply (holds_advance_bind hrest).mpr
  refine (argumentIf_reads hg (hpass.sound hc) _).bind fun argument d hd => ?_
  apply gives_spanFrom_bind
  rw [← offset_eq_start hrest]
  intro hstart
  exact (hpass.append hd).ofWay (p := .element (.parameter t.parameterName argument _)) rfl
    (by cases argument <;> rfl) rfl hstart id trivial

/-- What has been read from `b` on behind the name of a command. The tree keeps its redirections behind
its elements, wherever they stand in the script. -/
def Called (k : Level) (b : Cursor) (args : Arguments) (c : Cursor) : Prop :=
  ∃ qs, Reads k b qs c ∧ (args.elements.toList.map Part.element).Sublist qs ∧
    (args.redirections.toList.map Part.redirection).Sublist qs ∧
    qs.Perm (args.elements.toList.map Part.element ++
      args.redirections.toList.map Part.redirection)

theorem Called.on {args : Arguments} (h : Called k b args c) (h' : Reads k c [] d) :
    Called k b args d := by
  obtain ⟨qs, hqs, hkept⟩ := h
  exact ⟨qs, hqs.on h', hkept⟩

theorem Called.redirection {args : Arguments} {r : Redirection} (h : Called k b args c)
    (hr : Reads k c [.redirection r] d) :
    Called k b { args with redirections := args.redirections.push r } d := by
  obtain ⟨qs, hqs, helements, hredirections, hperm⟩ := h
  refine ⟨qs ++ [.redirection r], hqs.append hr, ?_, ?_, ?_⟩
  · exact helements.trans (List.sublist_append_left _ _)
  · simpa using hredirections.append (List.Sublist.refl [Part.redirection r])
  · simpa using hperm.append_right [Part.redirection r]

theorem Called.element {args : Arguments} {e : Element} (h : Called k b args c)
    (he : Reads k c [.element e] d) :
    Called k b { args with elements := args.elements.push e } d := by
  obtain ⟨qs, hqs, helements, hredirections, hperm⟩ := h
  refine ⟨qs ++ [.element e], hqs.append he, ?_, ?_, ?_⟩
  · simpa using helements.append (List.Sublist.refl [Part.element e])
  · exact hredirections.trans (List.sublist_append_left _ _)
  · refine (hperm.append_right [Part.element e]).trans ?_
    simpa using List.Perm.append_left _ (List.perm_append_singleton _ _)

theorem commandRound_reads (hg : g.Read k) (hb : b.Sound) {args : Arguments}
    (h : Called k b args c) :
    Gives (commandRound g args) c (Kept (Called k b)) := by
  obtain ⟨qs, hqs, -⟩ := id h
  have hc := hqs.sound hb
  rw [commandRound, Gives, holds_get_bind]
  split
  case h_1 => exact h
  case h_2 t ts hrest =>
    have hk := kind?_of_rest hrest
    split_ifs with htrivia hend hredirection hparameter hdashes
    · have haside := isAside_of_isSpacing _ (TokenKind.isSpacing_of_isTrivia _ htrivia)
      exact (advance_aside k hk haside).bind fun _ d hd => h.on hd
    · exact h
    · rw [hredirection] at hk
      exact (redirection_reads hg hc hk).bind fun r d hd => h.redirection hd
    · exact (parameter_reads hg hc hk hparameter.1).bind fun e d hd => h.element hd
    · rw [hdashes.1] at hk
      exact (advance_aside k hk rfl).bind fun _ d hd => h.on hd
    · refine (argument_reads hg hc).bind fun value? d hd => ?_
      cases value? with
      | none => exact h.on hd
      | some value =>
          have hvalue := hd.ofOne (p := .element (.argument value)) hc rfl rfl rfl (fun _ => trivial)
            fun _ _ _ => trivial
          exact h.element hvalue

/-- A command whose head has been read up to the last token that counts, or to the end of the script. It starts
where the way does, at its operator or at its name. -/
theorem command_reads (hg : g.Read k) (hb : b.Sound) {head : Expression}
    (h : Reads k b [.expression head] c) (operator : Option CallOperator)
    (hlt : b.offset < c.lastEnd)
    (hhead : b.offset < head.span.start ∨ ∃ text s, head = .bareword text s)
    (hstop : head.span.stop = c.lastEnd ∨ head.span.stop = c.size) :
    Gives (command g b.offset operator head) c fun i d => Reads k b [.invocation i] d := by
  have hc := h.sound hb
  have hcalled : Called k c {} c := ⟨[], .nil, .refl _, .refl _, .refl _⟩
  refine (repeating_keeps hcalled fun args d h => commandRound_reads hg hc h).bind
    fun args d ⟨qs, hqs, helements, hredirections, hperm⟩ => ?_
  have hreaches := hqs.reaches hc
  have hlast := hreaches.lastEnd_le
  rw [holds_get_bind]
  apply gives_span_bind
  intro hle
  refine .joint (h.append hqs) ⟨rfl, ⟨?_, ?_⟩, rfl, hle, Nat.le_max_left _ _, ?_, ?_, ?_⟩
  · simpa [Part.rows] using ⟨helements, hredirections.trans (List.sublist_cons_self _ _)⟩
  · simpa [Part.parts, Part.rows] using hperm
  · rcases Nat.le_total head.span.stop d.lastEnd with hstop | hstop
    · exact .inl (Nat.max_eq_left hstop)
    · exact .inr ⟨.expression head, List.mem_cons_self, Nat.max_eq_right hstop⟩
  · have hsize := hreaches.size_eq
    have hle := Nat.le_trans hreaches.sound.lastEnd_le hreaches.sound.offset_le
    show max d.lastEnd head.span.stop = if head.span.stop = d.size then d.size else d.lastEnd
    split <;> omega
  · refine ⟨Nat.lt_of_lt_of_le hlt hlast, qs, rfl, hhead, fun q hq => ?_⟩
    have hstart := (hqs.between hc q hq).1
    exact Nat.lt_of_lt_of_le hlt (Nat.le_trans hc.lastEnd_le hstart)

theorem expressionRound_reads (hg : g.Read k) (hb : b.Sound) {es : Array Expression}
    (h : Listed k .expression b [] es c) :
    Gives (expressionRound g es) c (Kept (Listed k .expression b [])) := by
  rw [expressionRound, Gives, holds_get_bind]
  split
  case h_1 => exact h
  case h_2 t ts hrest =>
    have hk := kind?_of_rest hrest
    split_ifs with htrivia hend hassign hword
    · have haside := isAside_of_isSpacing _ (TokenKind.isSpacing_of_isTrivia _ htrivia)
      exact (advance_aside k hk haside).bind fun _ d hd => h.on hd
    · exact h
    · exact h
    · exact (advance_bareword hk hword).bind fun t d hd => h.push hd
    · refine (primary_reads hg (h.sound hb)).bind fun e? d hd => ?_
      cases e? with
      | none => exact h.on hd
      | some e => exact h.push hd

theorem expression_reads (hg : g.Read k) (hc : c.Sound) :
    Gives (expression g) c fun e? d => Reads k c (parts .expression e?) d := by
  refine (repeating_keeps Listed.nil
    fun es d h => expressionRound_reads hg hc h).bind fun es d h => ?_
  exact joined_reads hc h.2

end Parse

end ScriptLint
