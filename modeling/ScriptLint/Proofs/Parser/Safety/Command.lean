import ScriptLint.Proofs.Parser.Movement
import ScriptLint.Syntax.Parse.Command

/-!
Commands and expressions never break a parse off. Each function is shown to end from every sound cursor,
with what it reads on the way; the loops end because every round that is followed by another passes
something. Of the groups inside it is assumed that they are safe.
-/

namespace ScriptLint

open ScriptLint.Parser Cursor

/-- The groups of a level are read to their end wherever one of them starts. -/
structure Groups.Safe (g : Groups) : Prop where
  block : ∀ {c : Cursor} {k : TokenKind}, c.Sound → c.kind? = some k → k.isOpener →
    Ends g.block c fun b d => Takes c d b.span
  subexpression : ∀ {c : Cursor} {k : TokenKind}, c.Sound → c.kind? = some k → k.isOpener →
    Ends g.subexpression c fun e d => Takes c d e.span
  hashtable : ∀ {c : Cursor} {k : TokenKind}, c.Sound → c.kind? = some k → k.isOpener →
    Ends g.hashtable c fun e d => Takes c d e.span

namespace Parse

variable {α : Type} {g : Groups} {c : Cursor} {t : Token} {ts : List Token} {k : TokenKind}

/-- An operand that may be missing; one that is leaves the cursor where it was. -/
def Read (c : Cursor) : Option Expression → Cursor → Prop
  | none, d => d = c
  | some e, d => Takes c d e.span

/-- Something with a span that may be missing. -/
def Found (span : α → Span) (c : Cursor) : Option α → Cursor → Prop
  | none, d => Reaches c d
  | some a, d => Takes c d (span a)

/-- A round of a loop, which keeps `I` and passes a byte if another round follows. -/
def Round (I : α → Cursor → Prop) (c : Cursor) : ForInStep α → Cursor → Prop
  | .done a, d => Reaches c d ∧ I a d
  | .yield a, d => Passes c d ∧ I a d

/-- The parts of an expression that has been read from `c` on. -/
def Led (c : Cursor) (parts : Array Expression) (d : Cursor) : Prop :=
  ∃ first rest, parts.toList = first :: rest ∧ Takes c d first.span

theorem Found.reaches {span : α → Span} {a? : Option α} {d : Cursor} (h : Found span c a? d) :
    Reaches c d := by
  cases a? with
  | none => exact h
  | some a => exact h.toReaches

theorem Found.of_reaches {span : α → Span} {a? : Option α} {b d : Cursor} (h : Reaches b c)
    (h' : Found span c a? d) : Found span b a? d := by
  cases a? with
  | none => exact h.trans h'
  | some a => exact Takes.of_reaches h h'

theorem Read.found {e? : Option Expression} {d : Cursor} (hc : c.Sound) (h : Read c e? d) :
    Found Expression.span c e? d := by
  cases e? with
  | none =>
      obtain rfl := h
      exact Reaches.refl hc
  | some e => exact h

theorem Led.trans {parts : Array Expression} {d e : Cursor} (h : Led c parts d)
    (h' : Reaches d e) : Led c parts e := by
  obtain ⟨first, rest, hparts, hfirst⟩ := h
  exact ⟨first, rest, hparts, hfirst.trans h'⟩

theorem Led.single {e : Expression} {d : Cursor} (h : Takes c d e.span) : Led c #[e] d :=
  ⟨e, [], rfl, h⟩

/-- A part behind others does not change where they start. -/
theorem Led.push {parts : Array Expression} {part : Expression} {d e : Cursor}
    (h : Led c parts d) (hpart : Takes d e part.span) : Led c (parts.push part) e := by
  obtain ⟨first, rest, hparts, hfirst⟩ := h
  refine ⟨first, rest ++ [part], ?_, hfirst.trans hpart.toReaches⟩
  rw [Array.toList_push, hparts, List.cons_append]

theorem repeating_ends {body : α → Parser (ForInStep α)} {a : α} {I : α → Cursor → Prop}
    (hc : c.Sound) (h : I a c)
    (hbody : ∀ a d, Reaches c d → I a d → Ends (body a) d (Round I d)) :
    Ends (repeating body a) c fun b d => Reaches c d ∧ I b d := by
  refine ends_repeating (I := fun b d => Reaches c d ∧ I b d) ⟨Reaches.refl hc, h⟩ ?_
  rintro a d ⟨hcd, hI⟩
  refine (hbody a d hcd hI).mono fun r e hr => ?_
  cases r with
  | done b => exact ⟨hcd.trans hr.1, hr.2⟩
  | yield b => exact ⟨⟨hcd.trans hr.1.toReaches, hr.2⟩, hr.1.remaining_lt⟩

theorem advance_takes (hc : c.Sound) (hk : c.kind? = some k) (hspacing : k.isSpacing = false) :
    Ends advance c fun t d => t.kind = k ∧ Takes c d t.span := by
  obtain ⟨t, ts, hrest, rfl⟩ := kind?_eq_some.mp hk
  exact (holds_advance hrest).mpr ⟨rfl, hc.takes_pass hrest hspacing⟩

theorem advance_passes (hc : c.Sound) (hk : c.kind? = some k) :
    Ends advance c fun t d => t.kind = k ∧ Passes c d := by
  obtain ⟨t, ts, hrest, rfl⟩ := kind?_eq_some.mp hk
  refine (holds_advance hrest).mpr ⟨rfl, hc.reaches_pass hrest, ?_⟩
  rw [hc.offset_pass hrest, offset_eq_start hrest]
  exact hc.start_lt_stop hrest

theorem reportUnexpected_ends (hc : c.Sound) (hk : c.kind? = some k) :
    Ends reportUnexpected c fun _ d => Passes c d := by
  refine (advance_passes hc hk).bind fun _ d ⟨_, hd⟩ => ?_
  exact hd.trans (hd.sound.reaches_report _ _)

theorem checkClosed_ends (hc : c.Sound) : Ends (checkClosed t) c fun _ d => Reaches c d := by
  unfold checkClosed
  split
  · exact hc.reaches_report _ _
  · exact Reaches.refl hc

theorem primary_ends (hg : g.Safe) (hc : c.Sound) : Ends (primary g) c (Read c) := by
  rw [primary, Ends, holds_get_bind]
  split
  case h_1 hk | h_3 hk | h_4 hk => exact (advance_takes hc hk rfl).bind fun _ _ h => h.2
  case h_2 hk =>
    refine (advance_takes hc hk rfl).bind fun t d ⟨_, hd⟩ => ?_
    exact (checkClosed_ends hd.sound).bind fun _ e he => hd.trans he
  case h_5 hk => exact (hg.block hc hk rfl).bind fun _ _ h => h
  case h_6 hk | h_7 hk | h_8 hk => exact (hg.subexpression hc hk rfl).bind fun _ _ h => h
  case h_9 hk => exact (hg.hashtable hc hk rfl).bind fun _ _ h => h
  case h_10 => rfl

theorem joined_ends {parts : Array Expression} {d : Cursor} (h : Led c parts d) :
    Ends (joined parts.toList) d fun
      | none => fun _ => False
      | some e => fun d' => Takes c d' e.span := by
  obtain ⟨first, rest, hparts, hfirst⟩ := h
  rw [hparts]
  cases rest with
  | nil => exact hfirst
  | cons second rest =>
      have hle := Nat.le_of_lt hfirst.start_lt
      apply (holds_spanFrom_bind hle).mpr
      exact hfirst.stretch hle

theorem argumentAtom_ends (hg : g.Safe) (hc : c.Sound) : Ends (argumentAtom g) c (Read c) := by
  rw [argumentAtom, Ends, holds_get_bind]
  split
  case h_1 hk | h_2 hk => exact (advance_takes hc hk rfl).bind fun _ _ h => h.2
  case h_3 => exact primary_ends hg hc

theorem adjacentRound_ends (hg : g.Safe) (hc : c.Sound) {parts : Array Expression}
    {I : Array Expression → Cursor → Prop} (h : I parts c)
    (hpush : ∀ {part : Expression} {d : Cursor}, Takes c d part.span → I (parts.push part) d) :
    Ends (adjacentRound g parts) c (Round I c) := by
  rw [adjacentRound, Ends, holds_get_bind]
  split
  case isTrue =>
    refine (argumentAtom_ends hg hc).bind fun part? d hpart => ?_
    cases part? with
    | none =>
        obtain rfl := hpart
        exact ⟨Reaches.refl hc, h⟩
    | some part => exact ⟨hpart.passes, hpush hpart⟩
  case isFalse => exact ⟨Reaches.refl hc, h⟩

theorem adjacent_ends (hg : g.Safe) (hc : c.Sound) : Ends (adjacent g) c (Read c) := by
  refine (argumentAtom_ends hg hc).bind fun first? d hfirst => ?_
  cases first? with
  | none => exact hfirst
  | some first =>
      refine (repeating_ends hfirst.sound (Led.single hfirst) fun parts e hde h =>
        adjacentRound_ends hg hde.sound h h.push).bind fun parts e h => ?_
      refine (joined_ends h.2).mono fun e? e' h' => ?_
      cases e? with
      | none => exact h'.elim
      | some e => exact h'

theorem commaAhead_ends (hc : c.Sound) :
    Ends commaAhead c fun
      | true => fun d => Reaches c d ∧ d.kind? = some .comma
      | false => fun d => d = c := by
  rw [commaAhead, Ends, holds_get_bind]
  split
  case isTrue hk => exact ⟨hc.reaches_skip _, hk⟩
  case isFalse => rfl

theorem arrayRound_ends (hg : g.Safe) (hc : c.Sound) {items : Array Expression} :
    Ends (arrayRound g items) c (Round (fun _ _ => True) c) := by
  refine (commaAhead_ends hc).bind fun comma d hd => ?_
  cases comma with
  | false =>
      obtain rfl := hd
      exact ⟨Reaches.refl hc, trivial⟩
  | true =>
      refine (advance_takes hd.1.sound hd.2 rfl).bind fun _ e ⟨_, he⟩ => ?_
      have hskip := he.sound.reaches_skip TokenKind.isSpacing
      rw [holds_skipSpacing_bind]
      refine (adjacent_ends hg hskip.sound).bind fun item? f hitem => ?_
      have htakes := (he.of_reaches hd.1).trans (hskip.trans (hitem.found hskip.sound).reaches)
      cases item? with
      | none => exact ⟨htakes.toReaches, trivial⟩
      | some item => exact ⟨htakes.passes, trivial⟩

theorem argument_ends (hg : g.Safe) (hc : c.Sound) : Ends (argument g) c (Read c) := by
  refine (adjacent_ends hg hc).bind fun first? d hfirst => ?_
  cases first? with
  | none => exact hfirst
  | some first =>
      refine (commaAhead_ends hfirst.sound).bind fun comma e he => ?_
      cases comma with
      | false =>
          obtain rfl := he
          exact hfirst
      | true =>
          refine (repeating_ends (I := fun _ _ => True) he.1.sound trivial fun _ _ hde _ =>
            arrayRound_ends hg hde.sound).bind fun items f hf => ?_
          have htakes := hfirst.trans (he.1.trans hf.1)
          have hle := Nat.le_of_lt htakes.start_lt
          apply (holds_spanFrom_bind hle).mpr
          exact htakes.stretch hle

theorem argumentIf_ends (hg : g.Safe) (hc : c.Sound) (expected : Bool) :
    Ends (argumentIf g expected) c fun _ d => Reaches c d := by
  unfold argumentIf
  split
  case isTrue =>
    have hskip := hc.reaches_skip (· = .whitespace)
    refine (argument_ends hg hskip.sound).mono fun _ d hd => ?_
    exact hskip.trans (hd.found hskip.sound).reaches
  case isFalse => exact Reaches.refl hc

theorem redirection_ends (hg : g.Safe) (hc : c.Sound) (hk : c.kind? = some .redirection) :
    Ends (redirection g) c fun r d => Takes c d r.span := by
  refine (advance_takes hc hk rfl).bind fun t d ⟨_, hd⟩ => ?_
  refine (argumentIf_ends hg hd.sound _).bind fun target e he => ?_
  have htakes := hd.trans he
  have hle := Nat.le_of_lt htakes.start_lt
  apply (holds_spanFrom_bind hle).mpr
  exact htakes.stretch hle

theorem parameter_ends (hg : g.Safe) (hc : c.Sound) {colon : Bool}
    (hk : c.kind? = some (.parameter colon)) :
    Ends (parameter g) c fun e d => Takes c d e.span := by
  refine (advance_takes hc hk rfl).bind fun t d ⟨_, hd⟩ => ?_
  refine (argumentIf_ends hg hd.sound _).bind fun argument e he => ?_
  have htakes := hd.trans he
  have hle := Nat.le_of_lt htakes.start_lt
  apply (holds_spanFrom_bind hle).mpr
  exact htakes.stretch hle

theorem commandRound_ends (hg : g.Safe) (hc : c.Sound) (args : Arguments) :
    Ends (commandRound g args) c (Round (fun _ _ => True) c) := by
  rw [commandRound, Ends, holds_get_bind]
  split
  case h_1 => exact ⟨Reaches.refl hc, trivial⟩
  case h_2 t ts hrest =>
    have hk := kind?_of_rest hrest
    split_ifs with htrivia hend hredirection hparameter hdashes
    · exact (advance_passes hc hk).bind fun _ d hd => ⟨hd.2, trivial⟩
    · exact ⟨Reaches.refl hc, trivial⟩
    · rw [hredirection] at hk
      exact (redirection_ends hg hc hk).bind fun _ d hd =>
        ⟨hd.passes, trivial⟩
    · obtain ⟨colon, hcolon⟩ := isParameter_iff.mp hparameter.1
      rw [hcolon] at hk
      exact (parameter_ends hg hc hk).bind fun _ d hd =>
        ⟨hd.passes, trivial⟩
    · exact (advance_passes hc hk).bind fun _ d hd => ⟨hd.2, trivial⟩
    · refine (argument_ends hg hc).bind fun value? d hd => ?_
      cases value? with
      | none =>
          obtain rfl := hd
          exact ⟨Reaches.refl hc, trivial⟩
      | some value => exact ⟨hd.passes, trivial⟩

/-- A command whose name was read on the way from `c`. -/
theorem command_ends (hg : g.Safe) {b : Cursor} {s : Span} (hs : Takes b c s)
    (operator : Option CallOperator) (head : Expression) :
    Ends (command g s.start operator head) c fun i d => Takes b d i.span := by
  refine (repeating_ends (I := fun _ _ => True) hs.sound trivial fun args d hd _ =>
    commandRound_ends hg hd.sound args).bind fun args d hd => ?_
  have htakes := hs.trans hd.1
  have hle : s.start ≤ max d.lastEnd head.span.stop :=
    Nat.le_trans (Nat.le_of_lt htakes.start_lt) (Nat.le_max_left _ _)
  rw [holds_get_bind]
  apply (holds_span_bind hle).mpr
  exact htakes.stretch hle

theorem expressionRound_ends (hg : g.Safe) (hc : c.Sound) {parts : Array Expression}
    {I : Array Expression → Cursor → Prop} (h : I parts c)
    (hpass : ∀ {d : Cursor}, Passes c d → I parts d)
    (hpush : ∀ {part : Expression} {d : Cursor}, Takes c d part.span → I (parts.push part) d) :
    Ends (expressionRound g parts) c (Round I c) := by
  have hsame : Round I c (.done parts) c := ⟨Reaches.refl hc, h⟩
  have hmore {d : Cursor} {part : Expression} (hpart : Takes c d part.span) :
      Round I c (.yield (parts.push part)) d := ⟨hpart.passes, hpush hpart⟩
  rw [expressionRound, Ends, holds_get_bind]
  split
  case h_1 => exact hsame
  case h_2 t ts hrest =>
    have hk := kind?_of_rest hrest
    split_ifs with htrivia hend hassign hword
    · exact (advance_passes hc hk).bind fun _ d hd => ⟨hd.2, hpass hd.2⟩
    · exact hsame
    · exact hsame
    -- a word, a parameter, a comma or a redirection is a part by itself
    · refine (advance_takes hc hk ?_).bind fun u d hd => hmore hd.2
      rcases hword with h | h | h | h
      · rw [h]
        rfl
      · obtain ⟨colon, h⟩ := isParameter_iff.mp h
        rw [h]
        rfl
      · rw [h]
        rfl
      · rw [h]
        rfl
    · refine (primary_ends hg hc).bind fun part? d hd => ?_
      cases part? with
      | none =>
          obtain rfl := hd
          exact hsame
      | some part => exact hmore hd

theorem expression_ends (hg : g.Safe) (hc : c.Sound) :
    Ends (expression g) c (Found Expression.span c) := by
  refine (repeating_ends (I := fun parts d => parts = #[] ∨ Led c parts d) hc (.inl rfl)
    fun parts d hd h => expressionRound_ends hg hd.sound h ?_ ?_).bind fun parts d hd => ?_
  · exact fun hpass => h.imp_right fun h => h.trans hpass.1
  · intro part e hpart
    rcases h with rfl | h
    · exact .inr (Led.single (hpart.of_reaches hd))
    · exact .inr (h.push hpart)
  rcases hd.2 with rfl | h
  · exact hd.1
  · refine (joined_ends h).mono fun e? e' h' => ?_
    cases e? with
    | none => exact h'.elim
    | some e => exact h'

end Parse

end ScriptLint
