import ScriptLint.Proofs.Parser.Along
import ScriptLint.Proofs.Parser.Extent
import ScriptLint.Proofs.Parser.Reading.Group

/-!
What is ahead behind an operand. A word is cut in two behind the operator of an assignment and behind a key, and
what is left of it is read with what follows. Nothing that belongs to a call is cut, and a group ends with its
closer, so behind an operand of a call there are tokens of the script again. In particular the elements of a
call are read from there on, behind its head.
-/

namespace ScriptLint

open ScriptLint.Parser Cursor

/-- Behind the groups there are tokens of the script ahead, if there are any in front of them. -/
structure Groups.Intact (source : String) (g : Groups) : Prop where
  block : Moves (Cursor.Intact source) g.block
  subexpression : Moves (Cursor.Intact source) g.subexpression
  hashtable : Moves (Cursor.Intact source) g.hashtable

namespace Parse

variable {source : String} {g : Groups} {c : Cursor}

theorem intact_advance : Moves (Intact source) advance := fun c hc => by
  rw [← bind_pure advance]
  exact gives_advance_bind fun _ _ hrest => ⟨hc.intact_pass hrest, trivial⟩

theorem intact_skipSpacing : Moves (Intact source) skipSpacing :=
  moves_modify fun _ => Intact.skipSpacing

theorem intact_skipBlanks : Moves (Intact source) skipBlanks := moves_modify fun _ => Intact.skipBlanks

theorem intact_report (problem : Problem) (s : Span) : Moves (Intact source) (report problem s) :=
  moves_modify fun _ hc => ⟨Lasting.report problem s hc.toAlong, hc.entire⟩

theorem intact_checkClosed (t : Token) : Moves (Intact source) (checkClosed t) := by
  unfold checkClosed
  split
  · exact intact_report _ _
  · exact makes_pure trivial

theorem intact_primary (hg : g.Intact source) : Moves (Intact source) (primary g) := by
  refine makes_get_bind fun c => ?_
  split
  case h_1 | h_3 | h_4 => exact intact_advance.bind fun _ => makes_pure trivial
  case h_2 => exact intact_advance.bind fun t => (intact_checkClosed t).bind fun _ => makes_pure trivial
  case h_5 => exact hg.block.bind fun _ => makes_pure trivial
  case h_6 | h_7 | h_8 => exact hg.subexpression.bind fun _ => makes_pure trivial
  case h_9 => exact hg.hashtable.bind fun _ => makes_pure trivial
  case h_10 => exact makes_pure trivial

theorem intact_argumentAtom (hg : g.Intact source) : Moves (Intact source) (argumentAtom g) := by
  refine makes_get_bind fun c => ?_
  split
  case h_1 | h_2 => exact intact_advance.bind fun _ => makes_pure trivial
  case h_3 => exact intact_primary hg

/-- A loop stays where the tokens ahead are those of the script. -/
theorem intact_repeating {α : Type} {body : α → Parser (ForInStep α)} (h : ∀ a, Moves (Intact source) (body a))
    (a : α) : Moves (Intact source) (repeating body a) :=
  makes_repeating (P := fun _ => True) trivial fun a _ => (h a).mono fun r _ => by cases r <;> trivial

theorem intact_joined (es : List Expression) : Moves (Intact source) (joined es) := by
  unfold joined
  split
  case h_1 | h_2 => exact makes_pure trivial
  case h_3 => exact (moves_spanFrom _).bind fun _ => makes_pure trivial

theorem intact_adjacent (hg : g.Intact source) : Moves (Intact source) (adjacent g) := by
  refine (intact_argumentAtom hg).bind fun first? => ?_
  cases first? with
  | none => exact makes_pure trivial
  | some first =>
      refine (intact_repeating (fun es => makes_get_bind fun c => ?_) _).bind fun es => intact_joined _
      split
      · refine (intact_argumentAtom hg).bind fun e? => ?_
        cases e? <;> exact makes_pure trivial
      · exact makes_pure trivial

theorem intact_commaAhead : Moves (Intact source) commaAhead :=
  makes_set_bind (p := fun c => c.skipBlanks.kind? = some .comma) (fun _ => Intact.skipBlanks)
    (makes_pure trivial) (makes_pure trivial)

theorem intact_arrayRound (hg : g.Intact source) (items : Array Expression) :
    Moves (Intact source) (arrayRound g items) := by
  refine intact_commaAhead.bind fun ahead => ?_
  cases ahead with
  | false => exact makes_pure trivial
  | true =>
      refine intact_advance.bind fun _ => intact_skipSpacing.bind fun _ => (intact_adjacent hg).bind fun e? => ?_
      cases e? <;> exact makes_pure trivial

theorem intact_argument (hg : g.Intact source) : Moves (Intact source) (argument g) := by
  refine (intact_adjacent hg).bind fun first? => ?_
  cases first? with
  | none => exact makes_pure trivial
  | some first =>
      refine intact_commaAhead.bind fun ahead => ?_
      cases ahead with
      | false => exact makes_pure trivial
      | true =>
          exact (intact_repeating (intact_arrayRound hg) _).bind fun items => (moves_spanFrom _).bind fun _ =>
            makes_pure trivial

theorem intact_argumentIf (hg : g.Intact source) (expected : Bool) :
    Moves (Intact source) (argumentIf g expected) := by
  unfold argumentIf
  split
  · exact intact_skipBlanks.bind fun _ => intact_argument hg
  · exact makes_pure trivial

theorem intact_redirection (hg : g.Intact source) : Moves (Intact source) (redirection g) :=
  intact_advance.bind fun _ => (intact_argumentIf hg _).bind fun _ => (moves_spanFrom _).bind fun _ =>
    makes_pure trivial

theorem intact_parameter (hg : g.Intact source) : Moves (Intact source) (parameter g) :=
  intact_advance.bind fun _ => (intact_argumentIf hg _).bind fun _ => (moves_spanFrom _).bind fun _ =>
    makes_pure trivial

theorem intact_passTokens (n : Nat) : Moves (Intact source) (passTokens n) := by
  induction n with
  | zero => exact makes_pure trivial
  | succ n ih => exact intact_advance.bind fun _ => ih

theorem intact_skipGroup : Moves (Intact source) skipGroup :=
  moves_current.bind fun _ => makes_get_bind fun _ => (intact_passTokens _).bind fun _ =>
    makes_get_bind fun _ => (moves_span _ _).bind fun _ => (intact_report _ _).bind fun _ => makes_pure trivial

/-- Whatever is cut in a group, behind its closer there is a token of the script. -/
theorem intact_group {α β : Type} {m : Parser α} {f : Token → α → Span → β} (closer : Closer)
    (hm : Moves (Along source) m)
    (hend : ∀ {c : Cursor}, c.Sound → Gives m c fun _ d => Ended (some closer) d) :
    Moves (Intact source) (do
      let t ← advance
      let body ← nested m
      return f t body (← span t.start (← expectCloser closer))) := by
  refine intact_advance.bind fun t c hc => ?_
  have hinner := Lasting.deep (c.depth + 1) hc.toAlong
  refine (gives_nested (Q := fun _ d => d.Along source ∧ Ended (some closer) d)
    (((hm _ hinner).and (hend hinner.sound)).mono fun _ d hd n _ => ⟨Lasting.deep n hd.1.1, hd.2⟩)).bind
    fun body d ⟨hd, hended⟩ => ?_
  refine (expectCloser_gives hended).bind fun stop e he => gives_span_bind fun _ => ⟨?_, trivial⟩
  rcases he with ⟨cl, us, hrest, -, -, rfl⟩ | ⟨hrest, -, rfl⟩
  · exact hd.intact_pass hrest
  · exact (Lasting.report _ _ hd).intact_of_rest_nil hrest

theorem groups_intact (levels : Nat) : (groups levels).Intact source := by
  cases levels with
  | zero =>
      refine ⟨?_, ?_, ?_⟩
      · exact intact_skipGroup.bind fun _ => makes_pure trivial
      · exact moves_current.bind fun _ => intact_skipGroup.bind fun _ => makes_pure trivial
      · exact intact_skipGroup.bind fun _ => makes_pure trivial
  | succ levels =>
      have hmakes := groups_makes (I := Along source) levels
      have hstatements (closer : Closer) : Moves (Along source) (statements (groups levels) (some closer)) :=
        (makes_statements hmakes _).mono fun _ _ => trivial
      refine ⟨intact_group .brace (hstatements .brace) fun hc => ?_,
        intact_group .paren (hstatements .paren) fun hc => ?_,
        intact_group .brace ((makes_entries hmakes).mono fun _ _ => trivial) fun hc => ?_⟩
      · exact (statements_reads (groups_read levels (some .openBrace)) hc rfl).mono fun _ _ hd => hd.2
      · exact (statements_reads (groups_read levels (some .openParen)) hc rfl).mono fun _ _ hd => hd.2
      · refine (entries_reads (groups_read levels (some .atBrace)) rfl hc).mono fun _ _ hd => ?_
        obtain ⟨_, _, _, _, hended⟩ := hd
        exact hended

/-- A stage that is a command has been read as one behind its head, which is a word if no operator calls it. -/
theorem stage_commands {P : Invocation → Prop} {levels : Nat} (hc : c.Along source)
    (hcommand : ∀ {b d : Cursor} {head : Expression} {operator : Option CallOperator}, d.Intact source →
      Extent b d head.span → head.span.stop ≤ d.offset →
      (operator = none → ∃ t : Token, head = t.bareword ∧ isOperand t.text = false) →
      ∀ start : Nat, Gives (command (groups levels) start operator head) d fun i _ => P i) :
    Gives (stage (groups levels)) c fun s? _ => ∀ i, s? = some (.command i) → P i := by
  have hintact : (groups levels).Intact source := groups_intact levels
  have hnone : ∀ i, (none : Option Stage) = some (.command i) → P i := fun i hi => by cases hi
  have hcalled {d : Cursor} (hd : d.Along source) (operator : CallOperator) :
      Gives (calledStage (groups levels) operator) d fun s? _ => ∀ i, s? = some (.command i) → P i := by
    refine gives_advance_bind fun u us hrest => ?_
    rw [Gives, holds_skipBlanks_bind]
    have hskip := (hd.intact_pass hrest).skipBlanks
    refine ((intact_primary hintact _ hskip).and ((primary_extent (groups_extents levels)).and
      (primary_reads (groups_read levels none) hskip.sound))).bind fun head? e h => ?_
    obtain ⟨⟨he, -⟩, hextent, hreads⟩ := h
    cases head? with
    | none => exact hnone
    | some head =>
        have hplace := hreads.between hskip.sound _ (List.mem_singleton_self _)
        refine (hcommand he hextent hplace.2.2 (by simp) _).bind fun i f hi j hj => ?_
        cases hj
        exact hi
  have hskip := lasting_skipBlanks hc
  rw [stage, Gives, holds_skipBlanks_bind, holds_get_bind]
  split
  case h_1 => exact hnone
  case h_2 u us hrest =>
    split_ifs with hcall hsource hname
    · exact hcalled hskip .call
    · exact hcalled hskip .dotSource
    · refine (holds_advance_bind hrest).mpr ?_
      have hextent := extent_pass hrest (by rw [hname.1]; rfl)
      have hhead : u.bareword.span.stop ≤ (c.skipBlanks.pass u us).offset :=
        Nat.le_of_eq (hskip.sound.offset_pass hrest).symm
      have hword : isOperand u.text = false := by simpa using hname.2
      refine (hcommand (hskip.intact_pass hrest) hextent hhead (fun _ => ⟨u, rfl, hword⟩) _).bind
        fun i f hi j hj => ?_
      cases hj
      exact hi
    · refine gives_bind fun e? d => ?_
      cases e? with
      | none => exact hnone
      | some e => exact fun i hi => by cases hi

end Parse

end ScriptLint
