import ScriptLint.Proofs.Parser.Mirror.Command
import ScriptLint.Proofs.Parser.Safety.Statement

/-!
Pipelines and assignments are read alike in two scripts side by side. An operator or a bar is looked for
in both scripts at the same token; the end of the left script and the token that the right one has there
start no stage and join none.
-/

namespace ScriptLint.Mirror

open ScriptLint.Parser ScriptLint.Parse Cursor

variable {M : Mirror} {α β : Type} {g g' : Groups} {depth : Nat} {exact : Prop} {c c' : Cursor}
  {t t' : Token} {ts ts' : List Token} {free : Bool}

theorem Alike.stage_span {s s' : Stage} (h : M.Alike Telling.stage s s') :
    M.right.span s'.span = M.left.span s.span := by
  rw [← Telling.span_stage, ← h, Telling.span_stage]

theorem Alike.command {i i' : Invocation} (h : M.Alike Telling.invocation i i') :
    M.Alike Telling.stage (.command i) (.command i') := by
  rw [Alike, Telling.stage_command, Telling.stage_command, h]

theorem calledStage_agrees (hg : M.Levels depth g g') (hc : M.Abreast M.Settled depth exact c c')
    (hrest : c.rest = t :: ts) (hbracket : t.kind.isBracket = false)
    (hspacing : t.kind.isSpacing = false) (hawaits : t.awaits = true) (operator : CallOperator) :
    M.Agree (calledStage g operator) c (calledStage g' operator) c'
      (M.Read M.Settled Telling.stage depth exact) := by
  obtain ⟨t', ts', hrest', hsame, hpass⟩ := hc.pass hrest (TokenKind.not_isOpener_of_not_isBracket hbracket)
  rw [Parse.depthBehind_of_not_isBracket hbracket, hawaits] at hpass
  have hd : M.Abreast (M.Beside false) depth True (c.pass t ts) (c'.pass t' ts') :=
    hpass.imp id fun _ => .inr hspacing
  rw [calledStage, calledStage, agree_advance_bind hrest hrest', agree_skipBlanks_bind]
  refine (primary_agrees hg hd.skipBlanks).bind
    (fun head? => by cases head? <;> simp [keeps_command hg.add]) ?_
  rintro (_ | head) e (_ | head') e' hread
  · exact .pure (hread.imp id fun _ => trivial)
  · exact hread.elim
  · exact hread.elim
  · refine .map ((command_agrees hg hread.2 (by rw [hsame.start_eq, right_offset]) (some operator)
      hread.1).mono ?_)
    rintro i f i' f' ⟨hi, hf⟩
    exact ⟨hi.command, hf⟩

theorem namedStage_agrees (hg : M.Levels depth g g') (hc : M.Abreast M.Settled depth exact c c')
    (hk : c.kind? = some .word) :
    M.Agree (namedStage g) c (namedStage g') c' (M.Read M.Settled Telling.stage depth exact) := by
  refine agree_advance hc hk rfl rfl fun t t' d d' hsame _ hd => ?_
  refine .map ((command_agrees hg (hd.imp Beside.weaken id) (by rw [hsame.start_eq, right_offset])
    none hsame.bareword).mono ?_)
  rintro i e i' e' ⟨hi, he⟩
  exact ⟨hi.command, he⟩

theorem expressionStage_agrees_of_expression
    (h : M.Agree (expression g) c (expression g') c' (M.Read M.Settled Telling.expression depth exact)) :
    M.Agree (expressionStage g) c (expressionStage g') c'
      (M.Read M.Settled Telling.stage depth exact) := by
  refine .map (h.mono ?_)
  rintro (_ | e) d (_ | e') d' hread
  · exact hread
  · exact hread.elim
  · exact hread.elim
  · refine ⟨?_, hread.2⟩
    rw [Alike, Telling.stage_expression, Telling.stage_expression, hread.1]

theorem expressionStage_agrees (hg : M.Levels depth g g')
    (hc : M.Abreast M.Settled depth exact c c') :
    M.Agree (expressionStage g) c (expressionStage g') c'
      (M.Read M.Settled Telling.stage depth exact) :=
  expressionStage_agrees_of_expression (expression_agrees hg hc)

/-- A word that awaits something has a blank behind it in both scripts or in neither. -/
theorem sourcing_eq (h : M.Same t t') (hword : t.kind = .word) (hbeside : M.Beside (!t.awaits) ts ts') :
    sourcing t' ts' = sourcing t ts := by
  unfold sourcing
  have htext : t'.text = "." ↔ t.text = "." := by
    rw [h.text_eq]
    exact Telling.text_eq_iff rfl
  simp only [htext]
  by_cases hpoint : t.text = "."
  · have hawaits : t.awaits = true := by
      rw [Token.awaits, hword, hpoint]
      rfl
    rw [hawaits] at hbeside
    congr 1
    generalize hfree : (!true) = free at hbeside
    cases hbeside with
    | nil =>
        cases htail : M.tail with
        | nil => rfl
        | cons u us =>
            have hends := (M.tail_head u us htail).1
            refine decide_eq_false fun hblank => ?_
            rw [hblank] at hends
            cases hends
    | cons hsame _ => simp only [List.head?_cons, Option.any_some, hsame.kind_eq]
    | gap => cases hfree
    | emptied hgroup _ => simp only [List.head?_cons, Option.any_some, hgroup.met.kind_eq]
  · simp only [hpoint, decide_false, Bool.false_and]

/-- No expression starts where a statement has ended. -/
theorem expressionStage_of_ends (g : Groups) (h : ∀ k, c.kind? = some k → k.endsStatement) :
    expressionStage g c = .ok (none, c) := by
  have hround : expressionRound g #[] c = .ok (.done #[], c) := by
    rw [expressionRound, get_bind_run]
    cases hrest : c.rest with
    | nil => rfl
    | cons t ts =>
        have hends := h _ (kind?_of_rest hrest)
        dsimp only
        rw [TokenKind.isTrivia_of_endsStatement hends, TokenKind.isTerminator_of_endsStatement hends]
        rfl
  have hrounds : repeating (expressionRound g) #[] c = .ok (#[], c) := by
    show rounds (expressionRound g) (c.remaining + 1) #[] c = _
    rw [rounds, bind_run, hround]
    rfl
  rw [expressionStage, expression, bind_run, bind_run, hrounds]
  rfl

theorem stage_agrees (hg : M.Levels depth g g') (hc : M.Abreast M.Settled depth exact c c') :
    M.Agree (stage g) c (stage g') c' (M.Read M.Settled Telling.stage depth exact) := by
  rw [stage, stage, agree_skipBlanks_bind, hc.skipBlanks_eq.1, hc.skipBlanks_eq.2, agree_get_bind]
  cases hrest : c.rest with
  | nil =>
      rcases hc.rest_of_nil hrest with hrest' | ⟨t, ts, hrest', hends⟩
      · rw [hrest']
        exact .pure hc
      · rw [hrest']
        dsimp only
        have hword : t.kind ≠ .word := fun h => by rw [h] at hends; cases hends
        have hcall : t.kind ≠ .ampersand := fun h => by rw [h] at hends; cases hends
        rw [if_neg hcall, if_neg fun h => hword h.1, if_neg fun h => hword h.1]
        refine (expressionStage_agrees hg hc).of_eq (expressionStage_of_ends g ?_).symm rfl
        intro k hk
        cases (kind?_of_rest_nil hrest).symm.trans hk
  | cons t ts =>
      obtain ⟨t', ts', hrest', hmet⟩ := hc.meet hrest
      have hk := kind?_of_rest hrest
      have hsourcing : (t.kind = .word ∧ sourcing t' ts' = true) ↔
          (t.kind = .word ∧ sourcing t ts = true) := by
        refine and_congr_right fun hword => ?_
        obtain ⟨u', us', hu', hsame, hpass⟩ := hc.pass hrest (by rw [hword]; rfl)
        have hbeside : M.Beside (!t.awaits) ts us' := hpass.ahead
        obtain ⟨rfl, rfl⟩ := List.cons.inj (hu'.symm.trans hrest')
        rw [sourcing_eq hsame hword hbeside]
      rw [hrest']
      dsimp only
      simp only [hmet.kind_eq, hmet.text_eq, Telling.isOperand_text, hsourcing]
      split_ifs with hcall hsource hnamed
      · exact calledStage_agrees hg hc hrest (by rw [hcall]; rfl) (by rw [hcall]; rfl)
          (by rw [Token.awaits, hcall]) .call
      · have hpoint : t.text = "." := of_decide_eq_true (Bool.and_eq_true_iff.mp hsource.2).1
        exact calledStage_agrees hg hc hrest (by rw [hsource.1]; rfl) (by rw [hsource.1]; rfl)
          (by rw [Token.awaits, hsource.1, hpoint]; rfl) .dotSource
      · exact namedStage_agrees hg hc (by rw [hk, hnamed.1])
      · exact expressionStage_agrees hg hc

/-- Behind a stage, blanks and comments are passed over. -/
theorem leads_pipelineRound (g : Groups) (stages : Array Stage) (c : Cursor) :
    Leads (pipelineRound g) (stages, c) (stages, c.skip TokenKind.isTrivia) := by
  refine Leads.skip fun c t ts hrest htrivia => ?_
  by_cases hblank : t.kind = .whitespace
  · have hskip : c.skipBlanks = Cursor.skipBlanks { c with rest := ts } := by
      rw [Cursor.skipBlanks, Cursor.skip, hrest, List.dropWhile_cons_of_pos (by simpa using hblank)]
      rfl
    exact Leads.of_eq (modify_bind_congr hskip)
  · have hkind := (TokenKind.isTrivia_iff.mp htrivia).resolve_left hblank
    have hskip : c.skipBlanks = c := skip_of_rest hrest (decide_eq_false hblank)
    refine Leads.of_yield ?_
    rw [pipelineRound, skipBlanks_bind_run, get_bind_run, hskip, kind?_of_rest hrest, hkind]
    dsimp only
    rw [bind_run, advance_of_rest hrest,
      pass_of_isSpacing (TokenKind.isSpacing_of_isTrivia _ htrivia)]
    rfl

theorem pipelineRound_agrees (hg : M.Levels depth g g') {stages stages' : Array Stage}
    (h : M.Collected M.Settled Telling.stage depth stages c stages' c') :
    M.Agree (pipelineRound g stages) c (pipelineRound g' stages') c'
      (Rounds (M.Collected (M.Beside true) Telling.stage depth)
        (M.Collected M.Settled Telling.stage depth)) := by
  obtain ⟨hstages, hc⟩ := h
  rw [pipelineRound, pipelineRound, agree_skipBlanks_bind, hc.skipBlanks_eq.1, hc.skipBlanks_eq.2,
    agree_get_bind]
  rcases hc.kind?_eq with hk | ⟨hnil, k, hk, hends⟩
  · rw [hk]
    split
    case h_1 hk =>
      obtain ⟨t, ts, hrest, hkind⟩ := kind?_eq_some.mp hk
      obtain ⟨t', ts', hrest', hpass⟩ := hc.pass_trivia hrest (by rw [hkind]; rfl)
      rw [agree_advance_bind hrest hrest']
      exact .pure ⟨hstages, hpass⟩
    case h_2 hk =>
      refine agree_advance hc hk rfl rfl fun t t' d d' _ _ hd => ?_
      rw [agree_skipSpacing_bind]
      refine (stage_agrees hg hd.skipSpacing).bind (fun s? => by cases s? <;> simp) ?_
      rintro (_ | s) e (_ | s') e' hread
      · have hfault : M.Alike Telling.fault ⟨.unexpectedToken "|", .empty e.offset⟩
            ⟨.unexpectedToken "|", .empty e'.offset⟩ := by
          refine alike_fault (fun w => ?_) ?_
          · exact congrArg Problem.unexpectedToken (Spelling.text_of_isMark (Spelling.isMark_of_all rfl))
          · rw [hread.beside.offset_eq]
            rfl
        dsimp only
        rw [agree_get_bind, agree_report_bind]
        exact .pure ⟨hstages, hread.report hfault⟩
      · exact hread.elim
      · exact hread.elim
      · exact .pure ⟨hstages.push hread.1, hread.2.beside⟩
    case h_3 => exact .pure ⟨hstages, hc⟩
  · rw [kind?_of_rest_nil hnil, hk]
    cases k <;> first | exact .pure ⟨hstages, hc⟩ | cases hends

theorem pipelineFrom_agrees (hg : M.Levels depth g g') (hc : M.Abreast M.Settled depth True c c')
    {first first' : Stage} (hfirst : M.Alike Telling.stage first first') :
    M.Agree (pipelineFrom g first) c (pipelineFrom g' first') c'
      (M.Passed M.Settled Telling.pipeline depth) := by
  have hone : M.Collected (M.Beside true) Telling.stage depth #[first] c #[first'] c' :=
    ⟨.single hfirst, hc.beside⟩
  refine (agree_repeating (Q := M.Collected M.Settled Telling.stage depth) (keeps_pipelineRound hg.add)
    hone fun stages d stages' d' h => ?_).bind
    (fun _ => keeps_get_bind fun _ => keeps_return (keeps_span _ _)) ?_
  · exact ⟨_, _, leads_pipelineRound g stages d, leads_pipelineRound g' stages' d',
      pipelineRound_agrees hg ⟨h.1, h.2.skipTrivia⟩⟩
  · rintro stages d stages' d' ⟨hstages, hd⟩
    rw [agree_get_bind]
    refine agree_span_bind (.pure ⟨?_, hd⟩)
    have hstart : M.right.offset first'.span.start = M.left.offset first.span.start :=
      congrArg Span.start hfirst.stage_span
    unfold AllAlike at hstages
    simp only [Alike, Telling.pipeline_mk, hstages, View.span, hstart, hd.lastEnd_eq trivial,
      left_offset_max, right_offset_max]

theorem pipeline_agrees (hg : M.Levels depth g g') (hc : M.Abreast M.Settled depth exact c c') :
    M.Agree (pipeline g) c (pipeline g') c' (M.Read M.Settled Telling.pipeline depth exact) := by
  refine (stage_agrees hg hc).bind
    (fun first? => by cases first? <;> simp [keeps_pipelineFrom hg.add]) ?_
  rintro (_ | first) d (_ | first') d' hread
  · exact .pure hread
  · exact hread.elim
  · exact hread.elim
  · exact .map (pipelineFrom_agrees hg hread.2 hread.1)

theorem Alike.pipeline_span {p p' : Pipeline} (h : M.Alike Telling.pipeline p p') :
    M.right.span p'.span = M.left.span p.span := by
  obtain ⟨ss, s⟩ := p
  obtain ⟨ss', s'⟩ := p'
  unfold Alike at h
  rw [Telling.pipeline_mk, Telling.pipeline_mk] at h
  exact (Pipeline.mk.inj h).2.symm

theorem Alike.statement {p p' : Pipeline} (h : M.Alike Telling.pipeline p p') :
    M.Alike Telling.statement (.pipeline p) (.pipeline p') := by
  rw [Alike, Telling.statement_pipeline, Telling.statement_pipeline, h]

theorem assignedValue_agrees (hg : M.Levels depth g g')
    (hc : M.Abreast (M.Beside free) depth True c c') {stop stop' : Nat}
    (hstop : M.right.offset stop' = M.left.offset stop) :
    M.Agree (assignedValue g stop) c (assignedValue g' stop') c'
      (M.Passed M.Settled Telling.pipeline depth) := by
  rw [assignedValue, assignedValue, agree_skipSpacing_bind]
  refine .map ((pipeline_agrees hg hc.skipSpacing).mono ?_)
  rintro (_ | p) d (_ | p') d' hread
  · refine ⟨?_, hread⟩
    simp only [Alike, Option.getD_none, Telling.pipeline_mk, List.map_nil, View.span, Span.empty, hstop]
  · exact hread.elim
  · exact hread.elim
  · exact hread

/-- An operator that a word starts with is passed in both scripts. -/
theorem passOperator_agrees (hc : M.Abreast M.Settled depth exact c c') (hrest : c.rest = t :: ts)
    (hword : t.kind = .word) {head tail : String} (htext : t.text = head ++ tail)
    (hhead : head.toList.getLast? = some '=') :
    M.Agree (passOperator head.utf8ByteSize) c (passOperator head.utf8ByteSize) c'
      fun u d u' d' => M.Same u u' ∧ M.Abreast (M.Beside true) depth True d d' := by
  have hne : head ≠ "" := by
    rintro rfl
    cases hhead
  have hcurrent {c : Cursor} {t : Token} {ts : List Token} (hrest : c.rest = t :: ts) :
      passOperator head.utf8ByteSize c =
        (if head.utf8ByteSize < t.text.utf8ByteSize then do
          cut head.utf8ByteSize
          advance
        else advance : Parser Token) c := by
    rw [passOperator, bind_run, current_of_rest hrest]
    rfl
  have hadvance {c c' : Cursor} {t : Token} {ts : List Token}
      (hc : M.Abreast M.Settled depth exact c c') (hrest : c.rest = t :: ts)
      (hword : t.kind = .word) :
      M.Agree advance c advance c' fun u d u' d' =>
        M.Same u u' ∧ M.Abreast (M.Beside true) depth True d d' := by
    obtain ⟨t', ts', hrest', hsame, hpass⟩ := hc.pass hrest (by rw [hword]; rfl)
    rw [Parse.depthBehind_of_not_isBracket (by rw [hword]; rfl)] at hpass
    intro u d u' d' hrun hrun' _
    rw [advance_of_rest hrest] at hrun
    rw [advance_of_rest hrest'] at hrun'
    cases hrun
    cases hrun'
    exact ⟨hsame, hpass.imp Beside.weaken fun _ => .inr (by rw [hword]; rfl)⟩
  by_cases hlt : head.utf8ByteSize < t.text.utf8ByteSize
  · have htail : tail ≠ "" := by
      rintro rfl
      rw [htext, String.append_empty] at hlt
      exact absurd hlt (Nat.lt_irrefl _)
    obtain ⟨t', ts', hrest', hsame, htext', hsize, hcut⟩ :=
      hc.cut hrest hword htext hne htail (.inl hhead)
    have hvalid' : String.Pos.Raw.IsValid t'.text ⟨head.utf8ByteSize⟩ :=
      String.Pos.Raw.isValid_iff_exists_append.mpr
        ⟨_, _, htext', congrArg String.Pos.Raw.mk hsize.symm⟩
    unfold Agree
    rw [hcurrent hrest, hcurrent hrest', hsame.size_eq hword, if_pos hlt, bind_run, bind_run,
      cut_of_append hrest htext, cut_of_rest hrest' hvalid']
    exact hadvance hcut rfl rfl
  · obtain ⟨t', ts', hrest', hsame, -⟩ := hc.pass hrest (by rw [hword]; rfl)
    unfold Agree
    rw [hcurrent hrest, hcurrent hrest', hsame.size_eq hword, if_neg hlt]
    exact hadvance hc hrest hword

theorem assignmentAhead?_eq (hc : M.Abreast M.Settled depth exact c c') :
    assignmentAhead? c' = assignmentAhead? c := by
  unfold assignmentAhead?
  cases hrest : c.rest with
  | nil =>
      rcases hc.rest_of_nil hrest with hrest' | ⟨t, ts, hrest', hends⟩
      · rw [hrest']
      · rw [hrest']
        exact if_neg fun h => by rw [h] at hends; cases hends
  | cons t ts =>
      obtain ⟨t', ts', hrest', hmet⟩ := hc.meet hrest
      rw [hrest']
      dsimp only
      rw [hmet.kind_eq, hmet.text_eq, Telling.assignmentLength?_text]

theorem assignment_agrees (hg : M.Levels depth g g') (hc : M.Abreast M.Settled depth True c c')
    {n : Nat} (hn : assignmentAhead? c = some n) {target target' : Expression}
    (htarget : M.Alike Telling.expression target target') :
    M.Agree (assignment g target n) c (assignment g' target' n) c'
      (M.Passed M.Settled Telling.statement depth) := by
  obtain ⟨t, ts, hrest, hword, hn⟩ := assignmentAhead?_eq_some.mp hn
  obtain ⟨head, tail, htext, hhead, rfl⟩ := Literal.exists_of_assignmentLength? hn
  -- the operator
  refine (passOperator_agrees hc hrest hword htext hhead).bind
    (fun _ => keeps_bind (keeps_assignedValue hg.add _) fun _ => keeps_return (keeps_span _ _)) ?_
  rintro u d u' d' ⟨hsame, hd⟩
  -- the value, which may be missing
  have hstop : M.right.offset u'.stop = M.left.offset u.stop := by rw [hsame.stop_eq, right_offset]
  refine (assignedValue_agrees hg hd hstop).bind (fun _ => keeps_return (keeps_span _ _)) ?_
  rintro value e value' e' ⟨hvalue, he⟩
  refine agree_span_bind (.pure ⟨?_, he⟩)
  have hstart := htarget.start
  have hend : M.right.offset value'.span.stop = M.left.offset value.span.stop :=
    congrArg Span.stop hvalue.pipeline_span
  unfold Alike at htarget hvalue
  simp only [Alike, Telling.statement_assignment, htarget, hvalue, hsame.text_eq, right_text, View.span,
    hstart, hend, hstop, left_offset_max, right_offset_max]

/-- A statement whose first stage is read alike. -/
theorem pipelineStatement_agrees_of_stage (hg : M.Levels depth g g')
    (hstage : M.Agree (stage g) c (stage g') c' (M.Read M.Settled Telling.stage depth exact)) :
    M.Agree (pipelineStatement g) c (pipelineStatement g') c'
      (M.Read (M.Beside true) Telling.statement depth exact) := by
  have hstatement {p p' : Pipeline} {d d' : Cursor}
      (h : M.Passed M.Settled Telling.pipeline depth p d p' d') :
      M.Read (M.Beside true) Telling.statement depth exact (some (.pipeline p)) d
        (some (.pipeline p')) d' :=
    ⟨h.1.statement, h.2.beside⟩
  refine hstage.bind (fun first? => ?_) ?_
  · match first? with
    | none => exact keeps_pure _
    | some (.command i) => exact keeps_return (keeps_pipelineFrom hg.add _)
    | some (.expression target) =>
      refine keeps_bind keeps_skipBlanks fun _ => keeps_get_bind fun c => ?_
      split
      · exact keeps_return (keeps_assignment hg.add _ _)
      · exact keeps_return (keeps_pipelineFrom hg.add _)
  rintro (_ | first) d (_ | first') d' hread
  · exact .pure hread
  · exact hread.elim
  · exact hread.elim
  obtain ⟨hfirst, hd⟩ := hread
  match first, first', hfirst with
  | .command i, .command i', hfirst =>
    exact .map ((pipelineFrom_agrees hg hd hfirst).mono fun _ _ _ _ => hstatement)
  | .command _, .expression _, hfirst =>
    rw [Alike, Telling.stage_command, Telling.stage_expression] at hfirst
    cases hfirst
  | .expression _, .command _, hfirst =>
    rw [Alike, Telling.stage_command, Telling.stage_expression] at hfirst
    cases hfirst
  | .expression target, .expression target', hfirst =>
    have htarget : M.Alike Telling.expression target target' := by
      rw [Alike, Telling.stage_expression, Telling.stage_expression] at hfirst
      exact Stage.expression.inj hfirst
    dsimp only
    rw [agree_skipBlanks_bind, hd.skipBlanks_eq.1, hd.skipBlanks_eq.2, agree_get_bind,
      assignmentAhead?_eq hd]
    split
    case h_1 n hn =>
      refine .map ((assignment_agrees hg hd hn htarget).mono ?_)
      rintro s e s' e' ⟨hs, he⟩
      exact ⟨hs, he.beside⟩
    case h_2 => exact .map ((pipelineFrom_agrees hg hd hfirst).mono fun _ _ _ _ => hstatement)

theorem pipelineStatement_agrees (hg : M.Levels depth g g')
    (hc : M.Abreast M.Settled depth exact c c') :
    M.Agree (pipelineStatement g) c (pipelineStatement g') c'
      (M.Read (M.Beside true) Telling.statement depth exact) :=
  pipelineStatement_agrees_of_stage hg (stage_agrees hg hc)

end ScriptLint.Mirror
