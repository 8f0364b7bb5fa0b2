import ScriptLint.Proofs.Parser.Mirror.Pipeline

/-!
Statements are read alike in two scripts side by side. A keyword that starts a statement or continues one
is looked for in both scripts at the same token, and what is missing is reported in both.
-/

namespace ScriptLint.Mirror

open ScriptLint.Parser ScriptLint.Parse Cursor

variable {M : Mirror} {α β : Type} {g g' : Groups} {depth : Nat} {exact : Prop} {c c' : Cursor}
  {t t' : Token} {ts ts' : List Token} {free : Bool}

theorem clauseTypesRound_agrees {types types' : Array String}
    (h : M.Collected (M.Beside true) Telling.text depth types c types' c') :
    M.Agree (clauseTypesRound types) c (clauseTypesRound types') c'
      (Rounds (M.Collected (M.Beside true) Telling.text depth)
        (M.Collected M.Settled Telling.text depth)) := by
  obtain ⟨htypes, hc⟩ := h
  rw [clauseTypesRound, clauseTypesRound, agree_skipSpacing_bind, agree_get_bind]
  rcases hc.skipSpacing.kind?_eq with hk | ⟨hnil, k, hk, hends⟩
  · rw [hk]
    split
    case h_1 hk =>
      refine agree_advance hc.skipSpacing hk rfl rfl fun t t' d d' hsame _ hd => .pure ?_
      exact ⟨htypes.push hsame.text_eq.symm, hd.imp Beside.weaken id⟩
    case h_2 hk | h_3 hk =>
      refine agree_advance hc.skipSpacing hk rfl rfl fun t t' d d' _ _ hd => .pure ?_
      exact ⟨htypes, hd.imp Beside.weaken id⟩
    case h_4 => exact .pure ⟨htypes, hc.skipSpacing⟩
  · rw [kind?_of_rest_nil hnil, hk]
    cases k <;> first | exact .pure ⟨htypes, hc.skipSpacing⟩ | cases hends

/-- A group that may be missing; one that is leaves both cursors where they were. -/
def Maybe (M : Mirror) (f : Telling → α → β) (depth : Nat) (c c' : Cursor) :
    Option α → Cursor → Option α → Cursor → Prop
  | none, d, none, d' => d = c ∧ d' = c'
  | some a, d, some b, d' => M.Passed (M.Beside true) f depth a d b d'
  | _, _, _, _ => False

theorem Maybe.abreast {f : Telling → α → β} {a? b? : Option α} {d d' : Cursor}
    (h : M.Maybe f depth c c' a? d b? d') (hc : M.Abreast (M.Beside free) depth True c c') :
    M.Abreast (M.Beside true) depth True d d' := by
  match a?, b?, h with
  | none, none, ⟨hd, hd'⟩ =>
    rw [hd, hd']
    exact hc.imp Beside.weaken id
  | some a, some b, h => exact h.2

theorem block?_agrees (hg : M.Levels depth g g') (hc : M.Abreast (M.Beside free) depth exact c c') :
    M.Agree (block? g) c (block? g') c' (M.Maybe Telling.block depth c c') := by
  obtain ⟨hk, hsettled⟩ := hc.kind?_iff (k := .openBrace) rfl rfl
  rw [block?, block?, agree_get_bind]
  simp only [hk]
  split
  case isTrue h => exact .map (hg.block (hsettled h) h)
  case isFalse => exact .pure ⟨rfl, rfl⟩

theorem parenthesis?_agrees (hg : M.Levels depth g g')
    (hc : M.Abreast (M.Beside free) depth exact c c') :
    M.Agree (parenthesis? g) c (parenthesis? g') c' (M.Maybe Telling.expression depth c c') := by
  obtain ⟨hk, hsettled⟩ := hc.kind?_iff (k := .openParen) rfl rfl
  rw [parenthesis?, parenthesis?, agree_get_bind]
  simp only [hk]
  split
  case isTrue h => exact .map (hg.subexpression (hsettled h) h rfl)
  case isFalse => exact .pure ⟨rfl, rfl⟩

theorem Maybe.alike {f : Telling → α → β} {a? b? : Option α} {d d' : Cursor}
    (h : M.Maybe f depth c c' a? d b? d') : a?.map (f M.left) = b?.map (f M.right) := by
  match a?, b?, h with
  | none, none, _ => rfl
  | some a, some b, h => exact congrArg some h.1

theorem abreast_toBrace (hc : M.Abreast (M.Beside free) depth exact c c') :
    M.Abreast (M.Beside true) depth exact (toBrace c) (toBrace c') := by
  have hk := (hc.skipSpacing.beside.kind?_iff (k := .openBrace) rfl rfl).1
  unfold toBrace
  simp only [hk]
  split
  · exact hc.skipSpacing.beside
  · exact hc.imp Beside.weaken id

theorem clause_agrees (hg : M.Levels depth g g') (hc : M.Abreast M.Settled depth exact c c')
    (hk : c.kind? = some .word) :
    M.Agree (clause g) c (clause g') c' (M.Passed (M.Beside true) Telling.clause depth) := by
  refine agree_advance hc hk rfl rfl fun t t' d d' hsame hkind hd => ?_
  rw [hsame.text_eq, Telling.fold_text hsame.suits hkind]
  -- types and options
  have hnone : M.Collected (M.Beside true) Telling.text depth #[] d #[] d' :=
    ⟨.nil, hd.imp Beside.weaken id⟩
  refine (agree_repeating (Q := M.Collected M.Settled Telling.text depth) keeps_clauseTypesRound hnone
    fun types e types' e' h => ⟨e, e', .refl _, .refl _, clauseTypesRound_agrees h⟩).bind
    (fun types => keeps_bind (keeps_parenthesis? hg.add) fun condition =>
      keeps_bind (keeps_toBrace _) fun _ => keeps_return (keeps_block? hg.add)) ?_
  rintro types e types' e' ⟨htypes, he⟩
  -- the condition
  refine (parenthesis?_agrees hg he.beside).bind
    (fun condition => keeps_bind (keeps_toBrace _) fun _ => keeps_return (keeps_block? hg.add)) ?_
  intro condition f condition' f' hcondition
  have hf := hcondition.abreast he.beside
  have hsome : condition'.isSome = condition.isSome := by
    rw [← Option.isSome_map (f := Telling.expression M.right), ← hcondition.alike, Option.isSome_map]
  have hbody : M.Abreast (M.Beside true) depth True
      (if condition.isSome then toBrace f else f) (if condition.isSome then toBrace f' else f') := by
    split
    · exact abreast_toBrace hf
    · exact hf
  rw [agree_modify_bind, hsome]
  -- the body
  refine .map ((block?_agrees hg hbody).mono ?_)
  intro body h body' h' hblock
  refine ⟨?_, hblock.abreast hbody⟩
  unfold AllAlike at htypes
  simp only [Alike, Telling.clause_mk, htypes, hcondition.alike, hblock.alike]

theorem atKeyword_eq (hc : M.Abreast M.Settled depth exact c c') (keywords : List String) :
    atKeyword keywords c' = atKeyword keywords c := by
  unfold atKeyword
  cases hrest : c.rest with
  | nil =>
      rcases hc.rest_of_nil hrest with hrest' | ⟨t, ts, hrest', hends⟩
      · rw [hrest']
      · have hword : t.kind ≠ .word := fun h => by rw [h] at hends; cases hends
        rw [hrest']
        simp [hword]
  | cons t ts =>
      obtain ⟨t', ts', hrest', hmet⟩ := hc.meet hrest
      rw [hrest']
      simp only [List.head?_cons, Option.any_some, hmet.kind_eq]
      by_cases hword : t.kind = .word
      · rw [hmet.text_eq, Telling.fold_text hmet.suits hword]
      · simp only [hword, decide_false, Bool.false_and]

theorem compoundRound_agrees (hg : M.Levels depth g g') (keywords : List String)
    {clauses clauses' : Array Clause}
    (h : M.Collected (M.Beside true) Telling.clause depth clauses c clauses' c') :
    M.Agree (compoundRound g keywords clauses) c (compoundRound g' keywords clauses') c'
      (Rounds (M.Collected (M.Beside true) Telling.clause depth)
        (M.Collected (M.Beside true) Telling.clause depth)) := by
  obtain ⟨hclauses, hc⟩ := h
  have hskip := hc.skipSpacing
  rw [compoundRound, compoundRound, agree_get_bind, atKeyword_eq hskip]
  split
  case isTrue h =>
    rw [agree_set_bind]
    refine .map ((clause_agrees hg hskip (kind?_of_atKeyword h)).mono ?_)
    rintro cl d cl' d' ⟨hcl, hd⟩
    exact ⟨hclauses.push hcl, hd⟩
  case isFalse => exact .pure ⟨hclauses, hc⟩

theorem compound_agrees (hg : M.Levels depth g g') (hc : M.Abreast M.Settled depth exact c c')
    (hk : c.kind? = some .word) (keyword : String) :
    M.Agree (compound g keyword) c (compound g' keyword) c'
      (M.Passed (M.Beside true) Telling.statement depth) := by
  obtain ⟨t, ts, hrest, -⟩ := kind?_eq_some.mp hk
  obtain ⟨t', ts', hrest', hmet⟩ := hc.meet hrest
  rw [compound, compound]
  refine .bind_of_ok (current_of_rest hrest) (current_of_rest hrest') ?_
  refine (clause_agrees hg hc hk).bind (fun first =>
    keeps_bind (keeps_repeating (keeps_compoundRound hg.add _) _) fun _ =>
      keeps_get_bind fun _ => keeps_return (keeps_span _ _)) ?_
  rintro first d first' d' ⟨hfirst, hd⟩
  have hone : M.Collected (M.Beside true) Telling.clause depth #[first] d #[first'] d' :=
    ⟨.single hfirst, hd⟩
  refine (agree_loop (keeps_compoundRound hg.add _) hone fun _ _ _ _ h =>
    compoundRound_agrees hg _ h).bind
    (fun _ => keeps_get_bind fun _ => keeps_return (keeps_span _ _)) ?_
  rintro clauses e clauses' e' ⟨hclauses, he⟩
  rw [agree_get_bind]
  refine agree_span_bind (.pure ⟨?_, he⟩)
  unfold AllAlike at hclauses
  simp only [Alike, Telling.statement_compound, hclauses, View.span, hmet.start_eq, right_offset,
    he.lastEnd_eq trivial, left_offset_max, right_offset_max]

theorem text_endOfInput (v : Telling) : v.text "end of input" = "end of input" := by
  obtain ⟨u, _ | _ | _⟩ := v <;> rfl

/-- A body that is missing is reported, and in both scripts with the same token. -/
theorem functionBody_agrees (hg : M.Levels depth g g') (hc : M.Abreast M.Settled depth True c c') :
    M.Agree (functionBody g) c (functionBody g') c'
      (M.Passed (M.Beside true) Telling.block depth) := by
  refine (block?_agrees hg hc.beside).bind (fun body? => by cases body? <;> simp) ?_
  intro body? d body?' d' hbody
  match body?, body?', hbody with
  | some body, some body', hbody => exact .pure hbody
  | none, none, ⟨hd, hd'⟩ =>
    rw [hd, hd']
    dsimp only
    rw [agree_get_bind]
    have hempty : M.right.span (Span.empty c'.offset) = M.left.span (Span.empty c.offset) := by
      rw [hc.beside.offset_eq]
      rfl
    by_cases htail : M.tail = []
    · have htext : M.Alike Telling.fault
          ⟨.unexpectedToken ((c.rest.head?.map Token.text).getD "end of input"), .empty c.offset⟩
          ⟨.unexpectedToken ((c'.rest.head?.map Token.text).getD "end of input"), .empty c'.offset⟩ := by
        rw [Alike, Telling.fault_unexpectedToken, Telling.fault_unexpectedToken, hempty, right_text]
        have hahead := hc.ahead
        generalize c.rest = ts at hahead
        generalize c'.rest = ts' at hahead
        cases hahead with
        | ends => rw [htail, List.head?_nil, Option.map_none, Option.getD_none, text_endOfInput]
        | meets hsame _ _ => exact congrArg (fun s => Fault.mk (.unexpectedToken s) _) hsame.text_eq.symm
        | emptied hgroup _ => exact congrArg (fun s => Fault.mk (.unexpectedToken s) _) hgroup.met.text_eq.symm
      rw [agree_report_bind]
      refine .pure ⟨?_, (hc.report htext).beside⟩
      simp only [Alike, Telling.block_mk, Telling.statements_nil, hempty]
    · exact agree_of_excluded (M.excluded_all (.inl htail) _) (keeps_pure _)

theorem Alike.block_span {b b' : Block} (h : M.Alike Telling.block b b') :
    M.right.span b'.span = M.left.span b.span := by
  obtain ⟨ss, s⟩ := b
  obtain ⟨ss', s'⟩ := b'
  unfold Alike at h
  rw [Telling.block_mk, Telling.block_mk] at h
  exact (Block.mk.inj h).2.symm

theorem function_agrees (hg : M.Levels depth g g') (hc : M.Abreast M.Settled depth exact c c')
    (hrest : c.rest = t :: ts) (hword : t.kind = .word)
    (hname : (c.pass t ts).skipSpacing.kind? = some .word) (keyword : String) :
    M.Agree (function g keyword) c (function g' keyword) c'
      (M.Passed (M.Beside true) Telling.statement depth) := by
  obtain ⟨t', ts', hrest', hsame, hpass⟩ := hc.pass hrest (by rw [hword]; rfl)
  rw [Parse.depthBehind_of_not_isBracket (by rw [hword]; rfl)] at hpass
  rw [function, function, agree_advance_bind hrest hrest', agree_skipSpacing_bind]
  -- the name
  refine agree_advance hpass.skipSpacing hname rfl rfl fun u u' d d' hsame' _ hd => ?_
  rw [agree_skipSpacing_bind]
  -- the parameters
  refine (parenthesis?_agrees hg hd.skipSpacing.beside).bind (fun _ =>
    keeps_bind keeps_skipSpacing fun _ => keeps_bind (keeps_functionBody hg.add) fun _ =>
      keeps_return (keeps_span _ _)) ?_
  intro params e params' e' hparams
  have he := hparams.abreast hd.skipSpacing.beside
  rw [agree_skipSpacing_bind]
  -- the body
  refine (functionBody_agrees hg he.skipSpacing).bind (fun _ => keeps_return (keeps_span _ _)) ?_
  rintro body f body' f' ⟨hbody, hf⟩
  refine agree_span_bind (.pure ⟨?_, hf⟩)
  have hstop : M.right.offset body'.span.stop = M.left.offset body.span.stop :=
    congrArg Span.stop hbody.block_span
  unfold Alike at hbody
  simp only [Alike, Telling.statement_function, hparams.alike, hbody, hsame'.text_eq, right_text,
    View.span, hsame.start_eq, right_offset, hstop]

theorem flow_agrees (hg : M.Levels depth g g') (hc : M.Abreast M.Settled depth exact c c')
    (hrest : c.rest = t :: ts) (hword : t.kind = .word) (hawaits : t.awaits = true)
    (keyword : String) :
    M.Agree (flow g keyword) c (flow g' keyword) c'
      (M.Passed (M.Beside true) Telling.statement depth) := by
  obtain ⟨t', ts', hrest', hsame, hpass⟩ := hc.pass hrest (by rw [hword]; rfl)
  rw [Parse.depthBehind_of_not_isBracket (by rw [hword]; rfl), hawaits] at hpass
  have hd : M.Abreast (M.Beside false) depth True (c.pass t ts) (c'.pass t' ts') :=
    hpass.imp id fun _ => .inr (by rw [hword]; rfl)
  rw [flow, flow, agree_advance_bind hrest hrest', agree_skipBlanks_bind]
  refine (pipeline_agrees hg hd.skipBlanks).bind (fun _ => keeps_return (keeps_span _ _)) ?_
  rintro (_ | p) e (_ | p') e' hread
  · refine agree_span_bind (.pure ⟨?_, hread.beside⟩)
    simp only [Alike, Telling.statement_flow, Option.map_none, Option.getD_none, View.span,
      hsame.start_eq, hsame.stop_eq, right_offset]
  · exact hread.elim
  · exact hread.elim
  · obtain ⟨hp, he⟩ := hread
    refine agree_span_bind (.pure ⟨?_, he.beside⟩)
    have hstop : M.right.offset p'.span.stop = M.left.offset p.span.stop :=
      congrArg Span.stop hp.pipeline_span
    unfold Alike at hp
    simp only [Alike, Telling.statement_flow, Option.map_some, Option.getD_some, hp, View.span,
      hsame.start_eq, right_offset, hstop]

/-- A statement has the same form in both scripts. -/
theorem form_eq (hc : M.Abreast M.Settled depth exact c c') : form c' = form c := by
  unfold form
  cases hrest : c.rest with
  | nil =>
      rcases hc.rest_of_nil hrest with hrest' | ⟨t, ts, hrest', hends⟩
      · rw [hrest']
      · have hword : t.kind ≠ .word := fun h => by rw [h] at hends; cases hends
        rw [hrest']
        exact if_pos hword
  | cons t ts =>
      obtain ⟨t', ts', hrest', hmet⟩ := hc.meet hrest
      rw [hrest']
      dsimp only
      rw [hmet.kind_eq]
      by_cases hword : t.kind = .word
      case neg => rw [if_pos hword, if_pos hword]
      rw [hmet.text_eq, Telling.fold_text hmet.suits hword]
      obtain ⟨u', us', hu', -, hpass⟩ := hc.pass hrest (by rw [hword]; rfl)
      obtain ⟨rfl, rfl⟩ := List.cons.inj (hrest'.symm.trans hu')
      -- what stands behind the first word
      have hk := hpass.skipSpacing.kind?_eq
      rcases hk with hk | ⟨hnil, k, hk, hends⟩
      · change (ts'.dropWhile (·.kind.isSpacing)).head?.map Token.kind =
          (ts.dropWhile (·.kind.isSpacing)).head?.map Token.kind at hk
        rw [hk]
      · change (ts'.dropWhile (·.kind.isSpacing)).head?.map Token.kind = some k at hk
        change ts.dropWhile (·.kind.isSpacing) = [] at hnil
        have hword : k ≠ .word := fun h => by rw [h] at hends; cases hends
        have hopens : opensClause k = false := by cases k <;> first | rfl | cases hends
        rw [hk, hnil]
        simp [hword, hopens]

/-- The keyword of a flow statement awaits its value. -/
theorem awaits_of_form {keyword : String} (h : form c = .flow keyword) :
    ∃ t ts, c.rest = t :: ts ∧ t.kind = .word ∧ t.awaits = true := by
  unfold form at h
  split at h
  case h_1 => cases h
  case h_2 t ts hrest =>
    dsimp only at h
    split_ifs at h with hword hfunction hcompound hflow
    refine ⟨t, ts, hrest, not_not.mp hword, ?_⟩
    have hequals : '=' ∉ t.text.toList := by
      intro hmem
      have hfold : '=' ∈ (Text.fold t.text).toList := by
        rw [Text.fold, String.toList_ofList]
        exact List.mem_map_of_mem (f := Char.toLower) hmem
      have hkeywords : ∀ keyword ∈ flowKeywords, '=' ∉ keyword.toList := by decide
      exact hkeywords _ hflow hfold
    rw [Token.awaits, not_not.mp hword, Token.lastPart_eq hequals]
    simp [hflow]

theorem statement_agrees (hg : M.Levels depth g g') (hc : M.Abreast M.Settled depth exact c c') :
    M.Agree (statement g) c (statement g') c'
      (M.Read (M.Beside true) Telling.statement depth exact) := by
  rw [statement, statement, agree_get_bind, form_eq hc]
  split
  case h_1 keyword h =>
    obtain ⟨t, ts, hrest, hword, hname⟩ := word_of_form h (by simp)
    exact .map (function_agrees hg hc hrest hword (hname keyword rfl) keyword)
  case h_2 keyword h =>
    obtain ⟨t, ts, hrest, hword, -⟩ := word_of_form h (by simp)
    exact .map (compound_agrees hg hc (by rw [kind?_of_rest hrest, hword]) keyword)
  case h_3 keyword h =>
    obtain ⟨t, ts, hrest, hword, hawaits⟩ := awaits_of_form h
    exact .map (flow_agrees hg hc hrest hword hawaits keyword)
  case h_4 => exact pipelineStatement_agrees hg hc

end ScriptLint.Mirror
