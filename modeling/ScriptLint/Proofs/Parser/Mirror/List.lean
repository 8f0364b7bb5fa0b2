import ScriptLint.Proofs.Parser.Mirror.Statement

/-!
Lists of statements are read alike in two scripts side by side. The two loops pass over separators and
comments at their own pace and meet again at the next statement. Where the left script ends, the loop over
the right one has come to its tail; it goes on from there with the statements found so far.
-/

namespace ScriptLint.Mirror

open ScriptLint.Parser ScriptLint.Parse Cursor

variable {M : Mirror} {α β : Type} {g g' : Groups} {depth : Nat} {exact : Prop} {c c' : Cursor}
  {t t' : Token} {ts ts' : List Token} {free : Bool} {closer closer' : Option Closer}

/-- Where the tokens ahead are said apart. -/
abbrev anywhere : List Token → List Token → Prop := fun _ _ => True

namespace Abreast

/-- Some tokens are left behind in each script, whatever they are. -/
theorem drop {rel rel' : List Token → List Token → Prop} (h : M.Abreast rel depth exact c c')
    {us : List Token} (hrest : c.rest = us ++ ts) (hbracket : ∀ u ∈ us, u.kind.isBracket = false)
    (hrel : rel' ts ts') :
    M.Abreast rel' depth exact { c with rest := ts } { c' with rest := ts' } := by
  refine h.on ?_ hrel ?_
  · have htiles := h.sound.tiles
    rw [hrest] at htiles
    obtain ⟨m, hleft, hahead⟩ := Tiles.append.mp htiles
    have hstart : c.offset ≤ m := hleft.start_le
    have hoffset : Cursor.offset { c with rest := ts } = m :=
      offset_eq_of_tiles (c := { c with rest := ts }) hahead
    refine ⟨⟨?_, ?_⟩, rfl, rfl, ?_, Nat.le_refl _⟩
    · rw [hoffset]
      exact hahead
    · rw [hoffset]
      exact Nat.le_trans h.sound.lastEnd_le hstart
    · rwa [hoffset]
  · rw [hrest]
    clear hrest
    induction us with
    | nil => exact Nat.le_refl _
    | cons u us ih =>
        have hbehind := deepest_behind_le depth u (us ++ ts)
        rw [depthBehind_of_not_isBracket (hbracket u List.mem_cons_self)] at hbehind
        exact Nat.le_trans (ih fun v hv => hbracket v (List.mem_cons_of_mem u hv)) hbehind

end Abreast

theorem isBracket_of_separates {k : TokenKind} (h : separates k) : k.isBracket = false := by
  cases k <;> first | rfl | cases h

theorem separates_of_isOpener {k : TokenKind} (h : k.isOpener) : separates k = false := by
  cases k <;> first | rfl | cases h

/-- A separator is passed over within the round that follows. -/
theorem leads_separator (g : Groups) (closer : Option Closer) (found : Array Statement)
    (hrest : c.rest = t :: ts) (h : separates t.kind) :
    Leads (statementsRound g closer) (found, c) (found, { c with rest := ts }) := by
  have hskip : c.skip separates = Cursor.skip separates { c with rest := ts } := by
    rw [Cursor.skip, hrest, List.dropWhile_cons_of_pos (by exact h)]
    rfl
  exact Leads.of_eq (modify_bind_congr hskip)

/-- A comment is a statement of its own. -/
theorem leads_comment (g : Groups) (closer : Option Closer) (found : Array Statement)
    (hrest : c.rest = t :: ts) (h : t.kind = .comment) :
    Leads (statementsRound g closer) (found, c)
      (found.push (.trivia t.text t.span), { c with rest := ts }) := by
  have hskip : c.skip separates = c := skip_of_rest hrest (by rw [h]; rfl)
  refine Leads.of_yield ?_
  rw [statementsRound, skip_bind_run, get_bind_run, hskip, hrest]
  dsimp only
  rw [if_pos h, bind_run, advance_of_rest hrest, pass_of_isSpacing (by rw [h]; rfl)]
  rfl

variable (M) in
/-- What two loops over statements have found so far, and where they are. -/
def Found (rel : List Token → List Token → Prop) (depth : Nat) (exact : Prop)
    (found : Array Statement) (d : Cursor) (found' : Array Statement) (d' : Cursor) : Prop :=
  M.Alike Telling.statements found.toList found'.toList ∧ M.Abreast rel depth exact d d'

theorem Alike.push {found found' : Array Statement} {s s' : Statement}
    (h : M.Alike Telling.statements found.toList found'.toList) (hs : M.Alike Telling.statement s s') :
    M.Alike Telling.statements (found.push s).toList (found'.push s').toList := by
  unfold Alike at h hs ⊢
  have hhides : M.left.hides s = M.right.hides s' := by
    rw [← M.left.hides_statement, hs, Telling.hides_statement]
    rfl
  rw [Array.toList_push, Array.toList_push, Telling.statements_append, Telling.statements_append, h,
    Telling.statements_singleton, Telling.statements_singleton, hhides, hs]

/-- Blanks and comments of the left script that are not compared. -/
theorem leads_hidden (g : Groups) (closer : Option Closer) (hcomments : M.comments = false)
    {gs : List Token} (hgs : ∀ t ∈ gs, t.kind.isTrivia) (hrest : c.rest = gs ++ ts)
    (found : Array Statement) :
    ∃ found₀, Leads (statementsRound g closer) (found, c) (found₀, { c with rest := ts }) ∧
      M.left.statements found₀.toList = M.left.statements found.toList := by
  induction gs generalizing c found with
  | nil =>
      refine ⟨found, ?_, rfl⟩
      rw [← show c.rest = ts from hrest]
      exact .refl _
  | cons t gs ih =>
      have hgs' : ∀ u ∈ gs, u.kind.isTrivia := fun u hu => hgs u (List.mem_cons_of_mem t hu)
      have hrest : c.rest = t :: (gs ++ ts) := hrest
      rcases TokenKind.isTrivia_iff.mp (hgs t List.mem_cons_self) with hkind | hkind
      · obtain ⟨found₀, hleads, hview⟩ := ih (c := { c with rest := gs ++ ts }) hgs' rfl found
        exact ⟨found₀, (leads_separator g closer found hrest (by rw [hkind]; rfl)).trans hleads, hview⟩
      · obtain ⟨found₀, hleads, hview⟩ := ih (c := { c with rest := gs ++ ts }) hgs' rfl
          (found.push (.trivia t.text t.span))
        refine ⟨found₀, (leads_comment g closer found hrest hkind).trans hleads, hview.trans ?_⟩
        have hhidden : M.left.hides (.trivia t.text t.span) = true := by
          rw [View.hides, left, hcomments]
          rfl
        rw [Array.toList_push, Telling.statements_append, Telling.statements_singleton, if_pos hhidden,
          List.append_nil]

theorem leads_blanks (g : Groups) (closer : Option Closer) {gs : List Token}
    (hgs : ∀ t ∈ gs, t.kind = .whitespace) (hrest : c.rest = gs ++ ts) (found : Array Statement) :
    Leads (statementsRound g closer) (found, c) (found, { c with rest := ts }) := by
  induction gs generalizing c with
  | nil =>
      rw [← show c.rest = ts from hrest]
      exact .refl _
  | cons t gs ih =>
      have hrest : c.rest = t :: (gs ++ ts) := hrest
      have hgs' : ∀ u ∈ gs, u.kind = .whitespace := fun u hu => hgs u (List.mem_cons_of_mem t hu)
      have hseparates : separates t.kind := by
        rw [hgs t List.mem_cons_self]
        rfl
      exact (leads_separator g closer found hrest hseparates).trans
        (ih (c := { c with rest := gs ++ ts }) hgs' rfl)

/-- Two loops over statements come to the next statement, or to the end of the left script, with the same
comments that count. -/
theorem leads_settled (g g' : Groups) (closer closer' : Option Closer) (h : M.Beside free ts ts')
    {found found' : Array Statement} (hrest : c.rest = ts) (hrest' : c'.rest = ts')
    (hfound : M.Found anywhere depth exact found c found' c') :
    ∃ found₀ c₀ found₀' c₀', Leads (statementsRound g closer) (found, c) (found₀, c₀) ∧
      Leads (statementsRound g' closer') (found', c') (found₀', c₀') ∧
      M.Found M.Settled depth exact found₀ c₀ found₀' c₀' ∧
      ∀ k, c₀.kind? = some k → separates k = false ∧ k ≠ .comment := by
  induction h generalizing c c' found found' with
  | nil =>
      refine ⟨found, c, found', c', .refl _, .refl _, ⟨hfound.1, hfound.2.imp (fun _ => ?_) id⟩, ?_⟩
      · rw [hrest, hrest']
        exact .ends
      · intro k hk
        cases (kind?_of_rest_nil hrest).symm.trans hk
  | @cons free t t' ts ts' hsame hbeside ih =>
      obtain ⟨halike, hc⟩ := hfound
      have hsingle : c.rest = [t] ++ ts := hrest
      by_cases hseparates : separates t.kind
      · have hbracket := isBracket_of_separates hseparates
        obtain ⟨found₀, c₀, found₀', c₀', hleads, hleads', h⟩ :=
          @ih { c with rest := ts } { c' with rest := ts' } found found' rfl rfl
            ⟨halike, hc.drop hsingle (by simpa using hbracket) trivial⟩
        exact ⟨found₀, c₀, found₀', c₀', (leads_separator g closer found hrest hseparates).trans hleads,
          (leads_separator g' closer' found' hrest' (by rwa [hsame.kind_eq])).trans hleads', h⟩
      by_cases hcomment : t.kind = .comment
      · have halike' : M.Alike Telling.statements (found.push (.trivia t.text t.span)).toList
            (found'.push (.trivia t'.text t'.span)).toList := by
          refine halike.push ?_
          rw [Alike, Telling.statement_trivia, Telling.statement_trivia, hsame.span_eq, hsame.text_eq,
            right_text]
        obtain ⟨found₀, c₀, found₀', c₀', hleads, hleads', h⟩ :=
          @ih { c with rest := ts } { c' with rest := ts' } _ _ rfl rfl
            ⟨halike', hc.drop hsingle (by simp [hcomment, TokenKind.isBracket,
              TokenKind.isOpener, TokenKind.isCloser]) trivial⟩
        exact ⟨found₀, c₀, found₀', c₀', (leads_comment g closer found hrest hcomment).trans hleads,
          (leads_comment g' closer' found' hrest' (by rwa [hsame.kind_eq])).trans hleads', h⟩
      · have hblank : t.kind ≠ .whitespace := by
          rintro hblank
          rw [hblank] at hseparates
          exact hseparates rfl
        rw [Token.leaves_of_ne hblank] at hbeside
        refine ⟨found, c, found', c', .refl _, .refl _, ⟨halike, hc.imp (fun _ => ?_) id⟩, ?_⟩
        · rw [hrest, hrest']
          exact .meets hsame hblank hbeside
        · intro k hk
          obtain rfl := Option.some.inj ((kind?_of_rest hrest).symm.trans hk)
          exact ⟨Bool.not_eq_true _ ▸ hseparates, hcomment⟩
  | @emptied _ o _ _ _ _ _ _ hgroup hbeside _ =>
      have hopener := hgroup.isOpener
      refine ⟨found, c, found', c', .refl _, .refl _, ⟨hfound.1, hfound.2.imp (fun _ => ?_) id⟩, ?_⟩
      · rw [hrest, hrest']
        exact .emptied hgroup hbeside
      · intro k hk
        obtain rfl := Option.some.inj ((kind?_of_rest hrest).symm.trans hk)
        refine ⟨separates_of_isOpener hopener, fun hcomment => ?_⟩
        rw [hcomment] at hopener
        cases hopener
  | @gap gs gs' ts ts' hgap _ _ ih =>
      obtain ⟨halike, hc⟩ := hfound
      obtain ⟨found₁, hhidden, hview⟩ :=
        leads_hidden g closer hgap.comments_eq hgap.trivia hrest found
      have halike' : M.Alike Telling.statements found₁.toList found'.toList := hview.trans halike
      have hbracket (t : Token) (ht : t ∈ gs) : t.kind.isBracket = false :=
        TokenKind.isBracket_of_isSpacing _ (TokenKind.isSpacing_of_isTrivia _ (hgap.trivia t ht))
      obtain ⟨found₀, c₀, found₀', c₀', hleads, hleads', h⟩ :=
        @ih { c with rest := ts } { c' with rest := ts' } found₁ found' rfl rfl
          ⟨halike', hc.drop hrest hbracket trivial⟩
      exact ⟨found₀, c₀, found₀', c₀', hhidden.trans hleads,
        (leads_blanks g' closer' hgap.blanks hrest' found').trans hleads', h⟩

/-- A list of statements ends here: at its closer, or with the script. -/
def Stops (closer : Option Closer) (ts : List Token) : Prop :=
  ts = [] ∨ ∃ t us, ts = t :: us ∧ closer.map closerKind = some t.kind

theorem stops_none {ts : List Token} : Stops none ts ↔ ts = [] := by
  refine ⟨?_, .inl⟩
  rintro (h | ⟨_, _, -, h⟩)
  · exact h
  · cases h

theorem closerKind_spec {k : TokenKind} (h : closer.map closerKind = some k) :
    separates k = false ∧ k ≠ .comment ∧ k.endsStatement := by
  obtain ⟨cl, -, rfl⟩ := Option.map_eq_some_iff.mp h
  cases cl <;> exact ⟨rfl, by simp [closerKind], rfl⟩

theorem statementsRound_of_stops (g : Groups) (found : Array Statement) (h : Stops closer c.rest) :
    statementsRound g closer found c = .ok (.done found, c) := by
  have hskip : c.skip separates = c := by
    rcases h with hrest | ⟨t, ts, hrest, hcloser⟩
    · exact skip_of_rest_nil hrest
    · exact skip_of_rest hrest (closerKind_spec hcloser).1
  rw [statementsRound, skip_bind_run, get_bind_run, hskip]
  rcases h with hrest | ⟨t, ts, hrest, hcloser⟩
  · rw [hrest]
    rfl
  · rw [hrest]
    dsimp only
    rw [if_neg (closerKind_spec hcloser).2.1, if_pos hcloser]
    rfl

/-- No statement starts at a closer. -/
theorem statement_of_ends (g : Groups) (hrest : c.rest = t :: ts) (hends : t.kind.endsStatement) :
    statement g c = .ok (none, c) := by
  have hword : t.kind ≠ .word := fun h => by rw [h] at hends; cases hends
  have hcall : t.kind ≠ .ampersand := fun h => by rw [h] at hends; cases hends
  have hblank : t.kind ≠ .whitespace := fun h => by rw [h] at hends; cases hends
  have hstage : stage g c = .ok (none, c) := by
    rw [stage_of_ne hrest hblank hcall hword]
    refine expressionStage_of_ends g fun k hk => ?_
    obtain rfl := Option.some.inj ((kind?_of_rest hrest).symm.trans hk)
    exact hends
  rw [statement_of_not_word hrest hword, pipelineStatement, bind_run, hstage]
  rfl

/-- The token ahead is still the same in both scripts, and reported, or it is passed in both. -/
theorem reportIfAt_agrees {start start' : Nat} (hstart : start' = M.offset start)
    (hc : M.Abreast (M.Beside true) depth exact c c') (hle : start ≤ c.offset)
    (h : M.Abreast M.Settled depth exact c c' ∨ start < c.offset) :
    M.Agree (reportIfAt start) c (reportIfAt start') c' fun _ d _ d' =>
      M.Abreast (M.Beside true) depth exact d d' := by
  have hiff : c'.offset = start' ↔ c.offset = start := by
    rw [hstart, hc.offset_eq]
    exact ⟨fun heq => (hc.offset_apart start hle heq.symm).symm, congrArg M.offset⟩
  rw [reportIfAt, reportIfAt, agree_get_bind]
  simp only [hiff]
  split
  case isTrue hat =>
    rcases h with h | h
    · exact agree_reportUnexpected h
    · exact absurd hat (Nat.ne_of_gt h)
  case isFalse => exact .pure hc

/-- A stray closer is reported. -/
theorem not_quiet_of_stray {found : Array Statement} {r : ForInStep (Array Statement)} {d : Cursor}
    (hall : ∀ f, M.excluded f) (hrest : c.rest = t :: ts) (hends : t.kind.endsStatement)
    (hrun : (do
      let s ← statement g
      reportIfAt t.start
      return .yield (found ++ s.toArray) : Parser (ForInStep (Array Statement))) c = .ok (r, d)) :
    ¬M.Quiet d := by
  obtain ⟨s, e, hstatement, hrun⟩ := bind_eq_ok.mp hrun
  rw [statement_of_ends g hrest hends] at hstatement
  cases hstatement
  obtain ⟨_, e, hreport, hrun⟩ := bind_eq_ok.mp hrun
  cases hrun
  have hat : reportIfAt t.start c = reportUnexpected c := by
    show (if c.offset = t.start then _ else _ : Parser Unit) c = _
    rw [if_pos (offset_eq_start hrest)]
  exact not_quiet_of_reportUnexpected hrest (hall _) (hat ▸ hreport)

/-- A statement that is read alike adds to what has been found so far. -/
theorem agree_found {start start' : Nat} (hstart : start' = M.offset start) (hoffset : c.offset = start)
    (hstatement : M.Agree (statement g) c (statement g') c' fun s d s' d' =>
      M.Read (M.Beside true) Telling.statement depth exact s d s' d' ∧ Stated c s d)
    {found found' : Array Statement} (halike : M.Alike Telling.statements found.toList found'.toList) :
    M.Agree (do
      let s ← statement g
      reportIfAt start
      return ForInStep.yield (found ++ s.toArray)) c (do
      let s ← statement g'
      reportIfAt start'
      return ForInStep.yield (found' ++ s.toArray)) c' fun r d r' d' =>
        ∃ as bs, r = .yield as ∧ r' = .yield bs ∧ M.Found (M.Beside true) depth exact as d bs d' := by
  refine hstatement.bind (fun _ => keeps_bind (keeps_reportIfAt _) fun _ => keeps_pure _) ?_
  rintro (_ | s) d (_ | s') d' ⟨hread, hstated⟩
  · have hle : start ≤ d.offset := hoffset ▸ Reaches.offset_le hstated
    refine (reportIfAt_agrees hstart hread.beside hle (.inl hread)).bind
      (fun _ => keeps_pure _) fun _ e _ e' he => .pure ⟨_, _, rfl, rfl, ?_, he⟩
    simpa using halike
  · exact hread.elim
  · exact hread.elim
  · have hlt : start < d.offset := by
      rw [← hoffset]
      exact Passes.offset_lt hstated
    refine (reportIfAt_agrees hstart (hread.2.imp id fun _ => trivial) (Nat.le_of_lt hlt) (.inr hlt)).bind
      (fun _ => keeps_pure _) fun _ e _ e' he => .pure ⟨_, _, rfl, rfl, ?_, he⟩
    simpa using halike.push hread.1

theorem statementsRound_agrees (hg : M.Levels depth g g')
    (hclosers : closer' = closer ∨ closer = none ∧ ∀ f, M.excluded f)
    {found found' : Array Statement} (h : M.Found M.Settled depth exact found c found' c')
    (hhead : ∀ k, c.kind? = some k → separates k = false ∧ k ≠ .comment) :
    M.Agree (statementsRound g closer found) c (statementsRound g' closer' found') c'
      (Onward (M.Found (M.Beside true) depth exact)
        (fun found d found' d' => M.Found M.Settled depth exact found d found' d' ∧
          Stops closer d.rest) found' c') := by
  obtain ⟨halike, hc⟩ := h
  by_cases hstops : Stops closer c.rest
  · intro r d s d' hrun _ _
    rw [statementsRound_of_stops g found hstops] at hrun
    cases hrun
    exact ⟨⟨halike, hc⟩, hstops⟩
  cases hrest : c.rest with
  | nil => exact absurd (.inl hrest) hstops
  | cons t ts =>
      obtain ⟨t', ts', hrest', hmet⟩ := hc.meet hrest
      have hk := kind?_of_rest hrest
      obtain ⟨hseparates, hcomment⟩ := hhead _ hk
      have hskip : c.skip separates = c := skip_of_rest hrest hseparates
      have hskip' : c'.skip separates = c' := skip_of_rest hrest' (by rwa [hmet.kind_eq])
      have hcloser : closer.map closerKind ≠ some t.kind := fun h =>
        hstops (.inr ⟨t, ts, hrest, h⟩)
      rw [statementsRound, statementsRound, agree_skip_bind, hskip, hskip', agree_get_bind, hrest,
        hrest']
      dsimp only
      rw [hmet.kind_eq, if_neg hcomment, if_neg hcomment, if_neg hcloser]
      split_ifs with hcloser'
      -- a closer that closes the right list is a stray one in the left list
      · have hall : ∀ f, M.excluded f := by
          rcases hclosers with h | h
          · exact absurd (h ▸ hcloser') hcloser
          · exact h.2
        intro r d s d' hrun _ hquiet
        exact absurd hquiet (not_quiet_of_stray hall hrest (closerKind_spec hcloser').2.2 hrun)
      · refine (agree_found hmet.start_eq (offset_eq_start hrest)
          ((statement_agrees hg hc).and_ends (statement_ends hg.safe hc.sound)) halike).mono ?_
        rintro _ d _ d' ⟨as, bs, rfl, rfl, hfound⟩
        exact hfound

/-- Where the left list of statements ends the loop over the right one has come to the same place, with
the same statements found. -/
theorem statements_lead (hg : M.Levels depth g g')
    (hclosers : closer' = closer ∨ closer = none ∧ ∀ f, M.excluded f)
    {found found' : Array Statement} (h : M.Found (M.Beside free) depth exact found c found' c')
    {n n' : Nat} {r : Array Statement} {d : Cursor} {x' : Array Statement × Cursor}
    (hrun : rounds (statementsRound g closer) n found c = .ok (r, d))
    (hrun' : rounds (statementsRound g' closer') n' found' c' = .ok x') (hquiet : M.Quiet d) :
    ∃ r' d', Leads (statementsRound g' closer') (found', c') (r', d') ∧
      M.Found M.Settled depth exact r d r' d' ∧ Stops closer d.rest := by
  refine exists_leads (M := M) (I := M.Found (M.Beside true) depth exact)
    (F := fun r d r' d' => M.Found M.Settled depth exact r d r' d' ∧ Stops closer d.rest)
    (keeps_statementsRound hg.add closer) ?_ ⟨h.1, h.2.imp Beside.weaken id⟩ hrun hrun' hquiet
  intro found c found' c' hfound
  obtain ⟨found₀, c₀, found₀', c₀', hleads, hleads', hfound₀, hhead⟩ :=
    leads_settled g g' closer closer' hfound.2.ahead rfl rfl
      ⟨hfound.1, hfound.2.imp (fun _ => trivial) id⟩
  exact ⟨found₀, c₀, found₀', c₀', hleads, hleads', statementsRound_agrees hg hclosers hfound₀ hhead⟩

/-- Two loops over statements that have come to their ends, unless the left script ends where the right
list does not. -/
theorem found_of_rounds (hg : M.Levels depth g g')
    (hclosers : closer' = closer ∨ closer = none ∧ ∀ f, M.excluded f)
    {found found' : Array Statement} (h : M.Found (M.Beside free) depth exact found c found' c')
    {n n' : Nat} {r r' : Array Statement} {d d' : Cursor}
    (hrun : rounds (statementsRound g closer) n found c = .ok (r, d))
    (hrun' : rounds (statementsRound g' closer') n' found' c' = .ok (r', d')) (hquiet : M.Quiet d) :
    (d.rest = [] ∧ ¬Stops closer' M.tail) ∨
      M.Found M.Settled depth exact r d r' d' ∧ Stops closer d.rest := by
  obtain ⟨b, e, hleads, ⟨halike, he⟩, hstops⟩ := statements_lead hg hclosers h hrun hrun' hquiet
  by_cases hend : d.rest = [] ∧ ¬Stops closer' M.tail
  · exact .inl hend
  · have hstops' : Stops closer' e.rest := by
      rcases hstops with hrest | ⟨t, us, hrest, hcloser⟩
      · rw [he.rest_eq_tail hrest]
        exact not_not.mp fun h => hend ⟨hrest, h⟩
      · obtain ⟨t', us', hrest', hmet⟩ := he.meet hrest
        rcases hclosers with rfl | ⟨rfl, -⟩
        · exact .inr ⟨t', us', hrest', by rwa [hmet.kind_eq]⟩
        · cases hcloser
    obtain ⟨m, -, hrun'⟩ := hleads _ _ hrun'
    obtain ⟨k, s, f, rfl, hbody, hrest⟩ := Leads.rounds_eq_ok hrun'
    rw [statementsRound_of_stops g' b hstops'] at hbody
    cases hbody
    cases hrest
    exact .inr ⟨⟨halike, he⟩, hstops⟩

/-- A list of statements is read in a loop that has found nothing yet. -/
theorem statements_eq_ok {body : List Statement} (h : statements g closer c = .ok (body, c')) :
    ∃ n r, rounds (statementsRound g closer) n #[] c = .ok (r, c') ∧ r.toList = body := by
  obtain ⟨r, d, hrounds, hreturn⟩ := bind_eq_ok.mp h
  cases hreturn
  exact ⟨_, r, hrounds, rfl⟩

/-- Two lists of statements, unless the left script ends where the right list does not. -/
theorem statements_agrees (hg : M.Levels depth g g')
    (hclosers : closer' = closer ∨ closer = none ∧ ∀ f, M.excluded f)
    (hc : M.Abreast (M.Beside free) depth exact c c') :
    M.Agree (statements g closer) c (statements g' closer') c' fun body d body' d' =>
      (d.rest = [] ∧ ¬Stops closer' M.tail) ∨
        M.Alike Telling.statements body body' ∧ M.Abreast M.Settled depth exact d d' := by
  intro body d body' d' hrun hrun' hquiet
  obtain ⟨_, _, hrounds, rfl⟩ := statements_eq_ok hrun
  obtain ⟨_, _, hrounds', rfl⟩ := statements_eq_ok hrun'
  have hempty : M.Found (M.Beside free) depth exact #[] c #[] c' :=
    ⟨by rw [Alike, Telling.statements_nil, Telling.statements_nil], hc⟩
  exact (found_of_rounds hg hclosers hempty hrounds hrounds' hquiet).imp_right And.left

end ScriptLint.Mirror
