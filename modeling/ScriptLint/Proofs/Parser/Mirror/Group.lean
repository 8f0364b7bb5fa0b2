import ScriptLint.Proofs.Parser.Mirror.List
import ScriptLint.Proofs.Parser.Skipping

/-!
Hashtables and groups are read alike in two scripts side by side. Where the left script ends inside a
group, the right one may go on with tokens of its own; the left run is then about to report that the
closer is missing, so that nothing has to be said of the right one. A group past the last level is passed
over up to the same closer in both scripts, and so is the group that stands empty in the right one.
-/

namespace ScriptLint.Mirror

open ScriptLint.Parser ScriptLint.Parse Cursor

variable {M : Mirror} {α β γ δ : Type} {g g' : Groups} {depth : Nat} {exact : Prop} {c c' : Cursor}
  {t t' : Token} {ts ts' gs : List Token} {free : Bool}

theorem mem_of_keyOf? {key : List Char} {tail : String} (h : keyOf? t = some key)
    (htext : t.text = String.ofList key ++ tail) : '=' ∈ tail.toList := by
  unfold keyOf? at h
  obtain ⟨⟨-, -, hlength⟩, h⟩ := Option.ite_none_right_eq_some.mp h
  obtain rfl := Option.some.inj h
  have hsplit := List.takeWhile_append_dropWhile (p := fun c => decide (c ≠ '=')) (l := t.text.toList)
  have htail : tail.toList = t.text.toList.dropWhile fun c => decide (c ≠ '=') := by
    have htext := congrArg String.toList htext
    rw [String.toList_append, String.toList_ofList] at htext
    exact List.append_cancel_left (htext.symm.trans hsplit.symm)
  rw [htail]
  cases hdrop : t.text.toList.dropWhile fun c => decide (c ≠ '=') with
  | nil =>
      rw [hdrop, List.append_nil] at hsplit
      rw [hsplit] at hlength
      exact absurd hlength (Nat.lt_irrefl _)
  | cons c cs =>
      have hc := List.head?_dropWhile_not (fun c => decide (c ≠ '=')) t.text.toList
      rw [hdrop] at hc
      have : c = '=' := by simpa using hc
      rw [this]
      exact List.mem_cons_self

theorem cutKey_agrees (hc : M.Abreast M.Settled depth exact c c') (hrest : c.rest = t :: ts)
    (hrest' : c'.rest = t' :: ts') (hmet : M.Met t t') :
    M.Agree (cutKey t) c (cutKey t') c' fun _ d _ d' => M.Abreast M.Settled depth exact d d' := by
  unfold cutKey
  rw [Telling.keyOf?_eq hmet.kind_eq hmet.text_eq]
  cases hkey : keyOf? t with
  | none => exact .pure hc
  | some key =>
    obtain ⟨hword, tail, htext, hhead, htail⟩ := keyOf?_eq_some hkey
    obtain ⟨u', us', hrest'', -, htext', hsize, hcut⟩ :=
      hc.cut hrest hword htext hhead htail (.inr (mem_of_keyOf? hkey htext))
    rw [hrest'] at hrest''
    cases hrest''
    have hvalid' : String.Pos.Raw.IsValid t'.text ⟨(String.ofList key).utf8ByteSize⟩ :=
      String.Pos.Raw.isValid_iff_exists_append.mpr
        ⟨_, _, htext', congrArg String.Pos.Raw.mk hsize.symm⟩
    rw [Option.map_some]
    dsimp only
    rw [String.ofList_toList, hsize]
    intro _ _ _ _ hrun hrun' _
    rw [cut_of_append hrest htext] at hrun
    rw [cut_of_rest hrest' hvalid'] at hrun'
    cases hrun
    cases hrun'
    exact hcut

variable (M) in
/-- What two loops have gathered inside a group, unless the left script has ended there. -/
def Inside {α β : Type} (rel : List Token → List Token → Prop) (f : Telling → α → β) (depth : Nat)
    (as : Array α) (d : Cursor) (bs : Array α) (d' : Cursor) : Prop :=
  (d.rest = [] ∧ M.tail ≠ []) ∨ M.Collected rel f depth as d bs d'

theorem entryValue_agrees (hg : M.Levels depth g g') {key key' : Expression}
    (hkey : M.Alike Telling.expression key key') {found found' : Array Entry}
    (h : M.Collected (M.Beside true) Telling.entry depth found c found' c') :
    M.Agree (entryValue g key found) c (entryValue g' key' found') c'
      (M.Inside (M.Beside true) Telling.entry depth) := by
  obtain ⟨hfound, hc⟩ := h
  rw [entryValue, entryValue, agree_skipBlanks_bind, agree_get_bind]
  rcases hc.skipBlanks_or with hskip | ⟨-, ⟨t, us, hrest, hkind, hexcluded⟩, -⟩
  · cases hrest : c.skipBlanks.rest with
    | nil =>
        by_cases htail : M.tail = []
        · rw [hskip.rest_eq_tail hrest, htail]
          exact .pure (.inr ⟨hfound, hskip.beside⟩)
        · intro _ _ _ _ hrun _ _
          cases hrun
          exact .inl ⟨hrest, htail⟩
    | cons t ts =>
        obtain ⟨t', ts', hrest', hmet⟩ := hskip.meet hrest
        have hequals : t'.text.toList.head? = some '=' ↔ t.text.toList.head? = some '=' := by
          rw [hmet.text_eq]
          exact Telling.head?_text rfl
        rw [hrest']
        dsimp only
        simp only [hmet.kind_eq, hequals]
        split_ifs with hassign hends
        · obtain ⟨tail, htext⟩ := exists_behind_equals hassign.2
          refine (passOperator_agrees hskip hrest hassign.1 htext rfl).bind
            (fun _ => keeps_return (keeps_assignedValue hg.add _)) ?_
          rintro u d u' d' ⟨hsame', hd⟩
          refine .map ((assignedValue_agrees hg hd (by rw [hsame'.stop_eq, right_offset])).mono ?_)
          rintro value e value' e' ⟨hvalue, he⟩
          refine .inr ⟨hfound.push ?_, he.beside⟩
          unfold Alike at hkey hvalue
          simp only [Alike, Telling.entry_mk, hkey, hvalue]
        · exact .pure (.inr ⟨hfound, hskip.beside⟩)
        · exact (agree_reportUnexpected hskip).bind (fun _ => keeps_pure _) fun _ d _ d' hd =>
            .pure (.inr ⟨hfound, hd⟩)
  -- a comment that faces blanks is not reported
  · have hword : t.kind ≠ .word := fun h => by rw [hkind] at h; cases h
    have hends : ¬endsKey t.kind := by
      rw [hkind]
      exact Bool.false_ne_true
    rw [hrest]
    dsimp only
    rw [if_neg fun h => hword h.1, if_neg hends]
    intro _ d _ _ hrun _ hquiet
    obtain ⟨_, e, hreport, hreturn⟩ := bind_eq_ok.mp hrun
    cases hreturn
    exact absurd hquiet (not_quiet_of_reportUnexpected hrest hexcluded hreport)

/-- Where the left script ends, its hashtable has no further entry. What stands behind it in the right
script does not matter. -/
theorem hashtableRound_of_ended {found found' : Array Entry}
    (hrest : (c.skip separatesEntries).rest = []) (htail : M.tail ≠ []) :
    M.Agree (hashtableRound g found) c (hashtableRound g' found') c'
      (Rounds (M.Inside (M.Beside true) Telling.entry depth)
        (M.Inside M.Settled Telling.entry depth)) := by
  have hround : hashtableRound g found c = .ok (.done found, c.skip separatesEntries) := by
    rw [hashtableRound, skip_bind_run, get_bind_run, hrest]
    rfl
  intro r d s d' hrun _ _
  rw [hround] at hrun
  cases hrun
  cases s with
  | done => exact .inl ⟨hrest, htail⟩
  | yield => exact fun _ _ => .inl ⟨hrest, htail⟩

/-- Behind what separates entries the next token is the same, unless the left script has ended. -/
theorem Abreast.skipSeparators (hc : M.Abreast (M.Beside true) depth True c c') :
    M.Abreast M.Settled depth True (c.skip separatesEntries) (c'.skip separatesEntries) ∨
      (c.skip separatesEntries).rest = [] ∧ M.tail ≠ [] := by
  have htrivia (k : TokenKind) (hk : k.isTrivia) : separatesEntries k := by
    cases k <;> first | rfl | cases hk
  have hbracket (k : TokenKind) (hk : separatesEntries k) : k.isBracket = false := by
    cases k <;> first | rfl | cases hk
  have hon (h : M.Settled (c.skip separatesEntries).rest (c'.skip separatesEntries).rest) :
      M.Abreast M.Settled depth True (c.skip separatesEntries) (c'.skip separatesEntries) :=
    hc.on (hc.sound.reaches_skip _) h (deepest_dropWhile_le hbracket depth c.rest)
  rcases hc.ahead.dropWhile htrivia hbracket with h | ⟨hrest, hrest'⟩
  · exact .inl (hon h)
  by_cases htail : M.tail = []
  · have hends : M.Settled [] M.tail := .ends
    refine .inl (hon ?_)
    show M.Settled (c.rest.dropWhile _) (c'.rest.dropWhile _)
    rw [hrest, hrest', htail]
    rwa [htail] at hends
  · exact .inr ⟨hrest, htail⟩

theorem hashtableRound_agrees (hg : M.Levels depth g g') {found found' : Array Entry}
    (h : M.Inside (M.Beside true) Telling.entry depth found c found' c') :
    M.Agree (hashtableRound g found) c (hashtableRound g' found') c'
      (Rounds (M.Inside (M.Beside true) Telling.entry depth)
        (M.Inside M.Settled Telling.entry depth)) := by
  rcases h with ⟨hrest, htail⟩ | ⟨hfound, hc⟩
  · exact hashtableRound_of_ended (by rw [Cursor.skip, hrest]; rfl) htail
  rcases hc.skipSeparators with hskip | ⟨hrest, htail⟩
  case inr => exact hashtableRound_of_ended hrest htail
  cases hrest : (c.skip separatesEntries).rest with
  | nil =>
      by_cases htail : M.tail = []
      · have hrest' := hskip.rest_eq_tail hrest
        rw [hashtableRound, hashtableRound, agree_skip_bind, agree_get_bind, hrest, hrest', htail]
        exact .pure (.inr ⟨hfound, hskip⟩)
      · exact hashtableRound_of_ended hrest htail
  | cons t ts =>
      obtain ⟨t', ts', hrest', hmet⟩ := hskip.meet hrest
      rw [hashtableRound, hashtableRound, agree_skip_bind, agree_get_bind, hrest, hrest']
      dsimp only
      rw [hmet.kind_eq]
      split_ifs with hclose
      · exact .pure (.inr ⟨hfound, hskip⟩)
      · refine (cutKey_agrees hskip hrest hrest' hmet).bind (fun _ =>
          keeps_bind (keeps_primary hg.add) fun key? => ?_) ?_
        · cases key? <;> simp [keeps_entryValue hg.add]
        intro _ d _ d' hd
        refine (primary_agrees hg hd).bind
          (fun key? => by cases key? <;> simp [keeps_entryValue hg.add]) ?_
        rintro (_ | key) e (_ | key') e' hread
        · exact (agree_reportUnexpected hread).bind (fun _ => keeps_pure _) fun _ f _ f' hf =>
            .pure (.inr ⟨hfound, hf⟩)
        · exact hread.elim
        · exact hread.elim
        · exact .map (entryValue_agrees hg hread.1 ⟨hfound, hread.2⟩)

/-- What has been read inside a group up to its closer, unless the left script has ended there. -/
def Enclosed (M : Mirror) {α β : Type} (f : Telling → α → β) (depth : Nat) (a : α) (d : Cursor) (a' : α)
    (d' : Cursor) : Prop :=
  (d.rest = [] ∧ M.tail ≠ []) ∨ M.Passed M.Settled f depth a d a' d'

/-- Entries the first of which are read alike. -/
theorem entries_agrees_of_first (hg : M.Levels depth g g')
    (hfirst : M.Agree (hashtableRound g #[]) c (hashtableRound g' #[]) c'
      (Rounds (M.Inside (M.Beside true) Telling.entry depth) (M.Inside M.Settled Telling.entry depth))) :
    M.Agree (entries g) c (entries g') c' (M.Enclosed (fun v => List.map v.entry) depth) := by
  refine (agree_repeating_of_first (keeps_hashtableRound hg.add) hfirst fun _ c _ c' h =>
    ⟨c, c', .refl _, .refl _, hashtableRound_agrees hg h⟩).bind (fun _ => keeps_pure _) ?_
  rintro found d found' d' (hended | ⟨hfound, hd⟩)
  · exact .pure (.inl hended)
  · exact .pure (.inr ⟨hfound, hd⟩)

theorem entries_agrees (hg : M.Levels depth g g') (hc : M.Abreast (M.Beside true) depth True c c') :
    M.Agree (entries g) c (entries g') c' (M.Enclosed (fun v => List.map v.entry) depth) :=
  entries_agrees_of_first hg (hashtableRound_agrees hg (.inr ⟨.nil, hc⟩))

section

variable {closer : Closer} {f : Nat → Parser γ} {f' : Nat → Parser δ}
  {R : γ → Cursor → δ → Cursor → Prop}

theorem expectCloser_of_missing (hk : c.kind? ≠ some (closerKind closer)) :
    expectCloser closer c = .ok (c.size, c.report (.missingCloser closer) (.empty c.size)) := by
  show (if c.kind? = some (closerKind closer) then _ else _ : Parser Nat) c = _
  rw [if_neg hk]
  rfl

theorem expectCloser_of_rest (hrest : c.rest = t :: ts) (hk : t.kind = closerKind closer) :
    expectCloser closer c = .ok (t.stop, c.pass t ts) := by
  show (if c.kind? = some (closerKind closer) then _ else _ : Parser Nat) c = _
  rw [if_pos ((kind?_of_rest hrest).trans (congrArg some hk)), bind_run, advance_of_rest hrest]
  rfl

/-- Nothing is said of the right run where the closer is missing, if this is not to be reported. -/
theorem agree_of_missing {m' : Parser δ} (hk : c.kind? ≠ some (closerKind closer))
    (hall : ∀ f, M.excluded f) (hadds : ∀ n, Adds (f n)) :
    M.Agree (expectCloser closer >>= f) c m' c' R := by
  intro x e y e' hrun _ hquiet
  rw [bind_run, expectCloser_of_missing hk] at hrun
  exact absurd (hquiet.of_adds (hadds _) hrun) (not_quiet_report (hall _))

/-- A group is closed in both scripts, or in neither. -/
theorem agree_expectCloser_bind (hadds : ∀ n, Adds (f n))
    (hc : M.Abreast M.Settled (depth + 1) True c c')
    (hf : ∀ n d d', M.Abreast (M.Beside true) depth True d d' →
      M.Agree (f n) d (f' (M.offset n)) d' R) :
    M.Agree (expectCloser closer >>= f) c (expectCloser closer >>= f') c' R := by
  by_cases hk : c.kind? = some (closerKind closer)
  · obtain ⟨t, ts, hrest, hkind⟩ := kind?_eq_some.mp hk
    obtain ⟨t', ts', hrest', hsame, hpass⟩ := hc.pass hrest (by rw [hkind]; cases closer <;> rfl)
    have hbehind : depthBehind (depth + 1) t.kind = depth := by
      rw [hkind]
      cases closer <;> rfl
    have hspacing : t.kind.isSpacing = false := by
      rw [hkind]
      cases closer <;> rfl
    rw [hbehind] at hpass
    refine .bind_of_ok (expectCloser_of_rest hrest hkind)
      (expectCloser_of_rest hrest' (hsame.kind_eq.trans hkind)) ?_
    rw [hsame.stop_eq]
    exact hf _ _ _ (hpass.imp Beside.weaken fun _ => .inr hspacing)
  by_cases hall : M.tail ≠ [] ∨ M.limit?.isSome
  · exact agree_of_missing hk (M.excluded_all hall) hadds
  · obtain ⟨htail, hlimit⟩ := not_or.mp hall
    rw [not_not] at htail
    have hk' : c'.kind? ≠ some (closerKind closer) := by
      rcases hc.kind?_eq with hkind | ⟨hrest, -⟩
      · rwa [hkind]
      · rw [kind?, hc.rest_eq_tail hrest, htail]
        exact (Option.some_ne_none _).symm
    have hsize : c'.size = M.offset c.size := by rw [hc.size_eq', M.size_eq htail, hc.size_eq]
    have hspan : M.right.span (.empty (M.offset c.size)) = M.left.span (.empty c.size) := rfl
    have hreport := hc.report (alike_fault (p := .missingCloser closer) (fun _ => rfl) hspan)
    refine .bind_of_ok (expectCloser_of_missing hk) (expectCloser_of_missing hk') ?_
    rw [hsize]
    exact hf _ _ _ { hreport with
      ahead := hreport.ahead.beside
      room := fun l hl => absurd (by rw [hl]; rfl) hlimit }

end

/-- The rest of a group behind its opener: what stands inside, its closer. -/
theorem closed_agrees {m m' : Parser α} {f f' : α → Span → β} {v : Telling → α → γ}
    {w : Telling → β → δ} {closer : Closer} {start start' : Nat}
    (hstart : M.right.offset start' = M.left.offset start)
    (hm : M.Agree m { c with depth := c.depth + 1 } m' { c' with depth := c'.depth + 1 }
      (M.Enclosed v (depth + 1)))
    (hf : ∀ a a' s s', M.Alike v a a' → M.right.span s' = M.left.span s →
      M.Alike w (f a s) (f' a' s')) :
    M.Agree (do
      let a ← nested m
      let stop ← expectCloser closer
      let s ← span start stop
      return f a s) c (do
      let a ← nested m'
      let stop ← expectCloser closer
      let s ← span start' stop
      return f' a s) c' (M.Passed (M.Beside true) w depth) := by
  have hadds (a : α) : Adds (do
      let stop ← expectCloser closer
      let s ← span start stop
      return f a s) :=
    keeps_bind (keeps_expectCloser closer) fun _ => keeps_return (keeps_span _ _)
  refine Agree.bind (agree_nested (Q := M.Enclosed v (depth + 1)) ?_) hadds ?_
  · refine hm.mono ?_
    rintro a d a' d' (hended | ⟨halike, hd⟩) k k'
    · exact .inl hended
    · exact .inr ⟨halike, hd.withDepth k k'⟩
  · rintro a d a' d' (⟨hrest, htail⟩ | ⟨halike, hd⟩)
    · refine agree_of_missing (fun hk => ?_) (M.excluded_all (.inl htail)) fun _ =>
        keeps_return (keeps_span _ _)
      cases (kind?_of_rest_nil hrest).symm.trans hk
    · refine agree_expectCloser_bind (fun _ => keeps_return (keeps_span _ _)) hd ?_
      intro stop e e' he
      refine agree_span_bind (.pure ⟨hf a a' ⟨start, stop⟩ ⟨start', M.offset stop⟩ halike ?_, he⟩)
      rw [View.span, hstart]
      rfl

/-- A group: its opener, what stands inside, its closer. -/
theorem group_agrees {m m' : Parser α} {f : Token → α → Span → β} {v : Telling → α → γ}
    {w : Telling → β → δ} {closer : Closer} {k : TokenKind} (hc : M.Abreast M.Settled depth exact c c')
    (hk : c.kind? = some k) (hopener : k.isOpener) (hadds : Adds m)
    (hm : ∀ {d d'}, M.Abreast (M.Beside true) (depth + 1) True d d' →
      M.Agree m d m' d' (M.Enclosed v (depth + 1)))
    (hf : ∀ t t' a a' s s', M.Same t t' → M.Alike v a a' → M.right.span s' = M.left.span s →
      M.Alike w (f t a s) (f t' a' s')) :
    M.Agree (do
      let t ← advance
      let a ← nested m
      let stop ← expectCloser closer
      let s ← span t.start stop
      return f t a s) c (do
      let t ← advance
      let a ← nested m'
      let stop ← expectCloser closer
      let s ← span t.start stop
      return f t a s) c' (M.Passed (M.Beside true) w depth) := by
  obtain ⟨t, ts, hrest, rfl⟩ := kind?_eq_some.mp hk
  obtain ⟨t', ts', hrest', hsame, hpass⟩ | ⟨_, _, _, _, _, _, -, -, hgroup, -⟩ := hc.pass_or_emptied hrest
  case inr =>
    refine agree_of_emptied hc hrest hgroup.opener (keeps_bind (keeps_nested hadds) fun _ => ?_)
    exact keeps_bind (keeps_expectCloser closer) fun _ => keeps_return (keeps_span _ _)
  have hspacing : t.kind.isSpacing = false := isSpacing_of_isOpener hopener
  have hbehind : depthBehind depth t.kind = depth + 1 := if_pos hopener
  rw [hbehind] at hpass
  have hinside : M.Abreast (M.Beside true) (depth + 1) True (c.pass t ts) (c'.pass t' ts') :=
    hpass.imp Beside.weaken fun _ => .inr hspacing
  rw [agree_advance_bind hrest hrest']
  exact closed_agrees (by rw [hsame.start_eq, right_offset]) (hm (hinside.withDepth _ _)) fun a a' s s' =>
    hf t t' a a' s s' hsame

/-- Statements up to a closer, unless the left script has ended in front of it. -/
theorem enclosed_statements_agrees (hg : M.Levels depth g g') {closer : Closer}
    (hc : M.Abreast (M.Beside true) depth True c c') :
    M.Agree (statements g (some closer)) c (statements g' (some closer)) c'
      (M.Enclosed Telling.statements depth) := by
  refine (statements_agrees hg (.inl rfl) hc).mono fun _ d _ d' h => h.imp_left ?_
  rintro ⟨hrest, hstops⟩
  exact ⟨hrest, fun htail => hstops (.inl htail)⟩

/-- The emptied group is left behind in both scripts. -/
theorem Abreast.passed {rel rel' : List Token → List Token → Prop} {o cl o' cl' : Token} {inside : List Token}
    (h : M.Abreast rel depth exact c c') (hrest : c.rest = o :: (inside ++ cl :: ts))
    (hgroup : M.Emptied o cl inside o' cl') (hrel : rel' ts ts') :
    M.Abreast rel' depth True (c.pass cl ts) (c'.pass cl' ts') := by
  have hspacing := isSpacing_of_closedBy hgroup.closed
  have hsplit : c.rest = (o :: inside) ++ cl :: ts := hrest
  have hreaches := h.sound.reaches_through hspacing hsplit
  have hspacing' : cl'.kind.isSpacing = false := by rwa [hgroup.kind_eq]
  exact { h with
    sound := hreaches.sound
    ahead := hrel
    lastEnd_eq := fun _ => by
      rw [lastEnd_pass hspacing, lastEnd_pass hspacing', hgroup.stop_eq, right_offset]
    recent := fun f hf hdeep => Nat.lt_of_lt_of_le (h.recent f hf hdeep) hreaches.offset_le
    room := fun _ hl => absurd (hgroup.unlimited.symm.trans hl) nofun }

theorem Emptied.closed' {o cl o' cl' : Token} {inside : List Token} (h : M.Emptied o cl inside o' cl') :
    o'.ClosedBy cl' := by
  rw [Token.ClosedBy, h.met.kind_eq, h.kind_eq]
  exact h.closed

/-- From inside a group its closer is found in both scripts, at the same place, or in neither. -/
theorem passGroup_agrees (htail : M.tail = []) (hlimit : M.limit? = none)
    (h : M.Beside free ts ts') {k : Nat} (hk : k ≠ 0) (hc : M.Abreast anywhere depth True c c')
    (hrest : c.rest = ts) (hrest' : c'.rest = ts') :
    (groupLength? k ts').isSome = (groupLength? k ts).isSome ∧
      ∀ d d', passTokens ((groupLength? k ts).getD ts.length) c = .ok ((), d) →
        passTokens ((groupLength? k ts').getD ts'.length) c' = .ok ((), d') →
        M.Abreast (M.Beside true) depth True d d' := by
  induction h generalizing k c c' with
  | nil =>
      rw [htail] at hrest' ⊢
      refine ⟨rfl, fun d d' hrun hrun' => ?_⟩
      cases hrun
      cases hrun'
      refine hc.imp (fun _ => ?_) id
      rw [hrest, hrest']
      simpa only [htail] using Beside.nil (M := M)
  | @cons _ t t' ts ts' hsame hbeside ih =>
      have hpass : M.Abreast (M.Beside true) depth True (c.pass t ts) (c'.pass t' ts') :=
        ((hc.pass_same hrest hsame hbeside).imp Beside.weaken fun _ => .inl trivial).atDepth hlimit _
      rw [groupLength?, groupLength?, hsame.kind_eq]
      by_cases hclosed : depthBehind k t.kind = 0
      · rw [if_pos hclosed, if_pos hclosed]
        refine ⟨rfl, fun d d' hrun hrun' => ?_⟩
        rw [Option.getD_some, passTokens, bind_run, advance_of_rest hrest] at hrun
        rw [Option.getD_some, passTokens, bind_run, advance_of_rest hrest'] at hrun'
        cases hrun
        cases hrun'
        exact hpass
      · obtain ⟨hsome, hagree⟩ := ih hclosed (hpass.imp (fun _ => trivial) id) rfl rfl
        rw [if_neg hclosed, if_neg hclosed, Option.isSome_map, Option.isSome_map, hsome,
          List.length_cons, List.length_cons, Option.getD_map, Option.getD_map]
        refine ⟨rfl, fun d d' hrun hrun' => hagree d d' ?_ ?_⟩
        · rwa [passTokens, bind_run, advance_of_rest hrest] at hrun
        · rwa [passTokens, bind_run, advance_of_rest hrest'] at hrun'
  | @gap gs gs' ts ts' hgap _ _ ih =>
      have hspacing (t : Token) (ht : t ∈ gs) : t.kind.isSpacing :=
        TokenKind.isSpacing_of_isTrivia _ (hgap.trivia t ht)
      have hspacing' (t : Token) (ht : t ∈ gs') : t.kind.isSpacing := by
        rw [hgap.blanks t ht]
        rfl
      have hbracket (t : Token) (ht : t ∈ gs) := TokenKind.isBracket_of_isSpacing _ (hspacing t ht)
      have hbracket' (t : Token) (ht : t ∈ gs') := TokenKind.isBracket_of_isSpacing _ (hspacing' t ht)
      obtain ⟨hsome, hagree⟩ := @ih { c with rest := ts } { c' with rest := ts' } k hk
        (hc.drop hrest hbracket trivial) rfl rfl
      rw [(nested_brackets_of_not_isBracket hbracket).groupLength?_append hk,
        (nested_brackets_of_not_isBracket hbracket').groupLength?_append hk, Option.isSome_map,
        Option.isSome_map, List.length_append, List.length_append, Option.getD_map, Option.getD_map,
        passTokens_append hspacing hrest, passTokens_append hspacing' hrest']
      exact ⟨hsome, hagree⟩
  | @emptied _ o cl o' cl' inside ts ts' hgroup _ ih =>
      obtain ⟨hsome, hagree⟩ := ih hk (hc.passed hrest hgroup trivial) rfl rfl
      have hlength' : groupLength? k (o' :: cl' :: ts') = (groupLength? k ts').map (0 + 2 + ·) :=
        @groupLength?_group_append o' cl' [] hgroup.closed' .nil k hk ts'
      have hpass' (n : Nat) : passTokens (0 + 2 + n) c' = passTokens n (c'.pass cl' ts') :=
        @passTokens_of_closedBy c' o' cl' [] ts' hgroup.closed' hrest' n
      have hcount : (o :: (inside ++ cl :: ts)).length = inside.length + 2 + ts.length := by
        simp only [List.length_cons, List.length_append]
        omega
      have hcount' : (o' :: cl' :: ts').length = 0 + 2 + ts'.length := by
        simp only [List.length_cons]
        omega
      rw [groupLength?_group_append hgroup.closed hgroup.nested hk, hlength', hcount, hcount',
        Option.isSome_map, Option.isSome_map, Option.getD_map, Option.getD_map,
        passTokens_of_closedBy hgroup.closed hrest, hpass']
      exact ⟨hsome, hagree⟩

/-- What a run has come to that has passed a group over. -/
theorem skipGroup_eq_ok (hrest : c.rest = t :: ts) {s : Span} {d : Cursor} (h : skipGroup c = .ok (s, d)) :
    ∃ e, passTokens ((groupLength? 0 c.rest).getD c.rest.length) c = .ok ((), e) ∧
      s = ⟨t.start, if (groupLength? 0 c.rest).isSome then e.lastEnd else e.size⟩ ∧
      d = e.report (.nestingTooDeep maxNesting) s := by
  obtain ⟨_, _, hcurrent, h⟩ := bind_eq_ok.mp h
  rw [current_of_rest hrest] at hcurrent
  cases hcurrent
  obtain ⟨_, _, hget, h⟩ := bind_eq_ok.mp h
  cases hget
  obtain ⟨_, e, hpass, h⟩ := bind_eq_ok.mp h
  obtain ⟨_, _, hget, h⟩ := bind_eq_ok.mp h
  cases hget
  obtain ⟨_, _, hspan, h⟩ := bind_eq_ok.mp h
  obtain ⟨rfl, hlast⟩ := span_eq_ok hspan
  rw [hlast] at h
  cases h
  exact ⟨e, hpass, rfl, rfl⟩

/-- The emptied group is passed over in both scripts, and told alike. -/
theorem skipGroup_agrees_emptied {o cl o' cl' : Token} {inside : List Token}
    (hc : M.Abreast M.Settled depth exact c c') (hrest : c.rest = o :: (inside ++ cl :: ts))
    (hrest' : c'.rest = o' :: cl' :: ts') (hgroup : M.Emptied o cl inside o' cl')
    (hbeside : M.Beside true ts ts') :
    M.Agree skipGroup c skipGroup c' fun s d s' d' =>
      M.right.span s' = M.left.span s ∧ M.Abreast (M.Beside true) depth True d d' := by
  have hsplit' : c'.rest = o' :: ([] ++ cl' :: ts') := hrest'
  have hspan : M.right.span ⟨o'.start, cl'.stop⟩ = M.left.span ⟨o.start, cl.stop⟩ := by
    rw [hgroup.met.start_eq, hgroup.stop_eq]
    rfl
  have hlt : o.start < cl.stop := hc.sound.start_lt_stop_of_mem hrest (by simp)
  have hle' : o'.start ≤ cl'.stop := by
    rw [hgroup.met.start_eq, hgroup.stop_eq]
    exact M.mono (Nat.le_of_lt hlt)
  have hpassed := hc.passed hrest hgroup hbeside
  have hend := hpassed.sound.lastEnd_le
  rw [lastEnd_pass (isSpacing_of_closedBy hgroup.closed)] at hend
  intro s d s' d' hrun hrun' _
  rw [skipGroup_of_closedBy hrest hgroup.closed hgroup.nested (Nat.le_of_lt hlt)] at hrun
  rw [skipGroup_of_closedBy hsplit' hgroup.closed' .nil hle'] at hrun'
  cases hrun
  cases hrun'
  exact ⟨hspan, hpassed.report (alike_fault (fun _ => rfl) hspan) fun _ =>
    Nat.lt_of_lt_of_le hlt hend⟩

/-- A group past the last level is passed over in both scripts. -/
theorem skipGroup_agrees {k : TokenKind} (hlimit : M.limit? = none)
    (hc : M.Abreast M.Settled depth exact c c') (hk : c.kind? = some k) (hopener : k.isOpener) :
    M.Agree skipGroup c skipGroup c' fun s d s' d' =>
      M.right.span s' = M.left.span s ∧ M.Abreast (M.Beside true) depth True d d' := by
  have hends := skipGroup_ends hc.sound hk hopener
  obtain ⟨t, ts, hrest, rfl⟩ := kind?_eq_some.mp hk
  obtain ⟨t', ts', hrest', hsame, hpass⟩ | ⟨cl, inside, us, o', cl', us', rfl, hrest', hgroup, hbeside⟩ :=
    hc.pass_or_emptied hrest
  case inr => exact skipGroup_agrees_emptied hc hrest hrest' hgroup hbeside
  intro s d s' d' hrun hrun' hquiet
  have htakes : Takes c d s := by
    obtain ⟨_, _, hrun₀, htakes⟩ := ends_iff.mp hends
    cases hrun₀.symm.trans hrun
    exact htakes
  obtain ⟨e, hpast, hs, hd⟩ := skipGroup_eq_ok hrest hrun
  obtain ⟨e', hpast', hs', hd'⟩ := skipGroup_eq_ok hrest' hrun'
  by_cases htail : M.tail = []
  case neg =>
    rw [hd] at hquiet
    exact absurd hquiet (not_quiet_report (M.excluded_all (.inl htail) _))
  have hinside : M.Abreast (M.Beside true) depth True (c.pass t ts) (c'.pass t' ts') :=
    (hpass.imp Beside.weaken fun _ => .inr (isSpacing_of_isOpener hopener)).atDepth hlimit _
  have hbeside : M.Beside true ts ts' := hinside.ahead
  obtain ⟨hsome, hagree⟩ := passGroup_agrees htail hlimit hbeside Nat.one_ne_zero
    (hinside.imp (fun _ => trivial) id) rfl rfl
  have hlength := groupLength?_cons_of_isOpener hopener 0 ts
  have hlength' : groupLength? 0 (t' :: ts') = (groupLength? 1 ts').map (· + 1) :=
    groupLength?_cons_of_isOpener (by rwa [hsame.kind_eq]) 0 ts'
  rw [hrest, hlength, List.length_cons, Option.getD_map, passTokens, bind_run, advance_of_rest hrest] at hpast
  rw [hrest', hlength', List.length_cons, Option.getD_map, passTokens, bind_run, advance_of_rest hrest'] at hpast'
  have he := hagree e e' hpast hpast'
  have hsize : e'.size = M.offset e.size := by rw [he.size_eq', M.size_eq htail, he.size_eq]
  rw [hrest, hlength, Option.isSome_map] at hs
  rw [hrest', hlength', Option.isSome_map, hsome, hsize] at hs'
  have hspan : M.right.span s' = M.left.span s := by
    rw [hs, hs', hsame.start_eq]
    split
    · rw [View.span, he.lastEnd_eq trivial]
      rfl
    · rfl
  have hstart := htakes.start_lt_offset
  rw [hd] at hstart
  rw [hd, hd']
  exact ⟨hspan, he.report (alike_fault (fun _ => rfl) hspan) fun _ => hstart⟩

variable (M) in
/-- The levels of the right script that the groups of the left one are read with, `depth` of them deep. -/
def Matching (depth levels levels' : Nat) : Prop :=
  (levels = levels' ∧ M.limit? = none) ∨
    (levels = levels' + 1 ∧ M.limit? = some (depth + levels'))

theorem Matching.inside {levels levels' : Nat} (h : M.Matching depth levels (levels' + 1)) :
    ∃ l, levels = l + 1 ∧ M.Matching (depth + 1) l levels' := by
  rcases h with ⟨rfl, hlimit⟩ | ⟨rfl, hlimit⟩
  · exact ⟨levels', rfl, .inl ⟨rfl, hlimit⟩⟩
  · refine ⟨levels' + 1, rfl, .inr ⟨rfl, ?_⟩⟩
    rw [hlimit, Nat.add_right_comm, Nat.add_assoc]

/-- Where groups stand at the limit none is opened. -/
theorem Abreast.not_isOpener {rel : List Token → List Token → Prop} {k : TokenKind}
    (h : M.Abreast rel depth exact c c') (hlimit : M.limit? = some depth) (hk : c.kind? = some k) :
    ¬k.isOpener := by
  intro hopener
  obtain ⟨t, ts, hrest, rfl⟩ := kind?_eq_some.mp hk
  have hroom := h.room depth hlimit
  have hbehind := deepest_behind_le depth t ts
  have hdepth : depthBehind depth t.kind = depth + 1 := if_pos hopener
  rw [hdepth] at hbehind
  rw [hrest] at hroom
  have := depth_le_deepest (depth + 1) ts
  omega

/-- Past the last level groups are passed over in both scripts. -/
theorem levels_agree_past (hlimit : M.limit? = none) : M.Levels depth (groups 0) (groups 0) := by
  refine ⟨groups_add 0, groups_safe 0, ?_, ?_, ?_⟩
  · intro c c' exact hc hk
    refine .map ((skipGroup_agrees hlimit hc hk rfl).mono ?_)
    rintro s d s' d' ⟨hs, hd⟩
    exact ⟨by rw [Alike, Telling.block_mk, Telling.block_mk, Telling.statements_nil,
      Telling.statements_nil, hs], hd⟩
  · intro c c' exact k hc hk hcloser
    have hopener := TokenKind.isOpener_of_closer? hcloser
    obtain ⟨t, ts, hrest, rfl⟩ := kind?_eq_some.mp hk
    obtain ⟨t', ts', hrest', hmet⟩ := hc.meet hrest
    refine .bind_of_ok (current_of_rest hrest) (current_of_rest hrest') ?_
    refine .map ((skipGroup_agrees hlimit hc hk hopener).mono ?_)
    rintro s d s' d' ⟨hs, hd⟩
    refine ⟨?_, hd⟩
    simp only [Alike, Telling.expression_subexpression, Telling.statements_nil, hmet.text_eq, right_text,
      hs]
  · intro c c' exact hc hk
    refine .map ((skipGroup_agrees hlimit hc hk rfl).mono ?_)
    rintro s d s' d' ⟨hs, hd⟩
    refine ⟨?_, hd⟩
    simp only [Alike, Telling.expression_hashtable, List.map_nil, hs]

/-- At the limit no group is opened, so that the levels left do not matter. -/
theorem levels_agree_limit (hlimit : M.limit? = some depth) (levels levels' : Nat) :
    M.Levels depth (groups levels) (groups levels') := by
  refine ⟨groups_add levels, groups_safe levels, ?_, ?_, ?_⟩
  · intro c c' exact hc hk
    exact absurd rfl (hc.not_isOpener hlimit hk)
  · intro c c' exact k hc hk hcloser
    exact absurd (TokenKind.isOpener_of_closer? hcloser) (hc.not_isOpener hlimit hk)
  · intro c c' exact hc hk
    exact absurd rfl (hc.not_isOpener hlimit hk)

/-- What is read alike one level further in is read alike as a group. -/
theorem levels_agree_outside {levels levels' : Nat}
    (hg : M.Levels (depth + 1) (groups levels) (groups levels')) :
    M.Levels depth (groups (levels + 1)) (groups (levels' + 1)) := by
  refine ⟨groups_add _, groups_safe _, ?_, ?_, ?_⟩
  · intro c c' exact hc hk
    refine group_agrees (v := Telling.statements) hc hk rfl (keeps_statements (groups_add _) _)
      (enclosed_statements_agrees hg) ?_
    intro t t' a a' s s' _ halike hs
    rw [Alike, Telling.block_mk, Telling.block_mk, halike, hs]
  · intro c c' exact k hc hk hcloser
    refine group_agrees (v := Telling.statements) hc hk (TokenKind.isOpener_of_closer? hcloser)
      (keeps_statements (groups_add _) _) (enclosed_statements_agrees hg) ?_
    intro t t' a a' s s' hsame halike hs
    rw [Alike, Telling.expression_subexpression, Telling.expression_subexpression, halike, hs, hsame.text_eq,
      right_text]
  · intro c c' exact hc hk
    refine group_agrees (v := fun v => List.map v.entry) hc hk rfl (keeps_entries (groups_add _))
      (entries_agrees hg) ?_
    intro t t' a a' s s' _ halike hs
    rw [Alike, Telling.expression_hashtable, Telling.expression_hashtable, hs]
    exact congrArg (Expression.hashtable · (M.left.span s)) halike

/-- Groups are read alike in both scripts. In the right one a level may be missing that the left one
does not need. -/
theorem levels_agree {levels levels' : Nat} (h : M.Matching depth levels levels') :
    M.Levels depth (groups levels) (groups levels') := by
  induction levels' generalizing levels depth with
  | zero =>
      rcases h with ⟨rfl, hlimit⟩ | ⟨rfl, hlimit⟩
      · exact levels_agree_past hlimit
      · exact levels_agree_limit hlimit 1 0
  | succ levels' ih =>
      obtain ⟨l, rfl, hinside⟩ := h.inside
      exact levels_agree_outside (ih hinside)

end ScriptLint.Mirror
