import ScriptLint.Proofs.Parser.Mirror

/-!
Rules for two runs of a parse. `Agree m c m' c' Q` says that `Q` holds of what the two runs answer and of
where they end, if both come to an end and the left one has met none of the excluded faults. That they
end is known apart, so every check that a step makes may be assumed to have passed.

The rules compose along the two `do` blocks at once. What follows a call must take no fault back, so that
a left run which ends quietly has been quiet all the way. A loop may go round more often in one script
than in the other: a state leads to another if the loop ends from there as well, and two loops are
compared where they have come to.
-/

namespace ScriptLint.Mirror

open ScriptLint.Parser Cursor

variable {M : Mirror} {α β γ δ : Type} {c c' d d' : Cursor} {t t' : Token} {ts ts' : List Token}

theorem bind_eq_ok {m : Parser α} {f : α → Parser β} {b : β} {e : Cursor} :
    (m >>= f) c = .ok (b, e) ↔ ∃ a d, m c = .ok (a, d) ∧ f a d = .ok (b, e) := by
  rw [bind_run]
  cases m c with
  | ok p => exact ⟨fun h => ⟨p.1, p.2, rfl, h⟩, fun ⟨a, d, hm, h⟩ => by cases hm; exact h⟩
  | error e => exact ⟨nofun, nofun⟩

theorem modify_bind_congr {step : Cursor → Cursor} {f : Unit → Parser β} (h : step c = step d) :
    (modify step >>= f) c = (modify step >>= f) d := congrArg (f ()) h

/-- A run that ends quietly has been quiet all the way. -/
theorem Quiet.of_adding (h : M.Quiet d) (hcd : Adding c d) : M.Quiet c where
  admitted := fun f hf => h.admitted f (Array.mem_toList_iff.mp (hcd.faults.subset (Array.mem_toList_iff.mpr hf)))
  passed := fun o ho hc hlt => by
    obtain ⟨hd, hle⟩ := hcd.onward hc
    obtain ⟨f, hf, hdeep, hstart⟩ := h.passed o ho hd (Nat.lt_of_lt_of_le hlt hle)
    have hbefore := (hcd.behind hc f hf hdeep).resolve_right (by omega)
    exact ⟨f, hbefore, hdeep, hstart⟩

/-- The counter of open groups does not matter. -/
theorem Quiet.of_withDepth {k : Nat} (h : M.Quiet { d with depth := k }) : M.Quiet d :=
  ⟨h.admitted, fun o ho hd => h.passed o ho ⟨hd.pairwise, hd.stop_le⟩⟩

theorem Quiet.of_adds {m : Parser α} {a : α} (hm : Adds m) (h : m c = .ok (a, d))
    (hd : M.Quiet d) : M.Quiet c :=
  hd.of_adding (gives_iff.mp (hm c (.refl c)).2 a d h)

theorem not_quiet_report {problem : Problem} {s : Span} (h : M.excluded ⟨problem, s⟩) :
    ¬M.Quiet (c.report problem s) :=
  fun hquiet => hquiet.admitted _ Array.mem_push_self h

theorem not_quiet_of_reportUnexpected (hrest : c.rest = t :: ts)
    (h : M.excluded ⟨.unexpectedToken t.text, t.span⟩) {u : Unit}
    (hrun : reportUnexpected c = .ok (u, d)) : ¬M.Quiet d := by
  rw [reportUnexpected, bind_run, advance_of_rest hrest] at hrun
  cases hrun
  exact not_quiet_report h

variable (M) in
def Agree (m : Parser α) (c : Cursor) (m' : Parser β) (c' : Cursor)
    (Q : α → Cursor → β → Cursor → Prop) : Prop :=
  ∀ a d b d', m c = .ok (a, d) → m' c' = .ok (b, d') → M.Quiet d → Q a d b d'

namespace Agree

variable {m : Parser α} {m' : Parser β} {f : α → Parser γ} {f' : β → Parser δ}
  {Q : α → Cursor → β → Cursor → Prop} {R : γ → Cursor → δ → Cursor → Prop}

theorem mono {Q' : α → Cursor → β → Cursor → Prop} (h : M.Agree m c m' c' Q)
    (hQ : ∀ a d b d', Q a d b d' → Q' a d b d') : M.Agree m c m' c' Q' :=
  fun a d b d' hm hm' hquiet => hQ a d b d' (h a d b d' hm hm' hquiet)

/-- Two runs may be told as others that come to the same. -/
theorem of_eq {m₀ : Parser α} {m₀' : Parser β} (h : M.Agree m₀ d m₀' d' Q) (hm : m c = m₀ d)
    (hm' : m' c' = m₀' d') : M.Agree m c m' c' Q := by
  unfold Agree
  rw [hm, hm']
  exact h

/-- What the left run is known to do apart may be assumed of it. -/
theorem and_ends {P : α → Cursor → Prop} (h : M.Agree m c m' c' Q) (hP : Ends m c P) :
    M.Agree m c m' c' fun a d b d' => Q a d b d' ∧ P a d := by
  intro a d b d' hm hm' hquiet
  refine ⟨h a d b d' hm hm' hquiet, ?_⟩
  obtain ⟨_, _, hm₀, hP⟩ := ends_iff.mp hP
  rw [hm] at hm₀
  cases hm₀
  exact hP

theorem pure {a : α} {b : β} (h : Q a c b c') :
    M.Agree (Pure.pure a) c (Pure.pure b) c' Q := by
  intro _ _ _ _ hm hm' _
  cases hm
  cases hm'
  exact h

theorem bind (h : M.Agree m c m' c' Q) (hadds : ∀ a, Adds (f a))
    (hf : ∀ a d b d', Q a d b d' → M.Agree (f a) d (f' b) d' R) :
    M.Agree (m >>= f) c (m' >>= f') c' R := by
  intro x e y e' hrun hrun' hquiet
  obtain ⟨a, d, hm, hx⟩ := bind_eq_ok.mp hrun
  obtain ⟨b, d', hm', hy⟩ := bind_eq_ok.mp hrun'
  exact hf a d b d' (h a d b d' hm hm' (hquiet.of_adds (hadds a) hx)) x e y e' hx hy hquiet

/-- A call whose answer is returned in some form. -/
theorem map {g : α → γ} {g' : β → δ} (h : M.Agree m c m' c' fun a d b d' => R (g a) d (g' b) d') :
    M.Agree (do return g (← m)) c (do return g' (← m')) c' R :=
  h.bind (fun _ => keeps_pure _) fun _ _ _ _ hQ => pure hQ

theorem bind_of_ok {a : α} {b : β} (hm : m c = .ok (a, d)) (hm' : m' c' = .ok (b, d'))
    (h : M.Agree (f a) d (f' b) d' R) : M.Agree (m >>= f) c (m' >>= f') c' R := by
  intro x e y e' hrun hrun'
  rw [bind_run, hm] at hrun
  rw [bind_run, hm'] at hrun'
  exact h x e y e' hrun hrun'

end Agree

section

variable {f : α → Parser γ} {f' : β → Parser δ} {Q : α → Cursor → β → Cursor → Prop}
  {R : γ → Cursor → δ → Cursor → Prop}

theorem agree_get_bind {f : Cursor → Parser γ} {f' : Cursor → Parser δ} :
    M.Agree (get >>= f) c (get >>= f') c' R ↔ M.Agree (f c) c (f' c') c' R := Iff.rfl

theorem agree_set_bind {f : Unit → Parser γ} {f' : Unit → Parser δ} :
    M.Agree (set d >>= f) c (set d' >>= f') c' R ↔ M.Agree (f ()) d (f' ()) d' R := Iff.rfl

theorem agree_modify_bind {step step' : Cursor → Cursor} {f : Unit → Parser γ}
    {f' : Unit → Parser δ} :
    M.Agree (modify step >>= f) c (modify step' >>= f') c' R ↔
      M.Agree (f ()) (step c) (f' ()) (step' c') R := Iff.rfl

theorem agree_skip_bind {p p' : TokenKind → Bool} {f : Unit → Parser γ} {f' : Unit → Parser δ} :
    M.Agree (skip p >>= f) c (skip p' >>= f') c' R ↔
      M.Agree (f ()) (c.skip p) (f' ()) (c'.skip p') R := Iff.rfl

theorem agree_skipBlanks_bind {f : Unit → Parser γ} {f' : Unit → Parser δ} :
    M.Agree (skipBlanks >>= f) c (skipBlanks >>= f') c' R ↔
      M.Agree (f ()) c.skipBlanks (f' ()) c'.skipBlanks R := Iff.rfl

theorem agree_skipSpacing_bind {f : Unit → Parser γ} {f' : Unit → Parser δ} :
    M.Agree (skipSpacing >>= f) c (skipSpacing >>= f') c' R ↔
      M.Agree (f ()) c.skipSpacing (f' ()) c'.skipSpacing R := Iff.rfl

theorem agree_report_bind {problem problem' : Problem} {s s' : Span} {f : Unit → Parser γ}
    {f' : Unit → Parser δ} :
    M.Agree (report problem s >>= f) c (report problem' s' >>= f') c' R ↔
      M.Agree (f ()) (c.report problem s) (f' ()) (c'.report problem' s') R := Iff.rfl

/-- A left run that reports an excluded fault is not looked at. -/
theorem agree_of_excluded {problem : Problem} {s : Span} {f : Unit → Parser γ} {m' : Parser δ}
    (h : M.excluded ⟨problem, s⟩) (hadds : Adds (f ())) :
    M.Agree (report problem s >>= f) c m' c' R := by
  intro x e y e' hrun _ hquiet
  have hfaults := hquiet.of_adds (c := c.report problem s) hadds hrun
  exact absurd hfaults (not_quiet_report h)

theorem agree_advance_bind {f : Token → Parser γ} {f' : Token → Parser δ}
    (h : c.rest = t :: ts) (h' : c'.rest = t' :: ts') :
    M.Agree (advance >>= f) c (advance >>= f') c' R ↔
      M.Agree (f t) (c.pass t ts) (f' t') (c'.pass t' ts') R := by
  unfold Agree
  rw [bind_run, bind_run, advance_of_rest h, advance_of_rest h']
  rfl

/-- A left run that passes the opener of the emptied group is not looked at. -/
theorem agree_of_emptied {f : Token → Parser γ} {m' : Parser δ} {rel : List Token → List Token → Prop}
    {depth : Nat} {exact : Prop} (hc : M.Abreast rel depth exact c c') (hrest : c.rest = t :: ts)
    (ht : M.emptied? = some t) (hadds : Adds (f t)) : M.Agree (advance >>= f) c m' c' R := by
  intro x e y e' hrun _ hquiet
  rw [bind_run, advance_of_rest hrest] at hrun
  exact absurd (hquiet.of_adds hadds hrun) (hc.not_quiet_pass hrest ht)

/-- Both runs pass the same token, one that counts and is no bracket. -/
theorem agree_advance {f : Token → Parser γ} {f' : Token → Parser δ} {k : TokenKind} {depth : Nat}
    {exact : Prop} (hc : M.Abreast M.Settled depth exact c c') (hk : c.kind? = some k)
    (hbracket : k.isBracket = false) (hspacing : k.isSpacing = false)
    (h : ∀ t t' d d', M.Same t t' → t.kind = k → M.Abreast (M.Beside !t.awaits) depth True d d' →
      M.Agree (f t) d (f' t') d' R) :
    M.Agree (advance >>= f) c (advance >>= f') c' R := by
  obtain ⟨t, ts, hrest, rfl⟩ := kind?_eq_some.mp hk
  obtain ⟨t', ts', hrest', hsame, hpass⟩ := hc.pass hrest (TokenKind.not_isOpener_of_not_isBracket hbracket)
  rw [Parse.depthBehind_of_not_isBracket hbracket] at hpass
  rw [agree_advance_bind hrest hrest']
  exact h t t' _ _ hsame rfl (hpass.imp id fun _ => .inr hspacing)

theorem span_eq_ok {start stop : Nat} {s : Span} (h : span start stop c = .ok (s, d)) :
    s = ⟨start, stop⟩ ∧ d = c := by
  unfold span at h
  split at h
  case h_1 hs =>
    cases h
    exact ⟨(Span.between_eq_ok_iff.mp hs).2, rfl⟩
  case h_2 => cases h

theorem agree_span_bind {start stop start' stop' : Nat} {f : Span → Parser γ} {f' : Span → Parser δ}
    (h : M.Agree (f ⟨start, stop⟩) c (f' ⟨start', stop'⟩) c' R) :
    M.Agree (span start stop >>= f) c (span start' stop' >>= f') c' R := by
  intro x e y e' hrun hrun'
  obtain ⟨s, d, hs, hx⟩ := bind_eq_ok.mp hrun
  obtain ⟨s', d', hs', hy⟩ := bind_eq_ok.mp hrun'
  obtain ⟨rfl, rfl⟩ := span_eq_ok hs
  obtain ⟨rfl, rfl⟩ := span_eq_ok hs'
  exact h x e y e' hx hy

theorem agree_spanFrom_bind {start start' : Nat} {f : Span → Parser γ} {f' : Span → Parser δ}
    (h : M.Agree (f ⟨start, c.lastEnd⟩) c (f' ⟨start', c'.lastEnd⟩) c' R) :
    M.Agree (spanFrom start >>= f) c (spanFrom start' >>= f') c' R :=
  agree_span_bind h

/-- The token ahead is reported in both scripts. -/
theorem agree_reportUnexpected {depth : Nat} {exact : Prop}
    (hc : M.Abreast M.Settled depth exact c c') :
    M.Agree reportUnexpected c reportUnexpected c' fun _ d _ d' =>
      M.Abreast (M.Beside true) depth exact d d' := by
  cases hrest : c.rest with
  | nil =>
      intro _ _ _ _ hrun
      have hnone : advance c = .error .noToken := by rw [advance, hrest]
      rw [reportUnexpected, bind_run, hnone] at hrun
      cases hrun
  | cons t ts =>
      obtain ⟨t', ts', hrest', hsame, hpass⟩ | ⟨_, _, _, _, _, _, -, -, hgroup, -⟩ := hc.pass_or_emptied hrest
      case inr => exact agree_of_emptied hc hrest hgroup.opener (keeps_report rfl _)
      unfold reportUnexpected
      rw [agree_advance_bind hrest hrest']
      intro _ _ _ _ hrun hrun' hquiet
      cases hrun
      cases hrun'
      have hreport := hpass.report hsame.unexpectedToken
      -- a closer may be reported that closes no group, but not where the levels are counted
      refine { hreport.imp Beside.weaken Or.inl with room := fun l hl => ?_ }
      have hexcluded := M.excluded_all (.inr (by rw [hl]; rfl))
      exact absurd hquiet (not_quiet_report (hexcluded _))

/-- What is read inside a group is read one level deeper; the counter of open groups is put back. -/
theorem nested_eq_ok {m : Parser α} {a : α} (h : nested m c = .ok (a, d)) :
    ∃ e k, m { c with depth := c.depth + 1 } = .ok (a, e) ∧ d = { e with depth := k } := by
  obtain ⟨_, _, henter, hrun⟩ := bind_eq_ok.mp h
  cases henter
  obtain ⟨a, e, hm, hrun⟩ := bind_eq_ok.mp hrun
  obtain ⟨_, e', hleave, hreturn⟩ := bind_eq_ok.mp hrun
  cases hreturn
  unfold leave at hleave
  split at hleave
  case h_1 => cases hleave
  case h_2 k _ =>
    cases hleave
    exact ⟨e, k, hm, rfl⟩

theorem agree_nested {m : Parser α} {m' : Parser β}
    (h : M.Agree m { c with depth := c.depth + 1 } m' { c' with depth := c'.depth + 1 }
      fun a d b d' => ∀ k k', Q a { d with depth := k } b { d' with depth := k' }) :
    M.Agree (nested m) c (nested m') c' Q := by
  intro x e y e' hrun hrun' hquiet
  obtain ⟨d, k, hm, rfl⟩ := nested_eq_ok hrun
  obtain ⟨d', k', hm', rfl⟩ := nested_eq_ok hrun'
  exact h x d y d' hm hm' hquiet.of_withDepth k k'

end

/-- A loop that ends from one state ends from another in the same way, after no more rounds. -/
def Leads (body : α → Parser (ForInStep α)) (p q : α × Cursor) : Prop :=
  ∀ n x, rounds body n p.1 p.2 = .ok x → ∃ m ≤ n, rounds body m q.1 q.2 = .ok x

namespace Leads

variable {body : α → Parser (ForInStep α)} {a b : α}

theorem refl (p : α × Cursor) : Leads body p p := fun n _ h => ⟨n, Nat.le_refl n, h⟩

theorem trans {p q r : α × Cursor} (h : Leads body p q) (h' : Leads body q r) :
    Leads body p r := by
  intro n x hx
  obtain ⟨m, hm, hx⟩ := h n x hx
  obtain ⟨k, hk, hx⟩ := h' m x hx
  exact ⟨k, Nat.le_trans hk hm, hx⟩

theorem rounds_eq_ok {n : Nat} {x : α × Cursor} (h : rounds body n a c = .ok x) :
    ∃ m r d, n = m + 1 ∧ body a c = .ok (r, d) ∧
      match r with
      | .done b => x = (b, d)
      | .yield b => rounds body m b d = .ok x := by
  cases n with
  | zero => cases h
  | succ m =>
      obtain ⟨r, d, hbody, h⟩ := bind_eq_ok.mp h
      refine ⟨m, r, d, rfl, hbody, ?_⟩
      cases r with
      | done b =>
          cases h
          rfl
      | yield b => exact h

theorem of_yield (h : body a c = .ok (.yield b, d)) : Leads body (a, c) (b, d) := by
  intro n x hx
  obtain ⟨m, r, e, rfl, hbody, hx⟩ := rounds_eq_ok hx
  rw [h] at hbody
  cases hbody
  exact ⟨m, Nat.le_succ m, hx⟩

/-- A loop of two rounds. -/
theorem eq_of_yield_done {n : Nat} {r : α} {x : α × Cursor} {e : Cursor}
    (h : rounds body n a c = .ok x) (hyield : body a c = .ok (.yield b, d))
    (hdone : body b d = .ok (.done r, e)) : x = (r, e) := by
  obtain ⟨m, -, h⟩ := of_yield hyield _ _ h
  obtain ⟨_, s, _, rfl, hround, hx⟩ := rounds_eq_ok h
  rw [hdone] at hround
  cases hround
  exact hx

theorem of_eq (h : body a c = body a d) : Leads body (a, c) (a, d) := by
  intro n x hx
  obtain ⟨m, r, e, rfl, hbody, hx⟩ := rounds_eq_ok hx
  refine ⟨m + 1, Nat.le_refl _, ?_⟩
  show (body a >>= _) d = _
  rw [bind_run, ← h, hbody]
  cases r with
  | done b => rw [hx]; rfl
  | yield b => exact hx

/-- A loop whose rounds pass over some tokens one by one ends as it does from behind them. -/
theorem skip {p : TokenKind → Bool}
    (h : ∀ c t ts, c.rest = t :: ts → p t.kind → Leads body (a, c) (a, { c with rest := ts })) :
    Leads body (a, c) (a, c.skip p) := by
  generalize hrest : c.rest = ts
  induction ts generalizing c with
  | nil =>
      have hskip : c.skip p = c := by
        rw [Cursor.skip, hrest]
        exact congrArg (fun rest => { c with rest := rest }) hrest.symm
      rw [hskip]
      exact refl _
  | cons t ts ih =>
      cases hp : p t.kind with
      | false =>
          have hskip : c.skip p = c := by
            rw [Cursor.skip, hrest, List.dropWhile_cons_of_neg (by simp [hp]), ← hrest]
          rw [hskip]
          exact refl _
      | true =>
          have hskip : c.skip p = Cursor.skip p { c with rest := ts } := by
            rw [Cursor.skip, hrest, List.dropWhile_cons_of_pos (by exact hp)]
            rfl
          rw [hskip]
          exact (h c t ts hrest hp).trans (ih rfl)

end Leads

/-- What two rounds make of two loops: both are the last ones, or both go on. If the left one is the last
alone, nothing more is asked of the right loop. -/
def Rounds (I Q : α → Cursor → β → Cursor → Prop) :
    ForInStep α → Cursor → ForInStep β → Cursor → Prop
  | .done a, d, .done b, d' => Q a d b d'
  | .done a, d, .yield _, _ => ∀ b d', Q a d b d'
  | .yield a, d, .yield b, d' => I a d b d'
  | .yield _, _, .done _, _ => False

/-- What two rounds make of two loops of which the right one, in the state `b` and at `c'`, may go on. -/
def Onward (I F : α → Cursor → β → Cursor → Prop) (b : β) (c' : Cursor) :
    ForInStep α → Cursor → ForInStep β → Cursor → Prop
  | .done a, d, _, _ => F a d b c'
  | .yield a, d, .yield b, d' => I a d b d'
  | .yield _, _, .done _, _ => False

/-- Where the left loop ends the right one has come to a state that corresponds. -/
theorem exists_leads {body : α → Parser (ForInStep α)} {body' : β → Parser (ForInStep β)}
    {I F : α → Cursor → β → Cursor → Prop} (hadds : ∀ a, Adds (body a))
    (hround : ∀ a c b c', I a c b c' → ∃ a₀ c₀ b₀ c₀', Leads body (a, c) (a₀, c₀) ∧
      Leads body' (b, c') (b₀, c₀') ∧
      M.Agree (body a₀) c₀ (body' b₀) c₀' (Onward I F b₀ c₀'))
    {n n' : Nat} {a r : α} {b : β} {x' : β × Cursor} (hI : I a c b c')
    (hrun : rounds body n a c = .ok (r, d)) (hrun' : rounds body' n' b c' = .ok x')
    (hquiet : M.Quiet d) :
    ∃ b₁ c₁, Leads body' (b, c') (b₁, c₁) ∧ F r d b₁ c₁ := by
  induction n using Nat.strongRecOn generalizing a b c c' n' with
  | ind n ih =>
      obtain ⟨a₀, c₀, b₀, c₀', hleads, hleads', hagree⟩ := hround a c b c' hI
      obtain ⟨m, hm, hrun⟩ := hleads n _ hrun
      obtain ⟨m', -, hrun'⟩ := hleads' n' _ hrun'
      obtain ⟨k, s, e, rfl, hbody, hrest⟩ := Leads.rounds_eq_ok hrun
      obtain ⟨k', s', e', rfl, hbody', hrest'⟩ := Leads.rounds_eq_ok hrun'
      cases s with
      | done r' =>
          cases hrest
          exact ⟨b₀, c₀', hleads', hagree _ _ _ _ hbody hbody' hquiet⟩
      | yield a₁ =>
          have he : M.Quiet e := hquiet.of_adds (keeps_rounds hadds k a₁) hrest
          have hI := hagree _ _ _ _ hbody hbody' he
          cases s' with
          | done b₁ => exact hI.elim
          | yield b₁ =>
              obtain ⟨b₂, c₂, hleads₂, hF⟩ := ih k (Nat.lt_of_succ_le hm) hI hrest hrest'
              exact ⟨b₂, c₂, hleads'.trans ((Leads.of_yield hbody').trans hleads₂), hF⟩

section

variable {body : α → Parser (ForInStep α)} {body' : β → Parser (ForInStep β)}
  {I Q : α → Cursor → β → Cursor → Prop} {a : α} {b : β}

/-- What two loops end with whose rounds correspond. -/
theorem agree_rounds (hadds : ∀ a, Adds (body a)) (hI : I a c b c')
    (hround : ∀ a c b c', I a c b c' → ∃ c₀ c₀', Leads body (a, c) (a, c₀) ∧
      Leads body' (b, c') (b, c₀') ∧ M.Agree (body a) c₀ (body' b) c₀' (Rounds I Q)) (n n' : Nat) :
    M.Agree (rounds body n a) c (rounds body' n' b) c' Q := by
  intro r d r' d' hrun hrun' hquiet
  let F r d b₀ c₀' := ∀ s d', body' b₀ c₀' = .ok (s, d') → Rounds I Q (.done r) d s d'
  obtain ⟨b₁, c₁, hleads, hF⟩ := exists_leads (M := M) (I := I) (F := F) hadds
    (fun a c b c' hI => by
      obtain ⟨c₀, c₀', hleads, hleads', hagree⟩ := hround a c b c' hI
      refine ⟨a, c₀, b, c₀', hleads, hleads', fun r d s d' hbody hbody' hquiet => ?_⟩
      cases r with
      | done r => exact fun s d' hbody' => hagree _ _ _ _ hbody hbody' hquiet
      | yield r =>
          have h := hagree _ _ _ _ hbody hbody' hquiet
          cases s with
          | done s => exact h
          | yield s => exact h)
    hI hrun hrun' hquiet
  obtain ⟨m, -, hrun'⟩ := hleads _ _ hrun'
  obtain ⟨k, s, e', rfl, hbody', hrest'⟩ := Leads.rounds_eq_ok hrun'
  have hQ := hF s e' hbody'
  cases s with
  | done s =>
      cases hrest'
      exact hQ
  | yield s => exact hQ r' d'

/-- Two loops whose rounds correspond. -/
theorem agree_repeating (hadds : ∀ a, Adds (body a)) (hI : I a c b c')
    (hround : ∀ a c b c', I a c b c' → ∃ c₀ c₀', Leads body (a, c) (a, c₀) ∧
      Leads body' (b, c') (b, c₀') ∧ M.Agree (body a) c₀ (body' b) c₀' (Rounds I Q)) :
    M.Agree (repeating body a) c (repeating body' b) c' Q :=
  agree_rounds hadds hI hround (c.remaining + 1) (c'.remaining + 1)

/-- Two loops whose first rounds correspond, and the others from there on. -/
theorem agree_repeating_of_first (hadds : ∀ a, Adds (body a))
    (hfirst : M.Agree (body a) c (body' b) c' (Rounds I Q))
    (hround : ∀ a c b c', I a c b c' → ∃ c₀ c₀', Leads body (a, c) (a, c₀) ∧
      Leads body' (b, c') (b, c₀') ∧ M.Agree (body a) c₀ (body' b) c₀' (Rounds I Q)) :
    M.Agree (repeating body a) c (repeating body' b) c' Q := by
  intro r d r' d' hrun hrun' hquiet
  obtain ⟨m, s, e, -, hbody, hrest⟩ := Leads.rounds_eq_ok hrun
  obtain ⟨m', s', e', -, hbody', hrest'⟩ := Leads.rounds_eq_ok hrun'
  cases s with
  | done s =>
      cases hrest
      have hQ := hfirst _ _ _ _ hbody hbody' hquiet
      cases s' with
      | done s' =>
          cases hrest'
          exact hQ
      | yield s' => exact hQ r' d'
  | yield s =>
      have hI := hfirst _ _ _ _ hbody hbody' (hquiet.of_adds (keeps_rounds hadds m s) hrest)
      cases s' with
      | done s' => exact hI.elim
      | yield s' => exact agree_rounds hadds hI hround m m' r d r' d' hrest hrest' hquiet

end

/-- Two loops that keep a relation round by round. -/
theorem agree_loop {body : α → Parser (ForInStep α)} {body' : β → Parser (ForInStep β)}
    {I : α → Cursor → β → Cursor → Prop} (hadds : ∀ a, Adds (body a)) {a : α} {b : β}
    (hI : I a c b c')
    (hround : ∀ a c b c', I a c b c' → M.Agree (body a) c (body' b) c' (Rounds I I)) :
    M.Agree (repeating body a) c (repeating body' b) c' I :=
  agree_repeating hadds hI fun a c b c' hI => ⟨c, c', .refl _, .refl _, hround a c b c' hI⟩

end ScriptLint.Mirror
