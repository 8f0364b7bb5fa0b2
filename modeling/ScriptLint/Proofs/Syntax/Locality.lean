import ScriptLint.Proofs.Syntax.Scan
import ScriptLint.Proofs.Syntax.Tiling

/-!
How far the lexer looks. Where a token has ended it does not matter what stands behind it, but for the
next character, which may have ended it. So a script that is changed from the start of a token on keeps
the tokens in front, if the next character stays or a `<` becomes a space; in the second case blanks in
front of it go on.
-/

namespace ScriptLint

/-- The token `k` bytes further on. -/
def Token.move (k : Nat) (t : Token) : Token := { t with start := t.start + k }

namespace Lexer

open String (utf8Len)

/-- The character `d'` may stand for `d` behind a token, whatever follows. -/
def Replaces (d' d : Char) : Prop := (d' = d ∧ d ≠ '&') ∨ (d' = ' ' ∧ d = '<')

variable {c d d' : Char} {cs us us' : List Char}

namespace Replaces

theorem apply_eq (h : Replaces d' d) {q : Char → Bool} (hq : q ' ' = q '<') : q d' = q d := by
  rcases h with ⟨rfl, -⟩ | ⟨rfl, rfl⟩
  · rfl
  · exact hq

theorem eq_iff (h : Replaces d' d) {x : Char} (hblank : x ≠ ' ') (hmark : x ≠ '<') :
    d' = x ↔ d = x := by
  rcases h with ⟨rfl, -⟩ | ⟨rfl, rfl⟩
  · rfl
  · exact ⟨fun h => absurd h.symm hblank, fun h => absurd h.symm hmark⟩

theorem head?_iff (h : Replaces d' d) {x : Char} (hblank : x ≠ ' ') (hmark : x ≠ '<') :
    (cs ++ d' :: us').head? = some x ↔ (cs ++ d :: us).head? = some x := by
  cases cs with
  | nil => simpa using h.eq_iff hblank hmark
  | cons => rfl

theorem head?_any (h : Replaces d' d) {q : Char → Bool} (hq : q ' ' = q '<') :
    (cs ++ d' :: us').head?.any q = (cs ++ d :: us).head?.any q := by
  cases cs with
  | nil => exact h.apply_eq hq
  | cons => rfl

end Replaces

@[simp] theorem runLength_cons (p : Char → Bool) (c : Char) (cs : List Char) :
    runLength p (c :: cs) = if p c then runLength p cs + 1 else 0 := by
  unfold runLength
  rw [List.takeWhile_cons]
  split <;> rfl

/-- A run that ends in front of `d` ends in front of `d'` as well. -/
theorem runLength_local {p : Char → Bool} (h : runLength p (cs ++ d :: us) ≤ cs.length)
    (hp : p d' = p d ∨ runLength p (cs ++ d :: us) < cs.length) :
    runLength p (cs ++ d' :: us') = runLength p (cs ++ d :: us) := by
  induction cs with
  | nil =>
      have hd : p d = false := by
        by_contra hd
        simp [Bool.not_eq_false _ ▸ hd] at h
      simp [hp.resolve_right (Nat.not_lt_zero _), hd]
  | cons c cs ih =>
      simp only [List.cons_append, runLength_cons, List.length_cons] at h hp ⊢
      split
      case isTrue hc =>
        simp only [hc, ↓reduceIte, Nat.succ_le_succ_iff, Nat.succ_lt_succ_iff] at h hp
        rw [ih h hp]
      case isFalse => rfl

theorem length_le_of_lengthThrough? {pattern : List Char} {n : Nat}
    (h : lengthThrough? pattern cs = some n) : pattern.length ≤ n := by
  induction cs generalizing n with
  | nil => cases h
  | cons c cs ih =>
      rw [lengthThrough?] at h
      split at h
      case isTrue => exact Nat.le_of_eq (Option.some.inj h)
      case isFalse =>
        obtain ⟨m, hm, rfl⟩ := Option.map_eq_some_iff.mp h
        exact Nat.le_succ_of_le (ih hm)

theorem isPrefixOf_append {pattern : List Char} (h : pattern.length ≤ cs.length) :
    pattern.isPrefixOf (cs ++ us) = pattern.isPrefixOf cs := by
  rw [Bool.eq_iff_iff, List.isPrefixOf_iff_prefix, List.isPrefixOf_iff_prefix]
  exact ⟨fun hp => List.prefix_of_prefix_length_le hp (List.prefix_append cs us) h,
    fun hp => hp.trans (List.prefix_append cs us)⟩

/-- A mark is found at the same place whatever follows. -/
theorem lengthThrough?_local {pattern : List Char} (hne : pattern ≠ []) {n : Nat}
    (h : lengthThrough? pattern (cs ++ us) = some n) (hn : n ≤ cs.length) :
    lengthThrough? pattern (cs ++ us') = some n := by
  have hlength := Nat.le_trans (length_le_of_lengthThrough? h) hn
  induction cs generalizing n with
  | nil => exact absurd (List.eq_nil_of_length_eq_zero (Nat.le_zero.mp hlength)) hne
  | cons c cs ih =>
      have hstarts (vs : List Char) :
          pattern.isPrefixOf (c :: cs ++ vs) = pattern.isPrefixOf (c :: cs) :=
        isPrefixOf_append hlength
      rw [List.cons_append, lengthThrough?, ← List.cons_append, hstarts] at h ⊢
      split at h
      case isTrue hp =>
        rw [if_pos hp]
        exact h
      case isFalse hp =>
        obtain ⟨m, hm, rfl⟩ := Option.map_eq_some_iff.mp h
        have hm' := Nat.le_of_succ_le_succ hn
        rw [if_neg hp, ih hm hm' (Nat.le_trans (length_le_of_lengthThrough? hm) hm')]
        rfl

theorem reach_local {pattern : List Char} (hne : pattern ≠ [])
    (h : (reach pattern (cs ++ d :: us)).1 ≤ cs.length) :
    reach pattern (cs ++ d' :: us') = reach pattern (cs ++ d :: us) := by
  unfold reach at h ⊢
  split at h
  case h_1 n hfound => rw [lengthThrough?_local hne hfound h]
  case h_2 =>
    rw [List.length_append, List.length_cons] at h
    omega

theorem quotedLength_cons_cons (quote c d : Char) (cs : List Char) :
    quotedLength quote (c :: d :: cs) =
      if (quote = '\x22' ∧ c = '\x60') ∨ (c = quote ∧ d = quote) then
        ((quotedLength quote cs).1 + 2, (quotedLength quote cs).2)
      else if c = quote then (1, true)
      else ((quotedLength quote (d :: cs)).1 + 1, (quotedLength quote (d :: cs)).2) := by
  rw [quotedLength]

theorem quotedLength_cons_of_ne {quote c : Char} (hquote : c ≠ quote)
    (htick : ¬(quote = '\x22' ∧ c = '\x60')) (cs : List Char) :
    quotedLength quote (c :: cs) = ((quotedLength quote cs).1 + 1, (quotedLength quote cs).2) := by
  cases cs with
  | nil => simp [quotedLength, hquote]
  | cons d cs => simp [quotedLength_cons_cons, hquote, htick]

theorem quotedLength_pos (quote c : Char) (cs : List Char) :
    1 ≤ (quotedLength quote (c :: cs)).1 := by
  cases cs with
  | nil => exact Nat.le_refl 1
  | cons d cs =>
      rw [quotedLength_cons_cons]
      split_ifs <;> simp

theorem quotedLength_local {quote : Char} (hquote : d' = quote ↔ d = quote) : ∀ {cs : List Char},
    (quotedLength quote (cs ++ d :: us)).1 ≤ cs.length →
    quotedLength quote (cs ++ d' :: us') = quotedLength quote (cs ++ d :: us)
  | [], h => absurd h (Nat.not_le_of_gt (quotedLength_pos quote d us))
  | [x], h => by
    have hpos := quotedLength_pos quote d us
    simp only [List.cons_append, List.nil_append, List.length_singleton, quotedLength_cons_cons,
      hquote] at h ⊢
    split_ifs at h ⊢
    · simp at h
    · rfl
    · simp only at h
      omega
  | x :: y :: cs, h => by
    have hrest (h : (quotedLength quote (y :: cs ++ d :: us)).1 ≤ (y :: cs).length) :
        quotedLength quote (y :: cs ++ d' :: us') = quotedLength quote (y :: cs ++ d :: us) :=
      quotedLength_local hquote h
    have hpair (h : (quotedLength quote (cs ++ d :: us)).1 ≤ cs.length) :
        quotedLength quote (cs ++ d' :: us') = quotedLength quote (cs ++ d :: us) :=
      quotedLength_local hquote h
    simp only [List.cons_append, List.length_cons, quotedLength_cons_cons quote x y] at h hrest ⊢
    split_ifs at h ⊢
    · rw [hpair (by simpa using h)]
    · rfl
    · rw [hrest (by simpa using h)]

theorem typeLength_local (hend : isLineEnd d' = isLineEnd d) {depth : Nat}
    (h : typeLength depth (cs ++ d :: us) ≤ cs.length) :
    typeLength depth (cs ++ d' :: us') = typeLength depth (cs ++ d :: us) := by
  induction cs generalizing depth with
  | nil =>
      have hline : isLineEnd d := by
        by_contra hline
        simp only [List.nil_append, typeLength, if_neg hline, List.length_nil] at h
        split_ifs at h <;> simp at h
      simp [typeLength, hend, hline]
  | cons c cs ih =>
      simp only [List.cons_append, List.length_cons, typeLength] at h ⊢
      split_ifs at h ⊢
      · rfl
      · rw [ih (Nat.le_of_succ_le_succ h)]
      · rfl
      · rw [ih (Nat.le_of_succ_le_succ h)]
      · rw [ih (Nat.le_of_succ_le_succ h)]

theorem redirectionTail_of_ne {c : Char} (harrow : c ≠ '>') (hcall : c ≠ '&') :
    redirectionTail (c :: cs) = 0 := by
  unfold redirectionTail
  split
  case h_1 h => exact absurd (List.cons.inj h).1 harrow
  case h_2 h => exact absurd (List.cons.inj h).1 hcall
  case h_3 => rfl

theorem redirectionTail_local (hd : Replaces d' d)
    (h : redirectionTail (cs ++ d :: us) ≤ cs.length) :
    redirectionTail (cs ++ d' :: us') = redirectionTail (cs ++ d :: us) := by
  have hstream : isStream d' = isStream d := hd.apply_eq rfl
  match cs with
  | [] =>
    have harrow : d ≠ '>' := by
      rintro rfl
      simp [redirectionTail] at h
    have hcall : d ≠ '&' := by
      rcases hd with ⟨-, hcall⟩ | ⟨-, rfl⟩
      · exact hcall
      · decide
    have harrow' : d' ≠ '>' := fun h => harrow ((hd.eq_iff (by decide) (by decide)).mp h)
    have hcall' : d' ≠ '&' := fun h => hcall ((hd.eq_iff (by decide) (by decide)).mp h)
    rw [List.nil_append, List.nil_append, redirectionTail_of_ne harrow hcall,
      redirectionTail_of_ne harrow' hcall']
  | [x] =>
    by_cases harrow : x = '>'
    · subst harrow
      rfl
    by_cases hcall : x = '&'
    · subst hcall
      simp only [List.cons_append, List.nil_append, redirectionTail, hstream]
    · rw [List.cons_append, List.cons_append, redirectionTail_of_ne harrow hcall,
        redirectionTail_of_ne harrow hcall]
  | x :: y :: cs =>
    by_cases harrow : x = '>'
    · subst harrow
      rfl
    by_cases hcall : x = '&'
    · subst hcall
      rfl
    · exact (redirectionTail_of_ne harrow hcall).trans (redirectionTail_of_ne harrow hcall).symm

/-- The answer `a` of a scan tells of a token that ends within `n` characters. If it is a run of blanks,
`blanks` may not stand behind it. -/
structure Ends (c : Char) (n : Nat) (blanks : Prop) (a : TokenKind × Nat) : Prop where
  le : a.2 ≤ n
  lt : blanks → Text.isBlank c → a.1 = .whitespace → a.2 < n

/-- If the answer `a` is known to end so, `b` is the same. -/
def Stays (c : Char) (n : Nat) (blanks : Prop) (a b : TokenKind × Nat) : Prop :=
  Ends c n blanks a → b = a

namespace Stays

variable {n : Nat} {blanks : Prop}

theorem refl (a : TokenKind × Nat) : Stays c n blanks a a := fun _ => rfl

theorem pair {p p' : Prop} [Decidable p] [Decidable p'] (hp : p' ↔ p) {a a' b b' : TokenKind × Nat}
    (ha : p → Stays c n blanks a a') (hb : ¬p → Stays c n blanks b b') :
    Stays c n blanks (if p then a else b) (if p' then a' else b') := by
  by_cases h : p
  · rw [if_pos h, if_pos (hp.mpr h)]
    exact ha h
  · rw [if_neg h, if_neg (mt hp.mp h)]
    exact hb h

theorem beyond {a b : TokenKind × Nat} (h : n < a.2) : Stays c n blanks a b :=
  fun hends => absurd hends.le (Nat.not_le_of_gt h)

theorem length {kind : TokenKind} {m m' : Nat} (h : m ≤ n → m' = m) :
    Stays c n blanks (kind, m) (kind, m') :=
  fun hends => congrArg (Prod.mk kind) (h hends.le)

end Stays

variable {blanks : Prop}

theorem scanAt_local (hd : Replaces d' d) :
    Stays c cs.length blanks (scanAt (cs ++ d :: us)) (scanAt (cs ++ d' :: us')) := by
  cases cs with
  | nil =>
      have hname : (Text.isAlphanumeric d' || d' = '_') = (Text.isAlphanumeric d || d = '_') :=
        hd.apply_eq (q := fun d => Text.isAlphanumeric d || d = '_') (by decide)
      rw [List.nil_append, List.nil_append, scanAt, scanAt]
      refine .pair (hd.eq_iff (by decide) (by decide)) (fun _ => .beyond Nat.one_pos) fun _ => ?_
      refine .pair (hd.eq_iff (by decide) (by decide)) (fun _ => .beyond Nat.one_pos) fun _ => ?_
      refine .pair (or_congr (hd.eq_iff (by decide) (by decide)) (hd.eq_iff (by decide) (by decide)))
        (fun _ => .beyond (Nat.succ_pos _)) fun _ => ?_
      refine .pair (by rw [hname]) (fun h => .beyond ?_) fun _ => .refl _
      rw [runLength_cons, if_pos (by simp only [h, Bool.true_or])]
      exact Nat.succ_pos _
  | cons x cs =>
      rw [List.cons_append, List.cons_append, scanAt, scanAt]
      refine .pair .rfl (fun _ => .refl _) fun _ => ?_
      refine .pair .rfl (fun _ => .refl _) fun _ => ?_
      refine .pair .rfl (fun _ hends => ?_) fun _ => ?_
      · have hreach := Nat.le_of_succ_le_succ hends.le
        rw [reach_local (by simp) hreach]
      · refine .pair .rfl (fun hx => .length fun h => ?_) fun _ => .refl _
        rw [← List.cons_append] at h
        refine runLength_local h (.inl ?_)
        exact hd.apply_eq (q := fun d => Text.isAlphanumeric d || d = '_' || d = ':') (by decide)

theorem scanDollar_local (hd : Replaces d' d) :
    Stays c cs.length blanks (scanDollar (cs ++ d :: us)) (scanDollar (cs ++ d' :: us')) := by
  have hname : isVariableChar d' = isVariableChar d := hd.apply_eq (by decide)
  cases cs with
  | nil =>
      rw [List.nil_append, List.nil_append, scanDollar, scanDollar]
      refine .pair (hd.eq_iff (by decide) (by decide)) (fun _ => .beyond Nat.one_pos) fun _ => ?_
      refine .pair (hd.eq_iff (by decide) (by decide)) (fun _ => .beyond (Nat.succ_pos _)) fun _ => ?_
      refine .pair (or_congr (hd.eq_iff (by decide) (by decide))
        (or_congr (hd.eq_iff (by decide) (by decide)) (hd.eq_iff (by decide) (by decide))))
        (fun _ => .beyond Nat.one_pos) fun _ => ?_
      refine .pair (by rw [hname]) (fun h => .beyond ?_) fun _ => .refl _
      rw [runLength_cons, if_pos h]
      exact Nat.succ_pos _
  | cons x cs =>
      rw [List.cons_append, List.cons_append, scanDollar, scanDollar]
      refine .pair .rfl (fun _ => .refl _) fun _ => ?_
      refine .pair .rfl (fun _ => .length fun h => ?_) fun _ => ?_
      · rw [reach_local (by simp) (Nat.le_of_succ_le_succ h)]
      refine .pair .rfl (fun _ => .refl _) fun _ => ?_
      refine .pair .rfl (fun _ => .length fun h => ?_) fun _ => .refl _
      rw [← List.cons_append] at h
      exact runLength_local h (.inl hname)

theorem scanParameter_local (hd : Replaces d' d) :
    Stays c cs.length blanks (scanParameter (cs ++ d :: us)) (scanParameter (cs ++ d' :: us')) := by
  let p d := !isWordBreak d && d ≠ ':' && d ≠ '.' && d ≠ '['
  intro hends
  have hrun : runLength p (cs ++ d :: us) ≤ cs.length := by
    refine Nat.le_trans ?_ hends.le
    unfold scanParameter
    dsimp only
    split <;> simp [p]
  have hrun' : runLength p (cs ++ d' :: us') = runLength p (cs ++ d :: us) :=
    runLength_local hrun (.inl (hd.apply_eq (by decide)))
  have hcolon : ((cs ++ d' :: us').drop (runLength p (cs ++ d :: us))).head? = some ':' ↔
      ((cs ++ d :: us).drop (runLength p (cs ++ d :: us))).head? = some ':' := by
    rw [List.drop_append_of_le_length hrun, List.drop_append_of_le_length hrun]
    exact hd.head?_iff (by decide) (by decide)
  have heq (vs : List Char) : scanParameter vs =
      if (vs.drop (runLength p vs)).head? = some ':' then (.parameter true, runLength p vs + 1)
      else (.parameter false, runLength p vs) := rfl
  simp only [heq, hrun', hcolon]

/-- A line end that a backtick cancels. -/
theorem continuation_local (hd : Replaces d' d) :
    Stays c cs.length blanks
      (.whitespace, if ['\r', '\n'].isPrefixOf (cs ++ d :: us) then 2 else 1)
      (.whitespace, if ['\r', '\n'].isPrefixOf (cs ++ d' :: us') then 2 else 1) := by
  match cs with
  | [] =>
    refine .beyond ?_
    dsimp only [List.length_nil]
    split <;> simp
  | [x] =>
    have hline : ('\n' == d') = ('\n' == d) := by
      rw [Bool.eq_iff_iff, beq_iff_eq, beq_iff_eq, eq_comm, eq_comm (b := d)]
      exact hd.eq_iff (by decide) (by decide)
    simp only [List.cons_append, List.nil_append, List.isPrefixOf, hline]
    exact .refl _
  | x :: y :: cs => exact .refl _

theorem scanString_local {quote : Char} (hquote : d' = quote ↔ d = quote) :
    Stays c cs.length blanks (scanString quote (cs ++ d :: us))
      (scanString quote (cs ++ d' :: us')) := by
  intro hends
  rw [scanString, scanString, quotedLength_local hquote hends.le]

-- One step for each line of the definition, in its order.
theorem scan_local (hd : Replaces d' d) :
    Stays c cs.length (Text.isBlank d' ∧ d' ≠ d) (scan c (cs ++ d :: us))
      (scan c (cs ++ d' :: us')) := by
  have hhead (x : Char) (hblank : x ≠ ' ') (hmark : x ≠ '<') :
      (cs ++ d' :: us').head? = some x ↔ (cs ++ d :: us).head? = some x :=
    hd.head?_iff hblank hmark
  have hend : isLineEnd d' = isLineEnd d := hd.apply_eq rfl
  unfold scan
  refine .pair .rfl (fun _ => .refl _) fun _ => ?_
  refine .pair .rfl (fun _ => ?_) fun _ => ?_
  · simp only [hhead '\n' (by decide) (by decide)]
    exact .refl _
  refine .pair (by rw [hd.head?_any (by decide)]) (fun _ => continuation_local hd) fun _ => ?_
  refine .pair .rfl (fun hc hends => ?_) fun _ => ?_
  -- a run of blanks, which a blank would go on with
  · refine congrArg _ (runLength_local hends.le ?_)
    rcases hd with ⟨rfl, -⟩ | ⟨rfl, rfl⟩
    · exact .inl rfl
    · exact .inr (hends.lt (by decide) hc rfl)
  refine .pair .rfl (fun _ => .length fun h => runLength_local h (.inl (by rw [hend]))) fun _ => ?_
  refine .pair (by rw [hhead _ (by decide) (by decide)]) (fun _ => ?_) fun _ => ?_
  · cases cs with
    | nil => exact .beyond (Nat.succ_pos _)
    | cons x cs =>
        refine .length fun h => ?_
        rw [List.cons_append, List.cons_append, List.tail_cons, List.tail_cons,
          reach_local (by simp) (Nat.le_of_succ_le_succ h)]
  iterate 6 refine .pair .rfl (fun _ => .refl _) fun _ => ?_
  iterate 2
    refine .pair .rfl (fun _ => ?_) fun _ => ?_
    · exact .pair (hhead _ (by decide) (by decide)) (fun _ => .refl _) fun _ => .refl _
  refine .pair .rfl (fun hc => ?_) fun _ => ?_
  · refine scanString_local (hd.eq_iff ?_ ?_) <;> rcases hc with rfl | rfl <;> decide
  refine .pair .rfl (fun _ => scanAt_local hd) fun _ => ?_
  refine .pair .rfl (fun _ => scanDollar_local hd) fun _ => ?_
  refine .pair .rfl (fun _ => .length fun h => typeLength_local hend h) fun _ => ?_
  refine .pair .rfl (fun _ => .length fun h => redirectionTail_local hd h) fun _ => ?_
  refine .pair .rfl (fun _ => .refl _) fun _ => ?_
  refine .pair (by rw [hhead _ (by decide) (by decide)]) (fun _ => ?_) fun _ => ?_
  · cases cs with
    | nil => exact .beyond (Nat.succ_pos _)
    | cons x cs =>
        refine .length fun h => ?_
        rw [List.cons_append, List.cons_append, List.tail_cons, List.tail_cons,
          redirectionTail_local hd (Nat.le_of_succ_le_succ h)]
  refine .pair ?_ (fun _ => scanParameter_local hd) fun _ => ?_
  · rw [startsParameter, startsParameter, hd.head?_any (by decide)]
  refine .pair .rfl (fun _ => .refl _) fun _ => ?_
  exact .length fun h => runLength_local h (.inl (hd.apply_eq (q := fun d => !isWordBreak d) (by decide)))

/-- The token is a run of blanks, to which blanks behind it belong. -/
def takesBlanks (t : Token) : Bool :=
  t.kind = .whitespace && t.text.toList.head?.any Text.isBlank

theorem takesBlanks_token (offset : Nat) (c : Char) (cs : List Char) :
    takesBlanks (token offset c cs) = ((scan c cs).1 = .whitespace && Text.isBlank c) := by
  rw [takesBlanks, toList_text_token]
  rfl

theorem add_utf8Len_cons (offset : Nat) (c : Char) (cs : List Char) :
    offset + utf8Len (c :: cs) = offset + c.utf8Size + utf8Len cs := by
  rw [String.utf8Len_cons, Nat.add_assoc, Nat.add_comm c.utf8Size]

/-- The tokens in front of a token stay, whatever the text is changed to from there on, if the first
character stays, or if it is a `<`, becomes a space and there are no blanks in front of it. -/
theorem tokensFrom_local {skip offset : Nat} {text : List Char} {before behind : List Token} {t : Token}
    (h : tokensFrom skip offset text = before ++ t :: behind) :
    ∃ cs d us, text = cs ++ d :: us ∧ skip ≤ cs.length ∧ (before ≠ [] → skip < cs.length) ∧
      t :: behind = tokensFrom 0 (offset + utf8Len cs) (d :: us) ∧
      ∀ d' us', Replaces d' d → (d' ≠ d → before.getLast?.any takesBlanks = false) →
        tokensFrom skip offset (cs ++ d' :: us') =
          before ++ tokensFrom 0 (offset + utf8Len cs) (d' :: us') := by
  induction text generalizing skip offset before with
  | nil =>
      rw [tokensFrom_nil] at h
      exact absurd h.symm (by simp)
  | cons c text ih =>
      cases skip with
      | succ skip =>
          rw [tokensFrom_succ_cons] at h
          obtain ⟨cs, d, us, rfl, hskip, hbefore, ht, hlocal⟩ := ih h
          rw [← add_utf8Len_cons] at ht
          refine ⟨c :: cs, d, us, rfl, Nat.succ_le_succ hskip,
            fun hne => Nat.succ_lt_succ (hbefore hne), ht, fun d' us' hd hblank => ?_⟩
          rw [List.cons_append, tokensFrom_succ_cons, add_utf8Len_cons]
          exact hlocal d' us' hd hblank
      | zero =>
          cases before with
          | nil => exact ⟨[], c, text, rfl, Nat.zero_le _, fun h => absurd rfl h, h.symm, fun _ _ _ _ => rfl⟩
          | cons b before =>
              rw [tokensFrom_zero_cons, List.cons_append] at h
              obtain ⟨hb, h⟩ := List.cons.inj h
              obtain ⟨cs, d, us, rfl, hskip, hbefore, ht, hlocal⟩ := ih h
              rw [← add_utf8Len_cons] at ht
              refine ⟨c :: cs, d, us, rfl, Nat.zero_le _, fun _ => Nat.succ_pos _, ht,
                fun d' us' hd hblank => ?_⟩
              have hlast (hne : d' ≠ d) : before.getLast?.any takesBlanks = false := by
                have hlast := hblank hne
                rw [List.getLast?_cons] at hlast
                cases h : before.getLast? with
                | none => rfl
                | some w => rwa [h] at hlast
              have hscan : scan c (cs ++ d' :: us') = scan c (cs ++ d :: us) := by
                refine scan_local hd ⟨hskip, fun ⟨_, hne⟩ hc hkind => ?_⟩
                refine hbefore fun hnil => ?_
                have hlast := hblank hne
                rw [hnil, ← hb] at hlast
                simp [takesBlanks_token, hkind, hc] at hlast
              have htoken : token offset c (cs ++ d' :: us') = b := by
                rw [← hb, token, token, hscan, List.take_append_of_le_length hskip,
                  List.take_append_of_le_length hskip]
              rw [List.cons_append, tokensFrom_zero_cons, List.cons_append, add_utf8Len_cons, hscan,
                hlocal d' us' hd hlast, htoken]

theorem tokensFrom_length_add (skip offset : Nat) (bs cs : List Char) :
    tokensFrom (bs.length + skip) offset (bs ++ cs) = tokensFrom skip (offset + utf8Len bs) cs := by
  induction bs generalizing offset with
  | nil => rw [List.length_nil, Nat.zero_add, List.nil_append, String.utf8Len_nil, Nat.add_zero]
  | cons c bs ih =>
      rw [List.length_cons, Nat.add_right_comm, List.cons_append, tokensFrom_succ_cons, ih,
        add_utf8Len_cons]

/-- A token that takes all of a text. -/
theorem tokensFrom_of_scan {kind : TokenKind} {c : Char} {cs : List Char}
    (h : scan c cs = (kind, cs.length)) (offset : Nat) :
    tokensFrom 0 offset (c :: cs) = [⟨kind, String.ofList (c :: cs), offset⟩] := by
  have hrest := tokensFrom_length_add 0 (offset + c.utf8Size) cs []
  rw [List.append_nil, Nat.add_zero, tokensFrom_nil] at hrest
  rw [tokensFrom_zero_cons, h, hrest, token, h, List.take_length]

/-- The tokens of a text further on. -/
theorem tokensFrom_add (k skip offset : Nat) (cs : List Char) :
    tokensFrom skip (offset + k) cs = (tokensFrom skip offset cs).map (Token.move k) := by
  induction cs generalizing skip offset with
  | nil => simp
  | cons c cs ih =>
      cases skip with
      | zero =>
          rw [tokensFrom_zero_cons, tokensFrom_zero_cons, List.map_cons, Nat.add_right_comm, ih]
          rfl
      | succ skip => rw [tokensFrom_succ_cons, tokensFrom_succ_cons, Nat.add_right_comm, ih]

/-- The text around a token of a script. The tokens in front of it stay, whatever the text is changed to
from there on, as `tokensFrom_local` says. -/
theorem tokenize_split {source : String} {before behind : List Token} {t : Token}
    (h : tokenize source = before ++ t :: behind) :
    ∃ cs d text after, source.toList = cs ++ d :: (text ++ after) ∧
      before.flatMap (·.text.toList) = cs ∧ t = token (utf8Len cs) d (text ++ after) ∧
      t.text.toList = d :: text ∧ behind = tokensFrom 0 (utf8Len cs + utf8Len (d :: text)) after ∧
      ∀ d' us', Replaces d' d → (d' ≠ d → before.getLast?.any takesBlanks = false) →
        tokensFrom 0 0 (cs ++ d' :: us') = before ++ tokensFrom 0 (utf8Len cs) (d' :: us') := by
  obtain ⟨cs, d, us, hcs, -, -, ht, hlocal⟩ := tokensFrom_local h
  simp only [Nat.zero_add] at ht hlocal
  have hbefore : before.flatMap (·.text.toList) = cs := by
    have hall := flatMap_tokensFrom 0 0 source.toList
    have hend := flatMap_tokensFrom 0 (utf8Len cs) (d :: us)
    rw [← ht] at hend
    rw [show tokensFrom 0 0 source.toList = _ from h, List.flatMap_append, hend, List.drop_zero,
      List.drop_zero, hcs] at hall
    exact List.append_cancel_right hall
  obtain ⟨rfl, rfl⟩ := List.cons.inj ht
  obtain ⟨text, after, rfl, htext⟩ : ∃ text after, us = text ++ after ∧
      text.length = (scan d us).2 :=
    ⟨_, _, (List.take_append_drop (scan d us).2 us).symm,
      List.length_take_of_le (Fits.scanned d us).length_le⟩
  refine ⟨cs, d, text, after, hcs, hbefore, rfl, ?_, ?_, hlocal⟩
  · rw [toList_text_token, ← htext, List.take_left]
  · rw [← htext, add_utf8Len_cons]
    exact tokensFrom_length_add 0 _ text after

end Lexer

/-- The one token that a text is. -/
theorem tokenize_of_scan {text : String} {c : Char} {cs : List Char} {kind : TokenKind}
    (htext : text.toList = c :: cs) (h : Lexer.scan c cs = (kind, cs.length)) :
    tokenize text = [⟨kind, text, 0⟩] := by
  rw [tokenize, htext, Lexer.tokensFrom_of_scan h, ← htext, String.ofList_toList]

end ScriptLint
