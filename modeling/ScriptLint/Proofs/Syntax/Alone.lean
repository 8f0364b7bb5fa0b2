import Mathlib.Data.List.TakeDrop
import ScriptLint.Proofs.Syntax.Word

/-!
Tokens by themselves. Where the lexer looks ahead to decide on a token, it sees characters that the token takes,
or it finds that the token ends there. So a token that is taken out of its script is read as the token that it
was, and one text makes one kind of token wherever it stands.
-/

namespace ScriptLint

namespace Text

/-- The blanks beyond ASCII. -/
def wideBlanks : List Nat :=
  [0x85, 0xA0, 0x1680, 0x2000, 0x2001, 0x2002, 0x2003, 0x2004, 0x2005, 0x2006, 0x2007, 0x2008, 0x2009,
    0x200A, 0x2028, 0x2029, 0x202F, 0x205F, 0x3000]

theorem mem_wideBlanks {c : Char} (h : isBlank c) (hc : ¬c.toNat < 128) : c.toNat ∈ wideBlanks := by
  simp only [isBlank, Bool.or_eq_true, Bool.and_eq_true, decide_eq_true_eq] at h
  simp only [wideBlanks, List.mem_cons, List.not_mem_nil, or_false]
  omega

theorem not_isBlank_of_isLetter {c : Char} (h : isLetter c) (hc : ¬c.toNat < 128) : isBlank c = false := by
  have hall : wideBlanks.all (fun n => !alphabeticRanges.any fun r => r.1 ≤ n && n ≤ r.2) = true := by
    decide +kernel
  rw [isLetter, if_neg hc, inRanges] at h
  by_contra hblank
  have hnone := List.all_eq_true.mp hall _ (mem_wideBlanks (eq_true_of_ne_false hblank) hc)
  rw [Bool.not_eq_true'] at hnone
  exact Bool.false_ne_true (hnone.symm.trans h)

end Text

namespace Lexer

variable {c : Char} {cs : List Char} {n : Nat}

/-- The characters that go on the name of a parameter. -/
def isNameChar (c : Char) : Bool := !isWordBreak c && c ≠ ':' && c ≠ '.' && c ≠ '['

/-- What makes a dash start a parameter goes on its name, so that the parameter takes it. -/
theorem isNameChar_of_startsName (h : (Text.isLetter c || c = '_' || c = '?') = true) : isNameChar c := by
  rw [Bool.or_eq_true, Bool.or_eq_true, decide_eq_true_eq, decide_eq_true_eq] at h
  rcases h with (hletter | rfl) | rfl
  · by_cases hascii : c.toNat < 128
    · have hword : startsWord c := startsWord_of_isAlpha (by rwa [Text.isLetter, if_pos hascii] at hletter)
      simp [isNameChar, not_isWordBreak_of_startsWord hword, ne_of_startsWord hword (x := ':') rfl,
        ne_of_startsWord hword (x := '.') rfl, ne_of_startsWord hword (x := '[') rfl]
    · have hne (x : Char) (hx : x.toNat < 128) : c ≠ x := by
        rintro rfl
        exact hascii hx
      have hmarks : c ∉ [';', '|', '&', ',', '(', ')', '{', '}', '\x27', '\x22', '\x60', '>', '<'] := by
        intro hmem
        have hall : [';', '|', '&', ',', '(', ')', '{', '}', '\x27', '\x22', '\x60', '>', '<'].all
            (·.toNat < 128) := rfl
        exact hascii (of_decide_eq_true (List.all_eq_true.mp hall c hmem))
      simp [isNameChar, isWordBreak, Text.not_isBlank_of_isLetter hletter hascii, hmarks,
        hne ':' (by decide), hne '.' (by decide), hne '[' (by decide)]
  · decide
  · decide

theorem runLength_take (p : Char → Bool) (cs : List Char) :
    runLength p (cs.take (runLength p cs)) = runLength p cs := by
  rw [runLength, runLength, ← List.prefix_iff_eq_take.mp (List.takeWhile_prefix p), List.takeWhile_takeWhile]
  simp

theorem reach_take {pattern : List Char} (hne : pattern ≠ []) (cs : List Char) :
    reach pattern (cs.take (reach pattern cs).1) = reach pattern cs := by
  cases h : lengthThrough? pattern cs with
  | none =>
      have hreach : reach pattern cs = (cs.length, false) := by rw [reach, h]
      rw [hreach, List.take_length, hreach]
  | some m =>
      have hreach : reach pattern cs = (m, true) := by rw [reach, h]
      have htake : lengthThrough? pattern (cs.take m ++ []) = some m := by
        have hwhole : lengthThrough? pattern (cs.take m ++ cs.drop m) = some m := by
          rw [List.take_append_drop, h]
        exact lengthThrough?_local hne hwhole (List.length_take_of_le (lengthThrough?_le h)).ge
      rw [List.append_nil] at htake
      rw [hreach, reach, htake]

theorem quotedLength_take (quote : Char) (cs : List Char) :
    quotedLength quote (cs.take (quotedLength quote cs).1) = quotedLength quote cs := by
  fun_induction quotedLength quote cs with
  | case1 => rfl
  | case2 c => rfl
  | case3 c d cs hpair n closed heq ih =>
      rw [heq] at ih
      rw [List.take_succ_cons, List.take_succ_cons, quotedLength_cons_cons, if_pos hpair, ih]
  -- the quote that ends the string: behind it nothing is left that could double it
  | case4 d cs hpair => simp [quotedLength]
  | case5 c d cs hpair hquote n closed heq ih =>
      rw [heq] at ih
      obtain ⟨m, rfl⟩ := Nat.exists_eq_add_of_le' (heq ▸ quotedLength_pos quote d cs)
      rw [List.take_succ_cons] at ih
      rw [List.take_succ_cons, List.take_succ_cons, quotedLength_cons_cons, if_neg hpair, if_neg hquote, ih]

theorem typeLength_take (depth : Nat) (cs : List Char) :
    typeLength depth (cs.take (typeLength depth cs)) = typeLength depth cs := by
  induction cs generalizing depth with
  | nil => rfl
  | cons c cs ih =>
      rw [typeLength]
      split_ifs with hend hopen hclose hlast
      · rfl
      · rw [List.take_succ_cons, typeLength, if_neg hend, if_pos hopen, ih]
      · rw [List.take_succ_cons, typeLength, if_neg hend, if_neg hopen, if_pos hclose, if_pos hlast]
      · rw [List.take_succ_cons, typeLength, if_neg hend, if_neg hopen, if_pos hclose, if_neg hlast, ih]
      · rw [List.take_succ_cons, typeLength, if_neg hend, if_neg hopen, if_neg hclose, ih]

theorem redirectionTail_take (cs : List Char) :
    redirectionTail (cs.take (redirectionTail cs)) = redirectionTail cs := by
  match cs with
  | [] => rfl
  | c :: cs =>
    by_cases harrow : c = '>'
    · subst harrow
      rfl
    by_cases hcall : c = '&'
    · subst hcall
      cases cs with
      | nil => rfl
      | cons d cs =>
          rw [redirectionTail]
          split_ifs with hstream
          · exact if_pos hstream
          · rfl
    · rw [redirectionTail_of_ne harrow hcall]
      rfl

/-- If the answer `a` takes `n` characters, these suffice for it: `b` is the same. -/
def Suffice (n : Nat) (a b : TokenKind × Nat) : Prop := a.2 = n → b = a

namespace Suffice

variable {a a' b b' : TokenKind × Nat}

theorem refl (a : TokenKind × Nat) : Suffice n a a := fun _ => rfl

theorem beyond (h : a.2 ≠ n) : Suffice n a b := fun hn => absurd hn h

theorem length {kind : TokenKind} {m m' : Nat} (h : m = n → m' = m) : Suffice n (kind, m) (kind, m') :=
  fun hn => congrArg (Prod.mk kind) (h hn)

theorem left {p : Prop} [Decidable p] (ha : p → Suffice n a b) (ha' : ¬p → Suffice n a' b) :
    Suffice n (if p then a else a') b := by
  split
  case isTrue h => exact ha h
  case isFalse h => exact ha' h

theorem pair {p : Prop} [Decidable p] (ha : p → Suffice n a a') (hb : ¬p → Suffice n b b') :
    Suffice n (if p then a else b) (if p then a' else b') := by
  by_cases h : p
  · rw [if_pos h, if_pos h]
    exact ha h
  · rw [if_neg h, if_neg h]
    exact hb h

/-- The next character decides. If it is one that is asked for it is taken, and the end of a text is not. -/
theorem ahead {P : Option Char → Prop} [DecidablePred P] (hend : ¬P none) (hpos : P cs.head? → 0 < a.2)
    (ha : P cs.head? → Suffice n a a') (hb : ¬P cs.head? → Suffice n b b') :
    Suffice n (if P cs.head? then a else b) (if P (cs.take n).head? then a' else b') := by
  rw [List.head?_take]
  by_cases h : P cs.head?
  · rw [if_pos h]
    intro hn
    have hn0 : n ≠ 0 := hn ▸ Nat.ne_of_gt (hpos h)
    have h' : P (if n = 0 then none else cs.head?) := by rwa [if_neg hn0]
    rw [if_pos h']
    exact ha h hn
  · have h' : ¬P (if n = 0 then none else cs.head?) := by
      split
      · exact hend
      · exact h
    rw [if_neg h, if_neg h']
    exact hb h

end Suffice

theorem carriageReturn_take :
    Suffice n (.newline, if cs.head? = some '\n' then 1 else 0)
      (.newline, if (cs.take n).head? = some '\n' then 1 else 0) := by
  refine .length fun h => ?_
  rw [List.head?_take]
  by_cases hfeed : cs.head? = some '\n'
  · rw [if_pos hfeed] at h ⊢
    rw [← h, if_neg Nat.one_ne_zero, if_pos hfeed]
  · rw [if_neg hfeed] at h ⊢
    rw [← h, if_pos rfl, if_neg nofun]

/-- A line end that a backtick cancels. -/
theorem continuation_take :
    Suffice n (.whitespace, if ['\r', '\n'].isPrefixOf cs then 2 else 1)
      (.whitespace, if ['\r', '\n'].isPrefixOf (cs.take n) then 2 else 1) := by
  refine .length fun h => ?_
  by_cases hp : ['\r', '\n'].isPrefixOf cs
  · rw [if_pos hp] at h
    subst h
    obtain ⟨us, rfl⟩ := List.isPrefixOf_iff_prefix.mp hp
    rfl
  · have hp' : ¬['\r', '\n'].isPrefixOf (cs.take n) := by
      rw [List.isPrefixOf_iff_prefix] at hp ⊢
      exact fun h => hp (h.trans (List.take_prefix n cs))
    rw [if_neg hp, if_neg hp']

theorem scanString_take (quote : Char) :
    Suffice n (scanString quote cs) (scanString quote (cs.take n)) := by
  rintro rfl
  rw [scanString, scanString, quotedLength_take]

theorem scanAt_take : Suffice n (scanAt cs) (scanAt (cs.take n)) := by
  match cs, n with
  | [], n =>
    rw [List.take_nil]
    exact .refl _
  -- a sign that takes nothing is a word, with and without what stands behind it
  | d :: cs, 0 =>
    rw [scanAt]
    refine .left (fun _ => .beyond Nat.one_ne_zero) fun _ => ?_
    refine .left (fun _ => .beyond Nat.one_ne_zero) fun _ => ?_
    refine .left (fun _ => .beyond (Nat.succ_ne_zero _)) fun _ => ?_
    refine .left (fun hd => .beyond ?_) fun _ => .refl _
    rw [runLength_cons, if_pos (by rw [hd, Bool.true_or])]
    exact Nat.succ_ne_zero _
  | d :: cs, n + 1 =>
    rw [List.take_succ_cons, scanAt, scanAt]
    refine .pair (fun _ => .refl _) fun _ => .pair (fun _ => .refl _) fun _ => ?_
    refine .pair (fun _ h => ?_) fun _ => .pair (fun _ => .length fun h => ?_) fun _ => .refl _
    · obtain rfl := Nat.succ.inj h
      rw [reach_take (by simp)]
    · rw [← List.take_succ_cons, ← h, runLength_take]

theorem scanDollar_take : Suffice n (scanDollar cs) (scanDollar (cs.take n)) := by
  match cs, n with
  | [], n =>
    rw [List.take_nil]
    exact .refl _
  | d :: cs, 0 =>
    rw [scanDollar]
    refine .left (fun _ => .beyond Nat.one_ne_zero) fun _ => ?_
    refine .left (fun _ => .beyond (Nat.succ_ne_zero _)) fun _ => ?_
    refine .left (fun _ => .beyond Nat.one_ne_zero) fun _ => ?_
    refine .left (fun hd => .beyond ?_) fun _ => .refl _
    rw [runLength_cons, if_pos hd]
    exact Nat.succ_ne_zero _
  | d :: cs, n + 1 =>
    rw [List.take_succ_cons, scanDollar, scanDollar]
    refine .pair (fun _ => .refl _) fun _ => .pair (fun _ => .length fun h => ?_) fun _ => ?_
    · obtain rfl := Nat.succ.inj h
      rw [reach_take (by simp)]
    · refine .pair (fun _ => .refl _) fun _ => .pair (fun _ => .length fun h => ?_) fun _ => .refl _
      rw [← List.take_succ_cons, ← h, runLength_take]

theorem scanParameter_take : Suffice n (scanParameter cs) (scanParameter (cs.take n)) := by
  have heq (us : List Char) : scanParameter us =
      if (us.drop (runLength isNameChar us)).head? = some ':' then
        (.parameter true, runLength isNameChar us + 1)
      else (.parameter false, runLength isNameChar us) := rfl
  rw [heq cs]
  refine .left (fun hcolon h => ?_) fun hcolon h => ?_
  -- the colon is taken and ends the name, whatever stands behind it
  · obtain rfl : runLength isNameChar cs + 1 = n := h
    obtain ⟨us, hus⟩ := List.head?_eq_some_iff.mp hcolon
    have hlength : (cs.take (runLength isNameChar cs)).length = runLength isNameChar cs :=
      List.length_take_of_le (runLength_le _ _)
    have hsplit : cs.take (runLength isNameChar cs) ++ ':' :: us = cs := by
      rw [← hus, List.take_append_drop]
    have htake : cs.take (runLength isNameChar cs + 1) = cs.take (runLength isNameChar cs) ++ [':'] := by
      rw [List.take_add, hus, List.take_succ_cons, List.take_zero]
    have hle : runLength isNameChar (cs.take (runLength isNameChar cs) ++ ':' :: us) ≤
        (cs.take (runLength isNameChar cs)).length := by
      rw [hsplit, hlength]
    have hrun : runLength isNameChar (cs.take (runLength isNameChar cs) ++ [':']) =
        runLength isNameChar cs := by
      rw [runLength_local hle (.inl rfl), hsplit]
    rw [heq, htake, hrun, if_pos]
    rw [List.drop_append, hlength]
    simp
  · obtain rfl : runLength isNameChar cs = n := h
    rw [heq, runLength_take, if_neg]
    rw [List.drop_of_length_le (by simp)]
    exact nofun

theorem scanParameter_pos (h : startsParameter cs) : 0 < (scanParameter cs).2 := by
  cases cs with
  | nil => cases h
  | cons d cs =>
      have hrun : 0 < runLength isNameChar (d :: cs) := by
        rw [runLength_cons, if_pos (isNameChar_of_startsName h)]
        exact Nat.succ_pos _
      unfold scanParameter
      dsimp only
      split
      · exact Nat.succ_pos _
      · exact hrun

-- One step for each line of `scan`, in its order.
theorem scan_suffice (c : Char) (cs : List Char) (n : Nat) : Suffice n (scan c cs) (scan c (cs.take n)) := by
  unfold scan
  refine .pair (fun _ => .refl _) fun _ => .pair (fun _ => carriageReturn_take) fun _ => ?_
  refine .ahead (P := fun o => c = '\x60' ∧ o.any isLineEnd) nofun (fun _ => ?_)
    (fun _ => continuation_take) fun _ => ?_
  · dsimp only
    split <;> simp
  refine .pair (fun _ => .length fun h => ?_) fun _ => .pair (fun _ => .length fun h => ?_) fun _ => ?_
  · rw [← h, runLength_take]
  · rw [← h, runLength_take]
  refine .ahead (P := fun o => c = '<' ∧ o = some '#') nofun (fun _ => Nat.succ_pos _)
    (fun _ => .length fun h => ?_) fun _ => ?_
  · subst h
    rw [List.tail_take_eq_take_tail, Nat.add_sub_cancel, reach_take (by simp)]
  iterate 6 refine .pair (fun _ => .refl _) fun _ => ?_
  refine .pair (fun _ => .ahead (P := (· = some '|')) nofun (fun _ => Nat.one_pos) (fun _ => .refl _)
    fun _ => .refl _) fun _ => ?_
  refine .pair (fun _ => .ahead (P := (· = some '&')) nofun (fun _ => Nat.one_pos) (fun _ => .refl _)
    fun _ => .refl _) fun _ => ?_
  refine .pair (fun _ => scanString_take c) fun _ => .pair (fun _ => scanAt_take) fun _ => ?_
  refine .pair (fun _ => scanDollar_take) fun _ => .pair (fun _ => .length fun h => ?_) fun _ => ?_
  · rw [← h, typeLength_take]
  refine .pair (fun _ => .length fun h => ?_) fun _ => .pair (fun _ => .refl _) fun _ => ?_
  · rw [← h, redirectionTail_take]
  refine .ahead (P := fun o => (c = '*' ∨ isStream c) ∧ o = some '>') nofun (fun _ => Nat.succ_pos _)
    (fun _ => .length fun h => ?_) fun _ => ?_
  · subst h
    rw [List.tail_take_eq_take_tail, Nat.add_sub_cancel, redirectionTail_take]
  refine .ahead (P := fun o => Token.isDash c ∧ o.any fun d => Text.isLetter d || d = '_' || d = '?')
    nofun (fun h => scanParameter_pos h.2) (fun _ => scanParameter_take) fun _ => ?_
  refine .pair (fun _ => .refl _) fun _ => .length fun h => ?_
  rw [← h, runLength_take]

/-- What decided on a token lies inside of it. -/
theorem scan_take (c : Char) (cs : List Char) : scan c (cs.take (scan c cs).2) = scan c cs :=
  scan_suffice c cs _ rfl

theorem tokenize_text_token (offset : Nat) (c : Char) (cs : List Char) :
    tokenize (token offset c cs).text = [⟨(scan c cs).1, (token offset c cs).text, 0⟩] := by
  refine tokenize_of_scan (toList_text_token offset c cs) ?_
  rw [scan_take, List.length_take_of_le (Fits.scanned c cs).length_le]

end Lexer

theorem tokenize_text_of_mem {source : String} {t : Token} (h : t ∈ tokenize source) :
    tokenize t.text = [⟨t.kind, t.text, 0⟩] := by
  obtain ⟨before, c, behind, -, rfl⟩ := Lexer.exists_of_mem_tokensFrom h
  exact Lexer.tokenize_text_token _ c behind

/-- A token of a script, taken out of it, is one token of the same kind. So two tokens that say the same are of
one kind, whatever scripts they stand in. -/
theorem token_read_alone (source : String) (t : Token) (ht : t ∈ tokenize source) :
    tokenize t.text = [⟨t.kind, t.text, 0⟩] ∧
      ∀ source' : String, ∀ u ∈ tokenize source', u.text = t.text → u.kind = t.kind := by
  have halone := tokenize_text_of_mem ht
  refine ⟨halone, fun source' u hu htext => ?_⟩
  have hread := tokenize_text_of_mem hu
  rw [htext, halone] at hread
  exact (congrArg Token.kind (List.singleton_inj.mp hread)).symm

/-- In `a -Path:'it''s` the string ends with the script and has no closing quote. -/
theorem token_read_alone_unclosed :
    (⟨.string true, "'it''s", 8⟩ : Token) ∈ tokenize "a -Path:'it''s" ∧
      tokenize "'it''s" = [⟨.string true, "'it''s", 0⟩] ∧
      ∀ source' : String, ∀ u ∈ tokenize source', u.text = "'it''s" → u.kind = .string true := by
  have ht : (⟨.string true, "'it''s", 8⟩ : Token) ∈ tokenize "a -Path:'it''s" := by decide +kernel
  exact ⟨ht, token_read_alone _ _ ht⟩

end ScriptLint
