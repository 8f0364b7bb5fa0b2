import Mathlib.Data.List.TakeWhile
import Mathlib.Tactic.SplitIfs
import ScriptLint.Json.Reader

/-!
Tokens and the characters they are written with: what a scan finds is the token as it is written, and it
finds the same one with more text behind it, unless that could go on a number.
-/

namespace ScriptLint.Json.Token

/-- A character that may stand in a number. -/
def isNumeral (c : Char) : Bool :=
  c.isDigit || c ∈ ['-', '+', '.', 'e', 'E']

/-- What is measured consists of numerals, and does not depend on what stands behind them. -/
structure Measures (length? : List Char → Option Nat) : Prop where
  numerals : ∀ cs n, length? cs = some n → n ≤ cs.length ∧ ∀ c ∈ cs.take n, isNumeral c = true
  append : ∀ cs rest, (∀ c ∈ rest.head?, isNumeral c = false) → length? (cs ++ rest) = length? cs

theorem digitCount_append {cs rest : List Char} (h : ∀ c ∈ rest.head?, isNumeral c = false) :
    digitCount (cs ++ rest) = digitCount cs := by
  unfold digitCount
  rw [List.takeWhile_append]
  split_ifs with hall
  · have hrest : rest.takeWhile Char.isDigit = [] := by
      cases rest with
      | nil => rfl
      | cons c rest =>
          have hdigit : c.isDigit = false := (Bool.or_eq_false_iff.mp (h c rfl)).1
          rw [List.takeWhile_cons_of_neg (by simp [hdigit])]
    rw [hrest, List.append_nil, hall]
  · rfl

theorem measures_zero : Measures fun _ => some 0 :=
  ⟨fun _ _ h => by cases h; exact ⟨Nat.zero_le _, by simp⟩, fun _ _ _ => rfl⟩

/-- The length of a run of digits, of which there has to be one. -/
def digits (cs : List Char) : Option Nat :=
  if digitCount cs = 0 then none else some (digitCount cs)

theorem measures_digits : Measures digits where
  numerals cs n h := by
    unfold digits at h
    split_ifs at h
    obtain rfl := Option.some.inj h
    refine ⟨(List.takeWhile_prefix _).length_le, fun c hc => ?_⟩
    rw [digitCount, ← List.prefix_iff_eq_take.mp (List.takeWhile_prefix _)] at hc
    exact Bool.or_eq_true_iff.mpr (.inl (List.mem_takeWhile_imp hc))
  append cs rest h := by rw [digits, digitCount_append h, digits]

/-- Where the mark comes first, what is measured behind it; elsewhere the other measure. -/
def marked (mark : Char) (f g : List Char → Option Nat) : List Char → Option Nat
  | [] => g []
  | c :: cs => if c = mark then (f cs).map (· + 1) else g (c :: cs)

section Marked

variable {mark : Char} {f g : List Char → Option Nat}

theorem marked_cons (cs : List Char) : marked mark f g (mark :: cs) = (f cs).map (· + 1) :=
  if_pos rfl

theorem marked_of_head?_ne {cs : List Char} (h : cs.head? ≠ some mark) : marked mark f g cs = g cs := by
  cases cs with
  | nil => rfl
  | cons c cs => exact if_neg fun hc => h (congrArg some hc)

theorem Measures.marked (hmark : isNumeral mark = true) (hf : Measures f) (hg : Measures g) :
    Measures (marked mark f g) where
  numerals cs n h := by
    by_cases hhead : cs.head? = some mark
    · obtain ⟨cs, rfl⟩ := List.head?_eq_some_iff.mp hhead
      rw [marked_cons] at h
      obtain ⟨k, hk, rfl⟩ := Option.map_eq_some_iff.mp h
      obtain ⟨hle, hnumerals⟩ := hf.numerals cs k hk
      exact ⟨Nat.succ_le_succ hle, List.forall_mem_cons.mpr ⟨hmark, hnumerals⟩⟩
    · rw [marked_of_head?_ne hhead] at h
      exact hg.numerals cs n h
  append cs rest h := by
    by_cases hhead : cs.head? = some mark
    · obtain ⟨cs, rfl⟩ := List.head?_eq_some_iff.mp hhead
      rw [List.cons_append, marked_cons, marked_cons, hf.append cs rest h]
    · have hnext : (cs ++ rest).head? ≠ some mark := by
        rw [List.head?_append]
        intro hor
        rcases Option.or_eq_some_iff.mp hor with h' | ⟨-, h'⟩
        · exact hhead h'
        · exact absurd hmark (by simp [h mark h'])
      rw [marked_of_head?_ne hhead, marked_of_head?_ne hnext, hg.append cs rest h]

end Marked

/-- One measure behind the other. -/
def followed (f g : List Char → Option Nat) (cs : List Char) : Option Nat :=
  (f cs).bind fun m => (g (cs.drop m)).map (m + ·)

theorem Measures.followed {f g : List Char → Option Nat} (hf : Measures f) (hg : Measures g) :
    Measures (followed f g) where
  numerals cs n h := by
    obtain ⟨m, hm, h⟩ := Option.bind_eq_some_iff.mp h
    obtain ⟨k, hk, rfl⟩ := Option.map_eq_some_iff.mp h
    obtain ⟨hfirst, hfirsts⟩ := hf.numerals cs m hm
    obtain ⟨hsecond, hseconds⟩ := hg.numerals (cs.drop m) k hk
    rw [List.length_drop] at hsecond
    refine ⟨by omega, fun c hc => ?_⟩
    rw [List.take_add, List.mem_append] at hc
    exact hc.elim (hfirsts c) (hseconds c)
  append cs rest h := by
    unfold Token.followed
    rw [hf.append cs rest h]
    cases hm : f cs with
    | none => rfl
    | some m =>
        rw [Option.bind_some, Option.bind_some, List.drop_append_of_le_length (hf.numerals cs m hm).1,
          hg.append _ _ h]

theorem fractionLength?_eq : fractionLength? = marked '.' digits fun _ => some 0 := by
  funext cs
  unfold fractionLength?
  split
  case h_1 rest =>
    rw [marked_cons, digits]
    split_ifs
    · rfl
    · rw [Option.map_some, Nat.add_comm]
  case h_2 hne =>
    rw [marked_of_head?_ne fun hhead => ?_]
    obtain ⟨rest, rfl⟩ := List.head?_eq_some_iff.mp hhead
    exact hne rest rfl

/-- A sign, where there is one. -/
def signed (f : List Char → Option Nat) : List Char → Option Nat :=
  marked '+' f (marked '-' f f)

theorem map_signed_digits (cs : List Char) :
    (signed digits cs).map (· + 1) =
      let sign := if cs.head? = some '+' ∨ cs.head? = some '-' then 1 else 0
      let n := digitCount (cs.drop sign)
      if n = 0 then none else some (1 + sign + n) := by
  have hdigits (cs : List Char) (k : Nat) : (digits cs).map (· + k) =
      if digitCount cs = 0 then none else some (k + digitCount cs) := by
    unfold digits
    split_ifs
    · rfl
    · rw [Option.map_some, Nat.add_comm]
  unfold signed
  by_cases hplus : cs.head? = some '+'
  · obtain ⟨cs, rfl⟩ := List.head?_eq_some_iff.mp hplus
    rw [marked_cons, Option.map_map]
    exact hdigits cs 2
  rw [marked_of_head?_ne hplus]
  by_cases hminus : cs.head? = some '-'
  · obtain ⟨cs, rfl⟩ := List.head?_eq_some_iff.mp hminus
    rw [marked_cons, Option.map_map]
    exact hdigits cs 2
  rw [marked_of_head?_ne hminus, if_neg (not_or.mpr ⟨hplus, hminus⟩)]
  exact hdigits cs 1

theorem exponentLength?_eq :
    exponentLength? = marked 'e' (signed digits) (marked 'E' (signed digits) fun _ => some 0) := by
  funext cs
  unfold exponentLength?
  split
  case h_1 rest => rw [marked_cons, map_signed_digits]
  case h_2 rest =>
    have hhead : ('E' :: rest).head? ≠ some 'e' := by rw [List.head?_cons]; decide
    rw [marked_of_head?_ne hhead, marked_cons, map_signed_digits]
  case h_3 he hE =>
    have hhead {c : Char} (hne : ∀ rest, cs ≠ c :: rest) : cs.head? ≠ some c := fun h =>
      (List.head?_eq_some_iff.mp h).elim hne
    rw [marked_of_head?_ne (hhead he), marked_of_head?_ne (hhead hE)]

theorem unsignedLength?_eq : unsignedLength? =
    followed (marked '0' (fun _ => some 0) digits) (followed fractionLength? exponentLength?) := by
  have hrest (cs : List Char) (k : Nat) :
      ((fractionLength? (cs.drop k)).bind fun fraction =>
        (exponentLength? (cs.drop (k + fraction))).bind fun exponent =>
          some (k + fraction + exponent)) =
      (followed fractionLength? exponentLength? (cs.drop k)).map (k + ·) := by
    unfold followed
    simp only [List.drop_drop, Option.map_bind, Function.comp_def, Option.map_map, ← Nat.add_assoc]
    simp only [Option.map_eq_bind, Function.comp_def]
  funext cs
  unfold unsignedLength?
  rw [followed]
  by_cases hzero : cs.head? = some '0'
  · obtain ⟨cs, rfl⟩ := List.head?_eq_some_iff.mp hzero
    rw [marked_cons]
    exact hrest ('0' :: cs) 1
  rw [marked_of_head?_ne hzero, digits, if_neg hzero]
  dsimp only
  split_ifs
  · rfl
  · exact hrest cs _

theorem numberLength?_eq : numberLength? = marked '-' unsignedLength? unsignedLength? := by
  funext cs
  unfold numberLength?
  split
  case h_1 rest => rw [marked_cons]
  case h_2 hne =>
    rw [marked_of_head?_ne fun hhead => ?_]
    obtain ⟨rest, rfl⟩ := List.head?_eq_some_iff.mp hhead
    exact hne rest rfl

theorem numberLength?_measures : Measures numberLength? := by
  have hsigned : Measures (signed digits) :=
    measures_digits.marked (by decide) (measures_digits.marked (by decide) measures_digits)
  have hfraction : Measures fractionLength? := by
    rw [fractionLength?_eq]
    exact measures_digits.marked (by decide) measures_zero
  have hexponent : Measures exponentLength? := by
    rw [exponentLength?_eq]
    exact hsigned.marked (by decide) (hsigned.marked (by decide) measures_zero)
  have hunsigned : Measures unsignedLength? := by
    rw [unsignedLength?_eq]
    exact (measures_zero.marked (by decide) measures_digits).followed (hfraction.followed hexponent)
  rw [numberLength?_eq]
  exact hunsigned.marked (by decide) hunsigned

/-- What may stand between the quotes of a string. -/
inductive Body : List Char → Prop
  | nil : Body []
  | char {c : Char} {cs : List Char} (hcontrol : 32 ≤ c.toNat) (hescape : c ≠ '\\')
      (hquote : c ≠ '\x22') : Body cs → Body (c :: cs)
  | escape {e : Char} {cs : List Char} (h : e ∈ ['\x22', '\\', '/', 'b', 'f', 'n', 'r', 't']) :
      Body cs → Body ('\\' :: e :: cs)
  | unit {a b c d : Char} {cs : List Char}
      (h : (isHexDigit a && isHexDigit b && isHexDigit c && isHexDigit d) = true) :
      Body cs → Body ('\\' :: 'u' :: a :: b :: c :: d :: cs)

theorem Body.bodyLength? {body : List Char} (h : Body body) (rest : List Char) :
    bodyLength? (body ++ '\x22' :: rest) = some body.length := by
  induction h with
  | nil => rfl
  | @char c cs hcontrol hescape hquote _ ih =>
      rw [List.cons_append, Token.bodyLength?.eq_def]
      split
      case h_1 heq => cases heq
      case h_2 heq => exact absurd (List.cons.inj heq).1 hquote
      case h_3 heq => exact absurd (List.cons.inj heq).1 hescape
      case h_4 heq => exact absurd (List.cons.inj heq).1 hescape
      case h_5 heq =>
        cases heq
        rw [if_neg (by simp [hescape]; omega), ih]
        rfl
  | @escape e cs he _ ih =>
      have hu : e ≠ 'u' := by
        rintro rfl
        exact absurd he (by decide)
      rw [List.cons_append, List.cons_append, Token.bodyLength?, if_pos he, ih]
      · rfl
      · exact fun _ _ _ _ _ h => absurd h hu
  | unit hhex _ ih =>
      simp only [List.cons_append]
      rw [Token.bodyLength?, if_pos hhex, ih]
      rfl

theorem body_of_bodyLength? {cs : List Char} {n : Nat} (h : bodyLength? cs = some n) :
    ∃ body rest, Body body ∧ cs = body ++ '\x22' :: rest ∧ body.length = n := by
  fun_induction Token.bodyLength? cs generalizing n with
  | case1 => cases h
  | case2 rest => exact ⟨[], rest, .nil, rfl, Option.some.inj h⟩
  | case3 a b c d cs hhex ih =>
      obtain ⟨k, hk, rfl⟩ := Option.map_eq_some_iff.mp h
      obtain ⟨body, rest, hbody, rfl, rfl⟩ := ih hk
      exact ⟨_, rest, .unit hhex hbody, rfl, rfl⟩
  | case4 => cases h
  | case5 e cs hne he ih =>
      obtain ⟨k, hk, rfl⟩ := Option.map_eq_some_iff.mp h
      obtain ⟨body, rest, hbody, rfl, rfl⟩ := ih hk
      exact ⟨_, rest, .escape he hbody, rfl, rfl⟩
  | case6 => cases h
  | case7 => cases h
  | case8 c cs hquote hunit hescape hc ih =>
      obtain ⟨k, hk, rfl⟩ := Option.map_eq_some_iff.mp h
      obtain ⟨body, rest, hbody, rfl, rfl⟩ := ih hk
      rw [not_or, Nat.not_lt] at hc
      exact ⟨_, rest, .char hc.1 hc.2 hquote hbody, rfl, rfl⟩

/-- A text with no quotation mark in it, those behind a backslash apart. -/
inductive Quoted : List Char → Prop
  | nil : Quoted []
  | char {c : Char} {cs : List Char} (hescape : c ≠ '\\') (hquote : c ≠ '\x22') :
      Quoted cs → Quoted (c :: cs)
  | escape (e : Char) {cs : List Char} : Quoted cs → Quoted ('\\' :: e :: cs)

/-- Two characters that a class tells apart. -/
theorem ne_of_class (p : Char → Bool) {c d : Char} (hc : p c = true) (hd : p d = false) : c ≠ d :=
  ne_of_apply_ne p (by rw [hc, hd]; decide)

theorem Quoted.hexDigit {c : Char} {cs : List Char} (hc : isHexDigit c = true) (h : Quoted cs) :
    Quoted (c :: cs) :=
  h.char (ne_of_class isHexDigit hc (by decide)) (ne_of_class isHexDigit hc (by decide))

theorem Body.quoted {body : List Char} (h : Body body) : Quoted body := by
  induction h with
  | nil => exact .nil
  | char _ hescape hquote _ ih => exact ih.char hescape hquote
  | escape _ _ ih => exact ih.escape _
  | unit hhex _ ih =>
      simp only [Bool.and_eq_true] at hhex
      obtain ⟨⟨⟨ha, hb⟩, hc⟩, hd⟩ := hhex
      exact .escape 'u' (.hexDigit ha (.hexDigit hb (.hexDigit hc (ih.hexDigit hd))))

/-- What a token is written with. -/
def Sound : Token → Prop
  | number literal => literal ≠ [] ∧ ∀ c ∈ literal, isNumeral c = true
  | string body => Quoted body
  | _ => True

theorem numberLength?_pos {cs : List Char} {n : Nat} (h : numberLength? cs = some n) : 0 < n := by
  have hwhole {cs : List Char} {n : Nat} (h : unsignedLength? cs = some n) : 0 < n := by
    rw [unsignedLength?_eq] at h
    obtain ⟨m, hm, h⟩ := Option.bind_eq_some_iff.mp h
    obtain ⟨k, -, rfl⟩ := Option.map_eq_some_iff.mp h
    suffices 0 < m by omega
    by_cases hzero : cs.head? = some '0'
    · obtain ⟨cs, rfl⟩ := List.head?_eq_some_iff.mp hzero
      cases hm
      exact Nat.one_pos
    · rw [marked_of_head?_ne hzero, digits] at hm
      split_ifs at hm
      exact Option.some.inj hm ▸ Nat.pos_of_ne_zero ‹_›
  rw [numberLength?_eq] at h
  by_cases hminus : cs.head? = some '-'
  · obtain ⟨cs, rfl⟩ := List.head?_eq_some_iff.mp hminus
    rw [marked_cons] at h
    obtain ⟨k, -, rfl⟩ := Option.map_eq_some_iff.mp h
    exact Nat.succ_pos k
  · rw [marked_of_head?_ne hminus] at h
    exact hwhole h

theorem word_eq_some {word cs : List Char} {t u : Token} {k n : Nat} :
    (if word.isPrefixOf cs then some (u, k) else none) = some (t, n) ↔
      word <+: cs ∧ u = t ∧ k = n := by
  rw [Option.ite_none_right_eq_some, List.isPrefixOf_iff_prefix, Option.some_inj, Prod.mk.injEq]

/-- What a scan finds is a token as it is written. -/
theorem scan?_eq_some {c : Char} {cs : List Char} {t : Token} {n : Nat}
    (h : scan? c cs = some (t, n)) :
    t.Sound ∧ ∃ word rest, cs = word ++ rest ∧ t.written = c :: word ∧ word.length = n := by
  unfold scan? at h
  split at h
  case h_7 | h_8 | h_9 =>
    obtain ⟨⟨rest, rfl⟩, rfl, rfl⟩ := word_eq_some.mp h
    exact ⟨trivial, _, rest, rfl, rfl, rfl⟩
  case h_10 =>
    obtain ⟨k, hk, heq⟩ := Option.map_eq_some_iff.mp h
    obtain ⟨body, rest, hbody, rfl, rfl⟩ := body_of_bodyLength? hk
    cases heq
    rw [List.take_left]
    exact ⟨hbody.quoted, body ++ ['\x22'], rest, by rw [List.append_assoc]; rfl, rfl, List.length_append⟩
  case h_11 =>
    obtain ⟨k, hk, heq⟩ := Option.map_eq_some_iff.mp h
    cases heq
    obtain ⟨k, rfl⟩ := Nat.exists_eq_succ_of_ne_zero (numberLength?_pos hk).ne'
    obtain ⟨hle, hnumerals⟩ := numberLength?_measures.numerals _ _ hk
    exact ⟨⟨nofun, hnumerals⟩, cs.take k, cs.drop k, (List.take_append_drop k cs).symm, rfl,
      List.length_take_of_le (Nat.le_of_succ_le_succ hle)⟩
  all_goals
    cases h
    exact ⟨trivial, [], cs, rfl, rfl, rfl⟩

/-- Behind a number, nothing may stand that it could go on with. -/
def EndsBefore (t : Token) (rest : List Char) : Prop :=
  match t with
  | number _ => ∀ c ∈ rest.head?, isNumeral c = false
  | _ => True

theorem scan?_append {c : Char} {cs : List Char} {t : Token} {n : Nat}
    (h : scan? c cs = some (t, n)) {rest : List Char} (hends : t.EndsBefore rest) :
    scan? c (cs ++ rest) = some (t, n) := by
  unfold scan? at h ⊢
  split at h
  case h_7 | h_8 | h_9 =>
    obtain ⟨hword, rfl, rfl⟩ := word_eq_some.mp h
    exact word_eq_some.mpr ⟨hword.trans (List.prefix_append cs rest), rfl, rfl⟩
  case h_10 =>
    obtain ⟨k, hk, heq⟩ := Option.map_eq_some_iff.mp h
    obtain ⟨body, behind, hbody, rfl, rfl⟩ := body_of_bodyLength? hk
    rw [List.append_assoc, List.cons_append, hbody.bodyLength?, ← heq, List.take_left, Option.map_some,
      List.take_left]
  case h_11 =>
    obtain ⟨k, hk, heq⟩ := Option.map_eq_some_iff.mp h
    cases heq
    have hle := (numberLength?_measures.numerals _ _ hk).1
    rw [← List.cons_append, numberLength?_measures.append _ _ hends, hk, Option.map_some,
      List.take_append_of_le_length hle]
  all_goals exact h

end ScriptLint.Json.Token
