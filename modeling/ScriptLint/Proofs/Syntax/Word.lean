import Mathlib.Data.List.TakeWhile
import ScriptLint.Proofs.Syntax.Literal
import ScriptLint.Proofs.Syntax.Locality
import ScriptLint.Text.Case

/-!
Words of a script. A word goes on to the next character that breaks it, whatever its first characters mean
behind it. So the text behind a place where a word is cut is not always read as it is read alone.
-/

namespace ScriptLint.Lexer

open String (utf8Len)

/-- The number of characters that go on a word. -/
def wordLength (cs : List Char) : Nat := runLength (fun d => !isWordBreak d) cs

/-- Behind a place where a word is cut the text is read as it is read alone: it breaks the word, or it is a
word by itself. -/
def startsAfresh : List Char → Bool
  | [] => true
  | c :: cs => isWordBreak c || scan c cs = (.word, wordLength cs)

/-- A character that starts a word wherever a token starts. -/
def startsWord (c : Char) : Bool := c.isAlpha || c = '='

variable {c : Char} {us cs : List Char}

theorem ne_of_startsWord (h : startsWord c) {x : Char} (hx : startsWord x = false) : c ≠ x := by
  rintro rfl
  rw [hx] at h
  cases h

theorem toNat_of_startsWord (h : startsWord c) : 61 ≤ c.toNat ∧ c.toNat ≤ 122 := by
  rw [startsWord, Bool.or_eq_true, decide_eq_true_iff] at h
  rcases h with h | rfl
  · rw [Text.isAlpha_iff, Text.isUpper_iff, Text.isLower_iff] at h
    omega
  · decide

theorem startsWord_of_isAlpha (h : c.isAlpha) : startsWord c := Bool.or_eq_true_iff.mpr (.inl h)

theorem lt_of_isAlpha (h : c.isAlpha) : c.toNat < 128 :=
  Nat.lt_of_le_of_lt (toNat_of_startsWord (startsWord_of_isAlpha h)).2 (by decide)

theorem isAlphanumeric_of_isAlpha (h : c.isAlpha) : Text.isAlphanumeric c := by
  rw [Text.isAlphanumeric, if_pos (lt_of_isAlpha h), Char.isAlphanum, h, Bool.true_or]

theorem not_isBlank_of_startsWord (h : startsWord c) : Text.isBlank c = false := by
  have := toNat_of_startsWord h
  simp only [Text.isBlank, Bool.or_eq_false_iff, Bool.and_eq_false_iff, decide_eq_false_iff_not]
  omega

theorem not_isWordBreak_of_startsWord (h : startsWord c) : isWordBreak c = false := by
  have hmarks : c ∉ [';', '|', '&', ',', '(', ')', '{', '}', '\x27', '\x22', '\x60', '>', '<'] := by
    intro hmem
    have hall : [';', '|', '&', ',', '(', ')', '{', '}', '\x27', '\x22', '\x60', '>', '<'].all
        (!startsWord ·) := rfl
    have hc := List.all_eq_true.mp hall c hmem
    rw [h] at hc
    cases hc
  rw [isWordBreak, not_isBlank_of_startsWord h, Bool.false_or, decide_eq_false hmarks]

theorem not_isStream_of_startsWord (h : startsWord c) : isStream c = false := by
  have hle := (toNat_of_startsWord h).1
  have : ¬c ≤ '6' := by
    rw [Char.le_def, UInt32.le_iff_toNat_le]
    exact Nat.not_le.mpr (Nat.lt_of_lt_of_le (by decide) hle)
  rw [isStream, decide_eq_false this, Bool.and_false]

theorem scan_of_startsWord (h : startsWord c) (cs : List Char) : scan c cs = (.word, wordLength cs) := by
  have hne (x : Char) (hx : startsWord x = false) : c ≠ x := ne_of_startsWord h hx
  have hstream := not_isStream_of_startsWord h
  have hdash : Token.isDash c = false := by
    simp [Token.isDash, hne '-' rfl, hne '\u2013' rfl, hne '\u2014' rfl]
  unfold scan
  simp [hne '\n' rfl, hne '\r' rfl, hne '\x60' rfl, not_isBlank_of_startsWord h, hne '#' rfl, hne '<' rfl,
    hne ';' rfl, hne ',' rfl, hne '{' rfl, hne '}' rfl, hne '(' rfl, hne ')' rfl, hne '|' rfl, hne '&' rfl,
    hne '\x27' rfl, hne '\x22' rfl, hne '@' rfl, hne '$' rfl, hne '[' rfl, hne '>' rfl, hne '*' rfl, hstream,
    hdash, not_isWordBreak_of_startsWord h, wordLength]

theorem wordLength_append (h : ∀ d ∈ us, isWordBreak d = false) (cs : List Char) :
    wordLength (us ++ cs) = us.length + wordLength cs := by
  rw [wordLength, runLength, List.takeWhile_append_of_pos (by simpa using h), List.length_append]
  rfl

/-- A text that starts with a word. -/
theorem tokensFrom_word (hc : startsWord c) (hus : ∀ d ∈ us, isWordBreak d = false) (offset : Nat)
    (cs : List Char) : tokensFrom 0 offset (c :: us ++ cs) =
      ⟨.word, String.ofList (c :: us) ++ String.ofList (cs.take (wordLength cs)), offset⟩ ::
        tokensFrom (wordLength cs) (offset + utf8Len (c :: us)) cs := by
  have hscan := scan_of_startsWord hc (us ++ cs)
  rw [wordLength_append hus] at hscan
  rw [List.cons_append, tokensFrom_zero_cons, token, hscan, tokensFrom_length_add, add_utf8Len_cons,
    List.take_length_add_append, ← List.cons_append, String.ofList_append]

/-- The tokens behind a place where a word is cut: what is left of the word, and what follows it. -/
theorem tokensFrom_of_startsAfresh (h : startsAfresh cs) (offset : Nat) :
    (if String.ofList (cs.take (wordLength cs)) = "" then tokensFrom (wordLength cs) offset cs
      else ⟨.word, String.ofList (cs.take (wordLength cs)), offset⟩ :: tokensFrom (wordLength cs) offset cs) =
      tokensFrom 0 offset cs := by
  cases cs with
  | nil => rfl
  | cons c cs =>
      cases hbreak : isWordBreak c with
      | true =>
          have hlength : wordLength (c :: cs) = 0 := by simp [wordLength, hbreak]
          rw [hlength, if_pos]
          rfl
      | false =>
          have hlength : wordLength (c :: cs) = wordLength cs + 1 := by simp [wordLength, hbreak]
          have hscan : scan c cs = (.word, wordLength cs) := by simpa [startsAfresh, hbreak] using h
          rw [hlength, List.take_succ_cons, if_neg, tokensFrom_zero_cons, token, hscan, tokensFrom_succ_cons]
          rw [← String.toList_inj, String.toList_ofList]
          exact List.cons_ne_nil _ _

/-- A variable with letters for its name, in front of an equals sign. -/
theorem tokensFrom_variable {name : List Char} (hne : name ≠ []) (hname : ∀ d ∈ name, d.isAlpha)
    (offset : Nat) (cs : List Char) :
    tokensFrom 0 offset ('$' :: name ++ '=' :: cs) =
      ⟨.variable, String.ofList ('$' :: name), offset⟩ ::
        tokensFrom 0 (offset + utf8Len ('$' :: name)) ('=' :: cs) := by
  have hletter {d : Char} (hd : d.isAlpha) : startsWord d ∧ isVariableChar d :=
    ⟨startsWord_of_isAlpha hd, by simp [isVariableChar, isAlphanumeric_of_isAlpha hd]⟩
  have hrun : runLength isVariableChar (name ++ '=' :: cs) = name.length := by
    rw [runLength, List.takeWhile_append_of_pos fun d hd => (hletter (hname d hd)).2,
      List.takeWhile_cons_of_neg (by decide), List.append_nil]
  have hscan : scan '$' (name ++ '=' :: cs) = (.variable, name.length) := by
    show scanDollar (name ++ '=' :: cs) = _
    cases name with
    | nil => exact absurd rfl hne
    | cons d name =>
        obtain ⟨hstarts, hvariable⟩ := hletter (hname d List.mem_cons_self)
        have hd (x : Char) (hx : startsWord x = false) : d ≠ x := ne_of_startsWord hstarts hx
        rw [List.cons_append] at hrun ⊢
        rw [scanDollar, if_neg (hd '(' rfl), if_neg (hd '{' rfl),
          if_neg (by simp [hd '$' rfl, hd '^' rfl, hd '?' rfl]), if_pos hvariable, hrun]
  have hskip := tokensFrom_length_add 0 (offset + '$'.utf8Size) name ('=' :: cs)
  rw [Nat.add_zero] at hskip
  rw [List.cons_append, tokensFrom_zero_cons, token, hscan, List.take_left, hskip, add_utf8Len_cons]

/-- An operator that assigns, in front of its value. -/
theorem tokensFrom_operator (offset : Nat) (cs : List Char) : tokensFrom 0 offset ('=' :: cs) =
    ⟨.word, "=" ++ String.ofList (cs.take (wordLength cs)), offset⟩ ::
      tokensFrom (wordLength cs) (offset + 1) cs :=
  @tokensFrom_word '=' [] rfl nofun offset cs

/-- The key of an entry, in front of its value. -/
theorem tokensFrom_key {name : List Char} (hne : name ≠ []) (hname : ∀ d ∈ name, d.isAlpha)
    (offset : Nat) (cs : List Char) :
    tokensFrom 0 offset (name ++ '=' :: cs) =
      ⟨.word, String.ofList name ++ ("=" ++ String.ofList (cs.take (wordLength cs))), offset⟩ ::
        tokensFrom (wordLength cs) (offset + utf8Len name + 1) cs := by
  cases name with
  | nil => exact absurd rfl hne
  | cons d name =>
      have hbreak : ∀ x ∈ name ++ ['='], isWordBreak x = false := by
        intro x hx
        rcases List.mem_append.mp hx with hx | hx
        · exact not_isWordBreak_of_startsWord (startsWord_of_isAlpha (hname x (List.mem_cons_of_mem d hx)))
        · rw [List.mem_singleton.mp hx]
          rfl
      have hword := tokensFrom_word (startsWord_of_isAlpha (hname d List.mem_cons_self)) hbreak offset cs
      have hlen : utf8Len (d :: (name ++ ['='])) = utf8Len (d :: name) + 1 := by
        rw [← List.cons_append, String.utf8Len_append]
        rfl
      have htext : String.ofList (d :: (name ++ ['='])) = String.ofList (d :: name) ++ "=" := by
        rw [← List.cons_append, String.ofList_append]
      rw [hlen, htext, String.append_assoc, ← Nat.add_assoc, List.cons_append, List.append_assoc] at hword
      exact hword

/-- A blank in front of something else. -/
theorem tokensFrom_space (h : ∀ c, cs.head? = some c → Text.isBlank c = false) (offset : Nat) :
    tokensFrom 0 offset (' ' :: cs) = ⟨.whitespace, " ", offset⟩ :: tokensFrom 0 (offset + 1) cs := by
  have hrun : runLength (fun d => Text.isBlank d && !isLineEnd d) cs = 0 := by
    cases cs with
    | nil => rfl
    | cons c cs => rw [runLength_cons, h c rfl, Bool.false_and, if_neg Bool.false_ne_true]
  have hscan : scan ' ' cs = (.whitespace, 0) := congrArg (Prod.mk TokenKind.whitespace) hrun
  rw [tokensFrom_zero_cons, token, hscan]
  rfl

/-- If an answer of the lexer tells of a word, this is one character or goes on to the next word break. -/
def Runs (cs : List Char) (answer : TokenKind × Nat) : Prop :=
  answer.1 = .word → answer.2 = 0 ∨ answer.2 = wordLength cs

namespace Runs

theorem of_ne {kind : TokenKind} {n : Nat} (h : kind ≠ .word) : Runs cs (kind, n) := fun hword => absurd hword h

theorem pair {p : Prop} [Decidable p] {a b : TokenKind × Nat} (ha : Runs cs a) (hb : Runs cs b) :
    Runs cs (if p then a else b) := by
  split
  · exact ha
  · exact hb

theorem atSign : Runs cs (scanAt cs) := by
  cases cs with
  | nil => exact fun _ => .inl rfl
  | cons c cs =>
      exact pair (of_ne nofun) (pair (of_ne nofun) (pair (of_ne nofun) (pair (of_ne nofun) fun _ => .inl rfl)))

theorem dollar : Runs cs (scanDollar cs) := by
  cases cs with
  | nil => exact fun _ => .inl rfl
  | cons c cs =>
      exact pair (of_ne nofun) (pair (of_ne nofun) (pair (of_ne nofun) (pair (of_ne nofun) fun _ => .inl rfl)))

theorem parameter : Runs cs (scanParameter cs) := pair (of_ne nofun) (of_ne nofun)

theorem scanned (c : Char) (cs : List Char) : Runs cs (scan c cs) := by
  unfold scan
  iterate 12 refine pair (of_ne nofun) ?_
  iterate 2 refine pair (pair (of_ne nofun) (of_ne nofun)) ?_
  refine pair (of_ne nofun) (pair atSign (pair dollar ?_))
  iterate 4 refine pair (of_ne nofun) ?_
  exact pair parameter (pair (fun _ => .inl rfl) fun _ => .inr rfl)

end Runs

/-- No word holds a line feed. -/
theorem feed_not_mem_word {source : String} {t : Token} (ht : t ∈ tokenize source) (hword : t.kind = .word) :
    '\n' ∉ t.text.toList := by
  obtain ⟨before, c, behind, -, rfl⟩ := exists_of_mem_tokensFrom ht
  have hc : c ≠ '\n' := by
    rintro rfl
    cases hword
  rw [toList_text_token, List.mem_cons, not_or]
  refine ⟨hc.symm, fun hmem => ?_⟩
  rcases Runs.scanned c behind hword with h | h
  · rw [h] at hmem
    cases hmem
  · rw [h, wordLength, runLength, ← List.prefix_iff_eq_take.mp (List.takeWhile_prefix _)] at hmem
    have hbreak := List.mem_takeWhile_imp hmem
    cases hbreak

theorem kind_scan_of_operator {operator : String} (h : operator ∈ Literal.assignmentOperators)
    (hstart : operator.toList <+: c :: cs) : (scan c cs).1 = .word := by
  obtain ⟨tail, htail⟩ := hstart
  simp only [Literal.assignmentOperators, List.mem_cons, List.not_mem_nil, or_false] at h
  rcases h with rfl | rfl | rfl | rfl | rfl | rfl | rfl <;> cases htail <;> rfl

/-- A token that starts with an operator which assigns is a word. -/
theorem kind_of_assignmentLength? {source : String} {t : Token} (ht : t ∈ tokenize source)
    (h : (Literal.assignmentLength? t.text).isSome) : t.kind = .word := by
  obtain ⟨before, c, behind, -, rfl⟩ := exists_of_mem_tokensFrom ht
  obtain ⟨n, hn⟩ := Option.isSome_iff_exists.mp h
  obtain ⟨operator, hmem, tail, htext, -⟩ := Literal.exists_operator_of_assignmentLength? hn
  have hstart : operator.toList <+: c :: behind.take (scan c behind).2 := by
    rw [← toList_text_token _ c behind, htext, String.toList_append]
    exact List.prefix_append _ _
  exact kind_scan_of_operator hmem (hstart.trans (by simpa using List.take_prefix _ _))

end ScriptLint.Lexer
