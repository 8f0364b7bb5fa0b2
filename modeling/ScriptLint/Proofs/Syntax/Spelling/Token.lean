import Mathlib.Data.List.TakeWhile
import ScriptLint.Proofs.Syntax.Spelling.Literal
import ScriptLint.Proofs.Syntax.Tiling
import ScriptLint.Syntax.Parse.Group

/-!
Tokens in another spelling. What a parse asks of the text of a token has the same answer in every spelling,
and what it makes of the text is spelled as the text is. Where carriage returns are put in, none may be
there already, and words hold no line feed.
-/

namespace ScriptLint

open String (utf8Len)

namespace Spelling

variable {w : Spelling} {x : Char} {s part : String} {cs : List Char}

theorem text_append (w : Spelling) (a b : String) : w.text (a ++ b) = w.text a ++ w.text b := by
  rw [text, String.toList_append, chars_append, String.ofList_append]
  rfl

theorem text_of_isMark (h : ∀ x ∈ s.toList, w.isMark x) : w.text s = s := by
  rw [text, chars_of_isMark h, String.ofList_toList]

theorem text_eq_iff (h : ∀ x ∈ part.toList, w.isMark x) : w.text s = part ↔ s = part := by
  constructor
  · intro hs
    have hchars : w.chars s.toList = part.toList ++ [] := by
      rw [List.append_nil, ← hs, Spelling.toList_text]
    obtain ⟨cs, hcs, hnil⟩ := exists_of_chars_eq_append h hchars
    cases cs with
    | nil => rwa [List.append_nil, String.toList_inj] at hcs
    | cons c cs =>
        rw [chars_cons] at hnil
        exact absurd (List.append_eq_nil_iff.mp hnil).1 char_ne_nil
  · rintro rfl
    exact text_of_isMark h

theorem head?_text (h : w.isMark x) : (w.text s).toList.head? = some x ↔ s.toList.head? = some x := by
  rw [Spelling.toList_text, head?_chars h]

theorem getLast?_chars (h : w.isMark x) : (w.chars cs).getLast? = some x ↔ cs.getLast? = some x := by
  rw [List.getLast?_eq_some_iff, List.getLast?_eq_some_iff]
  constructor
  · rintro ⟨ds, hds⟩
    obtain ⟨cs', hcs', -⟩ := exists_of_chars_eq_concat h hds
    exact ⟨cs', hcs'⟩
  · rintro ⟨cs', rfl⟩
    exact ⟨w.chars cs', by rw [chars_append, chars_cons_of_isMark h, chars_nil]⟩

theorem isMark_of_isDash (h : Token.isDash x) : w.isMark x := by
  simp only [Token.isDash, Bool.or_eq_true, decide_eq_true_eq] at h
  rcases h with (rfl | rfl) | rfl <;> exact isMark_of rfl

theorem respects_isDash (w : Spelling) : w.Respects Token.isDash :=
  ((respects_of_isMark (isMark_of rfl)).or (respects_of_isMark (isMark_of rfl))).or
    (respects_of_isMark (isMark_of rfl))

theorem mem_text (h : w.isMark x) : x ∈ (w.text s).toList ↔ x ∈ s.toList := by
  rw [Spelling.toList_text, mem_chars h]

/-- Without a line feed there is nothing to put a carriage return in front of. -/
theorem chars_returns (h : '\n' ∉ cs) : returns.chars cs = cs := by
  induction cs with
  | nil => rfl
  | cons c cs ih =>
      rw [List.mem_cons, not_or] at h
      rw [chars_cons, char, if_neg fun hc => h.1 hc.symm, ih h.2, List.singleton_append]

theorem utf8Len_chars (h : w = .returns → '\n' ∉ cs) : utf8Len (w.chars cs) = utf8Len cs := by
  cases w with
  | returns => rw [chars_returns (h rfl)]
  | folded =>
      clear h
      induction cs with
      | nil => rfl
      | cons c cs ih =>
          rw [chars_cons, char, List.singleton_append, String.utf8Len_cons, String.utf8Len_cons, ih,
            Text.utf8Size_toLower]

theorem utf8ByteSize_text (h : w = .returns → '\n' ∉ s.toList) :
    (w.text s).utf8ByteSize = s.utf8ByteSize := by
  rw [← String.utf8Len_toList, ← String.utf8Len_toList, Spelling.toList_text, utf8Len_chars h]

theorem folded_text (s : String) : folded.text s = Text.fold s :=
  congrArg String.ofList (List.flatMap_pure_eq_map Char.toLower s.toList)

theorem fold_text (h : w = .returns → '\n' ∉ s.toList) : Text.fold (w.text s) = Text.fold s := by
  cases w with
  | returns => rw [text, chars_returns (h rfl), String.ofList_toList]
  | folded => rw [folded_text, Text.fold_fold]

/-- The text of the token can be spelled without a change to the token. -/
def Suits (w : Spelling) (t : Token) : Prop :=
  w = .returns → '\r' ∉ t.text.toList ∧ (t.kind = .word → '\n' ∉ t.text.toList)

end Spelling

namespace Literal

open Spelling

variable {w : Spelling} {text : String} {cs : List Char}

theorem variableName_of_head?_ne (h : text.toList.head? ≠ some '@') :
    let name := (dropPrefix? ['$'] text.toList).getD text.toList
    variableName text = (String.ofList (((dropPrefix? ['{'] name).bind (dropSuffix? ['}'])).getD name),
      false) := by
  unfold variableName
  split
  case h_1 cs htext => exact absurd (by rw [htext]; rfl) h
  case h_2 => rfl

theorem variableName_text (w : Spelling) (text : String) :
    variableName (w.text text) = (w.text (variableName text).1, (variableName text).2) := by
  have hat : w.isMark '@' := isMark_of rfl
  by_cases h : text.toList.head? = some '@'
  · obtain ⟨cs, htext⟩ := List.head?_eq_some_iff.mp h
    have htext' : (w.text text).toList = '@' :: w.chars cs := by
      rw [toList_text, htext, chars_cons_of_isMark hat]
    simp only [variableName, htext, htext', ofList_chars]
  · have h' : (w.text text).toList.head? ≠ some '@' := fun h' => h ((head?_text hat).mp h')
    have hinner (name : List Char) :
        ((dropPrefix? ['{'] (w.chars name)).bind (dropSuffix? ['}'])).getD (w.chars name) =
          w.chars (((dropPrefix? ['{'] name).bind (dropSuffix? ['}'])).getD name) := by
      rw [dropPrefix?_chars (isMark_of_all rfl)]
      cases dropPrefix? ['{'] name with
      | none => rfl
      | some inner =>
          rw [Option.map_some, Option.bind_some, Option.bind_some, dropSuffix?_chars (isMark_of_all rfl),
            Option.getD_map]
    rw [variableName_of_head?_ne h, variableName_of_head?_ne h', toList_text,
      dropPrefix?_chars (isMark_of_all rfl), Option.getD_map, hinner, ofList_chars]

theorem unsigned_of_head?_ne (h : cs.head? ≠ some '-') (h' : cs.head? ≠ some '+') : unsigned cs = cs := by
  unfold unsigned
  split <;> simp_all

theorem unsigned_chars (w : Spelling) (cs : List Char) : unsigned (w.chars cs) = w.chars (unsigned cs) := by
  have hminus : w.isMark '-' := isMark_of rfl
  have hplus : w.isMark '+' := isMark_of rfl
  by_cases h : cs.head? = some '-'
  · obtain ⟨cs, rfl⟩ := List.head?_eq_some_iff.mp h
    rw [chars_cons_of_isMark hminus]
    rfl
  by_cases h' : cs.head? = some '+'
  · obtain ⟨cs, rfl⟩ := List.head?_eq_some_iff.mp h'
    rw [chars_cons_of_isMark hplus]
    rfl
  · rw [unsigned_of_head?_ne h h',
      unsigned_of_head?_ne (fun h₁ => h ((head?_chars hminus).mp h₁)) fun h₁ =>
        h' ((head?_chars hplus).mp h₁)]

theorem respects_isDigit (w : Spelling) : w.Respects Char.isDigit := by
  refine respects_of false (fun c hc => ?_) rfl
  rw [Text.isAlpha_iff, Text.isUpper_iff, Text.isLower_iff] at hc
  rw [Char.isDigit, Bool.and_eq_false_iff, decide_eq_false_iff_not, decide_eq_false_iff_not, ge_iff_le,
    UInt32.le_iff_toNat_le, UInt32.le_iff_toNat_le]
  have : '9'.val.toNat = 57 := rfl
  have : c.toNat = c.val.toNat := rfl
  omega

theorem isNumberLike_text (w : Spelling) (text : String) :
    isNumberLike (w.text text) = isNumberLike text := by
  have hpoint : w.isMark '.' := isMark_of rfl
  have hdigit {cs : List Char} : startsWithDigit (w.chars cs) = startsWithDigit cs :=
    any_head?_chars (respects_isDigit w) cs
  unfold isNumberLike
  rw [toList_text, unsigned_chars]
  dsimp only
  rw [hdigit]
  simp only [head?_chars hpoint]
  congr 1
  by_cases h : (unsigned text.toList).head? = some '.'
  · obtain ⟨cs, hcs⟩ := List.head?_eq_some_iff.mp h
    rw [hcs, chars_cons_of_isMark hpoint, List.tail_cons, List.tail_cons, hdigit]
  · simp only [h, decide_false, Bool.false_and]

theorem isPrefixOf_chars {part : List Char} (h : ∀ x ∈ part, w.isMark x) (cs : List Char) :
    part.isPrefixOf (w.chars cs) = part.isPrefixOf cs := by
  rw [Bool.eq_iff_iff, List.isPrefixOf_iff_prefix, List.isPrefixOf_iff_prefix]
  refine ⟨isPrefix_of_isPrefix_chars h, ?_⟩
  rintro ⟨ds, rfl⟩
  rw [chars_append, chars_of_isMark h]
  exact List.prefix_append ..

theorem assignmentLength?_text (w : Spelling) (text : String) :
    assignmentLength? (w.text text) = assignmentLength? text := by
  have hall : assignmentOperators.all fun operator =>
      operator.toList.all fun x => !x.isAlpha && x ≠ '\n' && x ≠ '\r' := by decide
  have hmark : ∀ operator ∈ assignmentOperators, ∀ x ∈ operator.toList, w.isMark x :=
    fun operator hoperator => isMark_of_all (List.all_eq_true.mp hall operator hoperator)
  have hfind (operators : List String) (h : operators ⊆ assignmentOperators) :
      operators.find? (·.toList.isPrefixOf (w.text text).toList) =
        operators.find? (·.toList.isPrefixOf text.toList) := by
    rw [toList_text]
    induction operators with
    | nil => rfl
    | cons operator operators ih =>
        obtain ⟨hoperator, h⟩ := List.cons_subset.mp h
        rw [List.find?_cons, List.find?_cons, isPrefixOf_chars (hmark operator hoperator), ih h]
  rw [assignmentLength?, assignmentLength?, hfind _ fun _ h => h]

end Literal

/-- Something stands behind what comes before the first equals sign if there is one. -/
theorem length_takeWhile_lt {cs : List Char} :
    (cs.takeWhile (· ≠ '=')).length < cs.length ↔ '=' ∈ cs := by
  have hprefix : cs.takeWhile (· ≠ '=') <+: cs := List.takeWhile_prefix _
  rw [← not_iff_not, Nat.not_lt]
  constructor
  · intro hle hmem
    have hall : cs.takeWhile (· ≠ '=') = cs := hprefix.eq_of_length_le hle
    have hne := List.takeWhile_eq_self_iff.mp hall '=' hmem
    simp at hne
  · intro hmem
    have hall : cs.takeWhile (· ≠ '=') = cs := by
      rw [List.takeWhile_eq_self_iff]
      exact fun c hc => decide_eq_true fun heq => hmem (heq ▸ hc)
    exact Nat.le_of_eq (congrArg List.length hall).symm

namespace Telling

variable {v : Telling} {t t' : Token} {s part : String} {x : Char}

/-- The text of the token can be told without a change to the token. -/
def Suits (v : Telling) (t : Token) : Prop := ∀ w ∈ v.spelling?, w.Suits t

theorem suits_of_eq_none (h : v.spelling? = none) (t : Token) : v.Suits t := fun w hw => by
  rw [h] at hw
  exact absurd hw (Option.not_mem_none w)

theorem text_append (v : Telling) (a b : String) : v.text (a ++ b) = v.text a ++ v.text b := by
  obtain ⟨u, _ | w⟩ := v
  · rfl
  · exact w.text_append a b

/-- A text of marks alone is told as it is, and no other text is told like it. -/
theorem text_eq_iff (h : part.toList.all (fun x => !x.isAlpha && x ≠ '\n' && x ≠ '\r') = true) :
    v.text s = part ↔ s = part := by
  obtain ⟨u, _ | w⟩ := v
  · rfl
  · exact Spelling.text_eq_iff fun x hx => Spelling.isMark_of (List.all_eq_true.mp h x hx)

theorem head?_text (h : (!x.isAlpha && x ≠ '\n' && x ≠ '\r') = true) :
    (v.text s).toList.head? = some x ↔ s.toList.head? = some x := by
  obtain ⟨u, _ | w⟩ := v
  · rfl
  · exact Spelling.head?_text (Spelling.isMark_of h)

theorem mem_text (h : (!x.isAlpha && x ≠ '\n' && x ≠ '\r') = true) :
    x ∈ (v.text s).toList ↔ x ∈ s.toList := by
  obtain ⟨u, _ | w⟩ := v
  · rfl
  · exact Spelling.mem_text (Spelling.isMark_of h)

theorem isOperand_text (v : Telling) (s : String) : Parse.isOperand (v.text s) = Parse.isOperand s := by
  obtain ⟨u, _ | w⟩ := v
  · rfl
  · show Parse.isOperand (w.text s) = _
    rw [Parse.isOperand, Literal.isNumberLike_text, Literal.assignmentLength?_text]
    rfl

theorem assignmentLength?_text (v : Telling) (s : String) :
    Literal.assignmentLength? (v.text s) = Literal.assignmentLength? s := by
  obtain ⟨u, _ | w⟩ := v
  · rfl
  · exact Literal.assignmentLength?_text w s

theorem variableName_text (v : Telling) (s : String) : Literal.variableName (v.text s) =
    (v.text (Literal.variableName s).1, (Literal.variableName s).2) := by
  obtain ⟨u, _ | w⟩ := v
  · rfl
  · exact Literal.variableName_text w s

theorem unquote_text (h : v.Suits t) : Literal.unquote (v.text t.text) =
    (v.text (Literal.unquote t.text).1, (Literal.unquote t.text).2) := by
  obtain ⟨u, _ | w⟩ := v
  · rfl
  · exact Literal.unquote_text fun hw => (h w rfl hw).1

theorem fold_text (h : v.Suits t) (hword : t.kind = .word) :
    Text.fold (v.text t.text) = Text.fold t.text := by
  obtain ⟨u, _ | w⟩ := v
  · rfl
  · exact Spelling.fold_text fun hw => (h w rfl hw).2 hword

/-- A piece of a word is as long as it is told. -/
theorem utf8ByteSize_text (h : v.Suits t) (hword : t.kind = .word) (hs : s.toList ⊆ t.text.toList) :
    (v.text s).utf8ByteSize = s.utf8ByteSize := by
  obtain ⟨u, _ | w⟩ := v
  · rfl
  · exact Spelling.utf8ByteSize_text fun hw hmem => (h w rfl hw).2 hword (hs hmem)

theorem quote_eq (htext : t'.text = v.text t.text) : t'.quote = t.quote := by
  obtain ⟨u, _ | w⟩ := v
  · rw [Token.quote, htext]
    rfl
  · have hmark : ∀ x, x = '\x27' ∨ x = '\x22' → w.isMark x := by
      rintro x (rfl | rfl) <;> exact Spelling.isMark_of rfl
    have hfind (cs : List Char) : (w.chars cs).find? (fun c => c = '\x27' || c = '\x22') =
        cs.find? fun c => c = '\x27' || c = '\x22' := by
      induction cs with
      | nil => rfl
      | cons c cs ih =>
          rw [Spelling.chars_cons, List.find?_append, ih]
          by_cases hc : c = '\x27' ∨ c = '\x22'
          · rw [Spelling.char_of_isMark (hmark c hc)]
            simp [hc]
          · have hnone : (w.char c).find? (fun c => c = '\x27' || c = '\x22') = none := by
              rw [List.find?_eq_none]
              intro d hd hquote
              have hd' : d = '\x27' ∨ d = '\x22' := by simpa using hquote
              rw [Spelling.eq_of_mem_char (hmark d hd') hd] at hd'
              exact hc hd'
            rw [hnone, Option.none_or, List.find?_cons_of_neg (by simpa using hc)]
    rw [Token.quote, htext]
    show (((w.text t.text).toList).find? _).getD _ = _
    rw [Spelling.toList_text, hfind]
    rfl

theorem parameterName_eq (hkind : t'.kind = t.kind) (htext : t'.text = v.text t.text) :
    t'.parameterName = v.text t.parameterName := by
  obtain ⟨u, _ | w⟩ := v
  · rw [Token.parameterName, hkind, htext]
    rfl
  · have hcolon (name : List Char) :
        String.ofList (if t.kind = .parameter true ∧ (w.chars name).getLast? = some ':' then
            (w.chars name).dropLast else w.chars name) =
          w.text (String.ofList (if t.kind = .parameter true ∧ name.getLast? = some ':' then
            name.dropLast else name)) := by
      simp only [Spelling.getLast?_chars (Spelling.isMark_of (w := w) (x := ':') rfl)]
      split
      case isTrue h =>
        obtain ⟨init, rfl⟩ := List.getLast?_eq_some_iff.mp h.2
        have hcolon : w.chars [':'] = [':'] := Spelling.chars_of_isMark (Spelling.isMark_of_all rfl)
        rw [Spelling.chars_append, hcolon, List.dropLast_concat, List.dropLast_concat, Spelling.ofList_chars]
      case isFalse => exact w.ofList_chars name
    have htext : t'.text.toList = w.chars t.text.toList := by
      rw [htext]
      exact Spelling.toList_text w t.text
    rw [Token.parameterName, hkind, htext]
    show _ = w.text t.parameterName
    rw [Token.parameterName]
    cases t.text.toList with
    | nil => exact hcolon []
    | cons c cs =>
        obtain ⟨d, us, hd⟩ := List.exists_cons_of_ne_nil (Spelling.char_ne_nil (w := w) (c := c))
        have hdash : Token.isDash d = Token.isDash c :=
          w.respects_isDash c d (hd ▸ List.mem_cons_self)
        have hcons : w.chars (c :: cs) = d :: (us ++ w.chars cs) := by
          rw [Spelling.chars_cons, hd, List.cons_append]
        cases h : Token.isDash c with
        | true =>
            obtain ⟨rfl, rfl⟩ : d = c ∧ us = [] := by
              rw [Spelling.char_of_isMark (Spelling.isMark_of_isDash h)] at hd
              exact ⟨(List.cons.inj hd).1.symm, (List.cons.inj hd).2.symm⟩
            simp only [hcons, h, if_true, List.nil_append]
            exact hcolon cs
        | false =>
            simp only [hcons, hdash, h, Bool.false_eq_true, if_false]
            rw [← hcons]
            exact hcolon (c :: cs)

/-- The key that a word starts with is told as a key. -/
theorem keyOf?_eq (hkind : t'.kind = t.kind) (htext : t'.text = v.text t.text) :
    Parse.keyOf? t' = (Parse.keyOf? t).map fun key => (v.text (String.ofList key)).toList := by
  obtain ⟨u, _ | w⟩ := v
  · have hid : (fun key => (text ⟨u, none⟩ (String.ofList key)).toList) = id :=
      funext fun key => String.toList_ofList
    have htext : t'.text = t.text := htext
    rw [hid, Option.map_id, id, Parse.keyOf?, Parse.keyOf?, hkind, htext]
  · have hequals : w.isMark '=' := Spelling.isMark_of rfl
    have htext : t'.text.toList = w.chars t.text.toList := by
      rw [htext]
      exact Spelling.toList_text w t.text
    have hkey : t'.text.toList.takeWhile (· ≠ '=') = w.chars (t.text.toList.takeWhile (· ≠ '=')) := by
      have hne : w.Respects fun c => decide (c ≠ '=') := by
        simpa only [decide_not] using (Spelling.respects_of_isMark hequals).not
      rw [htext, Spelling.takeWhile_chars hne]
    have hnil (cs : List Char) : w.chars cs ≠ [] ↔ cs ≠ [] := by
      cases cs with
      | nil => simp
      | cons c cs => simp [Spelling.char_ne_nil]
    have hlength : (w.chars (t.text.toList.takeWhile (· ≠ '='))).length < t'.text.toList.length ↔
        (t.text.toList.takeWhile (· ≠ '=')).length < t.text.toList.length := by
      rw [← hkey, length_takeWhile_lt, length_takeWhile_lt, htext, Spelling.mem_chars hequals]
    unfold Parse.keyOf?
    dsimp only
    rw [hkind, hkey]
    simp only [hnil, hlength]
    split_ifs
    · have hchars (key : List Char) : (w.text (String.ofList key)).toList = w.chars key := by
        rw [Spelling.toList_text, String.toList_ofList]
      exact congrArg some (hchars _).symm
    · rfl

end Telling

end ScriptLint
