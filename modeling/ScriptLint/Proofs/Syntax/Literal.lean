import Mathlib.Data.List.Basic
import ScriptLint.Syntax.Literal

/-!
Where words and strings are cut to be read: an assignment operator is a beginning of its word, and what a
string or a number is read from is a piece of the text.
-/

namespace ScriptLint.Literal

theorem exists_operator_of_assignmentLength? {text : String} {n : Nat} (h : assignmentLength? text = some n) :
    ∃ operator ∈ assignmentOperators, ∃ tail, text = operator ++ tail ∧ operator.utf8ByteSize = n := by
  obtain ⟨operator, hfind, rfl⟩ := Option.map_eq_some_iff.mp h
  have hprefix := List.find?_some hfind
  obtain ⟨tail, htail⟩ := List.isPrefixOf_iff_prefix.mp hprefix
  refine ⟨operator, List.mem_of_find?_eq_some hfind, String.ofList tail, ?_, rfl⟩
  rw [← String.toList_inj, ← htail]
  simp

theorem exists_of_assignmentLength? {text : String} {n : Nat} (h : assignmentLength? text = some n) :
    ∃ head tail, text = head ++ tail ∧ head.toList.getLast? = some '=' ∧ head.utf8ByteSize = n := by
  obtain ⟨operator, hmem, tail, htext, hsize⟩ := exists_operator_of_assignmentLength? h
  have hends : ∀ operator ∈ assignmentOperators, operator.toList.getLast? = some '=' := by decide
  exact ⟨operator, tail, htext, hends operator hmem, hsize⟩

theorem getD_isInfix {o : Option (List Char)} {cs : List Char} (h : ∀ part ∈ o, part <:+: cs) :
    o.getD cs <:+: cs := by
  cases o with
  | none => exact List.infix_refl cs
  | some part => exact h part rfl

theorem isInfix_of_dropPrefix? {pattern cs part : List Char}
    (h : part ∈ dropPrefix? pattern cs) : part <:+: cs := by
  obtain ⟨_, h⟩ := Option.ite_none_right_eq_some.mp (Option.mem_def.mp h)
  obtain rfl := Option.some.inj h
  exact (List.drop_suffix _ _).isInfix

theorem isInfix_of_dropSuffix? {pattern cs part : List Char}
    (h : part ∈ dropSuffix? pattern cs) : part <:+: cs := by
  obtain ⟨_, h⟩ := Option.ite_none_right_eq_some.mp (Option.mem_def.mp h)
  obtain rfl := Option.some.inj h
  exact (List.take_prefix _ _).isInfix

theorem trimLineBreaks_isInfix (cs : List Char) : trimLineBreaks cs <:+: cs := by
  unfold trimLineBreaks
  simp only [Option.orElse_eq_orElse, Option.orElse_eq_or]
  refine List.IsInfix.trans (getD_isInfix fun part h => ?_) (getD_isInfix fun part h => ?_)
  · rcases Option.or_eq_some_iff.mp h with h | ⟨_, h⟩ <;> exact isInfix_of_dropSuffix? h
  · rcases Option.or_eq_some_iff.mp h with h | ⟨_, h⟩ <;> exact isInfix_of_dropPrefix? h

theorem contents_isInfix (text : String) : contents text <:+: text.toList := by
  have hbehind (cs before : List Char) : cs <:+: before ++ cs := (List.suffix_append _ _).isInfix
  have hclosed (pattern cs : List Char) : (dropSuffix? pattern cs).getD cs <:+: cs :=
    getD_isInfix fun _ => isInfix_of_dropSuffix?
  unfold contents
  split
  case h_1 cs h =>
    rw [h]
    exact (trimLineBreaks_isInfix _).trans ((hclosed _ cs).trans (hbehind cs ['@', '\x27']))
  case h_2 cs h =>
    rw [h]
    exact (trimLineBreaks_isInfix _).trans ((hclosed _ cs).trans (hbehind cs ['@', '\x22']))
  case h_3 cs h =>
    rw [h]
    exact (hclosed _ cs).trans (hbehind cs ['\x27'])
  case h_4 cs h =>
    rw [h]
    exact (hclosed _ cs).trans (hbehind cs ['\x22'])
  case h_5 => exact List.infix_refl _

/-- The cut behind the point of a number stands between two characters. -/
theorem isValid_behind_point {cs : List Char} (h : (unsigned cs).head? = some '.') :
    String.Pos.Raw.IsValid (String.ofList (unsigned cs)) ⟨1⟩ := by
  obtain ⟨digits, hdigits⟩ := List.head?_eq_some_iff.mp h
  rw [hdigits]
  refine String.Pos.Raw.isValid_iff_exists_append.mpr ⟨".", String.ofList digits, ?_, rfl⟩
  rw [← String.toList_inj]
  simp

end ScriptLint.Literal
