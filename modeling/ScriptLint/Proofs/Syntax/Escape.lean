import Mathlib.Data.List.Infix
import ScriptLint.Syntax.Lexer
import ScriptLint.Syntax.Literal

/-!
Escapes. Between double quotes a backtick escapes the character behind it, unless it is escaped itself, and
the lexer reads a string by this rule. Whether the value of the string depends on variables is asked more
simply, of each `$` and the one character in front of it. The two questions differ where a backtick is
escaped.
-/

namespace ScriptLint.Literal

/-- The character behind the text is escaped. -/
def escapesNext (cs : List Char) : Bool :=
  cs.foldl (fun escaped c => !escaped && c = '\x60') false

/-- Some `$` in the text is not escaped. -/
def HoldsVariable (cs : List Char) : Prop :=
  ∃ before, before ++ ['$'] <+: cs ∧ escapesNext before = false

/-- Some `$` in the text has no backtick right in front of it, escaped or not. -/
def HoldsPlainDollar (cs : List Char) : Prop :=
  ∃ before, before ++ ['$'] <+: cs ∧ before.getLast? ≠ some '\x60'

theorem escapesNext_concat (cs : List Char) (c : Char) :
    escapesNext (cs ++ [c]) = (!escapesNext cs && c = '\x60') := by
  simp [escapesNext]

/-- Behind a text that escapes nothing another one is read as if nothing stood in front of it. -/
theorem escapesNext_append {front : List Char} (h : escapesNext front = false) (cs : List Char) :
    escapesNext (front ++ cs) = escapesNext cs := by
  unfold escapesNext at *
  rw [List.foldl_append, h]

/-- What is escaped has a backtick in front of it. -/
theorem getLast?_of_escapesNext {cs : List Char} (h : escapesNext cs) :
    cs.getLast? = some '\x60' := by
  rcases List.eq_nil_or_concat cs with rfl | ⟨front, c, rfl⟩
  · cases h
  · rw [List.concat_eq_append, escapesNext_concat, Bool.and_eq_true, decide_eq_true_eq] at h
    simp [h.2]

theorem HoldsPlainDollar.holdsVariable {cs : List Char} (h : HoldsPlainDollar cs) :
    HoldsVariable cs := by
  obtain ⟨before, hbefore, hlast⟩ := h
  exact ⟨before, hbefore, Bool.eq_false_iff.mpr fun h => hlast (getLast?_of_escapesNext h)⟩

/-- Where no two backticks stand side by side, none is escaped. -/
theorem HoldsVariable.holdsPlainDollar {cs : List Char} (h : HoldsVariable cs)
    (hcs : ¬['\x60', '\x60'] <:+: cs) : HoldsPlainDollar cs := by
  obtain ⟨before, hbefore, hescapes⟩ := h
  refine ⟨before, hbefore, fun hlast => hcs ?_⟩
  obtain ⟨front, rfl⟩ := List.getLast?_eq_some_iff.mp hlast
  -- the last backtick escapes nothing, so there is one in front that escapes it
  have hfront : escapesNext front := by simpa [escapesNext_concat] using hescapes
  obtain ⟨front, rfl⟩ := List.getLast?_eq_some_iff.mp (getLast?_of_escapesNext hfront)
  refine List.IsInfix.trans ⟨front, ['$'], ?_⟩ hbefore.isInfix
  simp

/-- The text is said to depend on variables if some `$` has no backtick in front of it. -/
theorem expands_iff (cs : List Char) : expands ' ' cs ↔ HoldsPlainDollar cs := by
  suffices h : ∀ c cs, expands c cs = true ↔
      ∃ before, before ++ ['$'] <+: cs ∧ (c :: before).getLast? ≠ some '\x60' by
    rw [h]
    refine exists_congr fun before => and_congr_right fun _ => ?_
    cases before <;> simp
  intro c cs
  induction cs generalizing c with
  | nil => simp [expands]
  | cons d cs ih =>
      rw [expands, Bool.or_eq_true, ih]
      constructor
      · rintro (h | ⟨before, hbefore, hlast⟩)
        · rw [Bool.and_eq_true, decide_eq_true_eq, decide_eq_true_eq] at h
          exact ⟨[], by simp [h.1], by simpa using h.2⟩
        · exact ⟨d :: before, by simpa using hbefore, by simpa using hlast⟩
      · rintro ⟨before, hbefore, hlast⟩
        cases before with
        | nil =>
            obtain ⟨rfl, -⟩ := List.cons_prefix_cons.mp hbefore
            exact .inl (by simpa using hlast)
        | cons e before =>
            obtain ⟨rfl, hbehind⟩ := List.cons_prefix_cons.mp hbefore
            exact .inr ⟨before, hbehind, by simpa using hlast⟩

end ScriptLint.Literal

namespace ScriptLint.Lexer

open Literal

/-- The quote that closes a string in double quotes is not escaped. -/
theorem escapesNext_of_quotedLength {cs : List Char} {n : Nat}
    (h : quotedLength '\x22' cs = (n, true)) :
    ∃ body, cs.take n = body ++ ['\x22'] ∧ escapesNext body = false := by
  fun_induction quotedLength '\x22' cs generalizing n with
  | case1 => cases h
  | case2 c =>
      obtain ⟨rfl, hc⟩ := Prod.mk.inj h
      exact ⟨[], by simpa using hc, rfl⟩
  | case3 c d cs hpair m closed heq ih =>
      obtain ⟨rfl, rfl⟩ := Prod.mk.inj h
      obtain ⟨body, hbody, hescapes⟩ := ih heq
      have hpassed : escapesNext [c, d] = false := by
        rcases hpair with ⟨-, rfl⟩ | ⟨rfl, rfl⟩
        · simp [escapesNext]
        · rfl
      refine ⟨[c, d] ++ body, ?_, (escapesNext_append hpassed body).trans hescapes⟩
      simp [hbody]
  | case4 d cs =>
      obtain ⟨rfl, -⟩ := Prod.mk.inj h
      exact ⟨[], rfl, rfl⟩
  | case5 c d cs hpair hquote m closed heq ih =>
      obtain ⟨rfl, rfl⟩ := Prod.mk.inj h
      obtain ⟨body, hbody, hescapes⟩ := ih heq
      have hpassed : escapesNext [c] = false := by
        have hc : c ≠ '\x60' := fun hc => hpair (.inl ⟨rfl, hc⟩)
        simp [escapesNext, hc]
      refine ⟨[c] ++ body, ?_, (escapesNext_append hpassed body).trans hescapes⟩
      rw [List.take_succ_cons, hbody]
      rfl

end ScriptLint.Lexer
