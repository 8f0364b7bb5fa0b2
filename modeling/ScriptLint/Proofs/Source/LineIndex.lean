import ScriptLint.Source.LineIndex

/-!
What a line index computes. The position of an offset is where one gets to from the start of the text,
character by character, in as many bytes: each character is a step to the right by its bytes, but a line
feed is the step to the start of the next line.
-/

namespace ScriptLint

namespace Position

/-- The position behind a character. -/
def behind (p : Position) (c : Char) : Position :=
  if c = '\n' then ⟨p.line + 1, 0⟩ else ⟨p.line, p.column + c.utf8Size⟩

/-- The position `n` bytes further on, from the start of a text. -/
def along (p : Position) : List Char → Nat → Position
  | [], n => ⟨p.line, p.column + n⟩
  | c :: cs, n =>
    if n < c.utf8Size then ⟨p.line, p.column + n⟩ else (p.behind c).along cs (n - c.utf8Size)

variable {p : Position} {c : Char} {cs : List Char} {n : Nat}

theorem behind_feed (p : Position) : p.behind '\n' = ⟨p.line + 1, 0⟩ := rfl

theorem behind_of_ne (h : c ≠ '\n') : p.behind c = ⟨p.line, p.column + c.utf8Size⟩ := if_neg h

theorem along_of_lt (h : n < c.utf8Size) : p.along (c :: cs) n = ⟨p.line, p.column + n⟩ := if_pos h

theorem along_add (p : Position) (c : Char) (cs : List Char) (n : Nat) :
    p.along (c :: cs) (c.utf8Size + n) = (p.behind c).along cs n := by
  rw [along, if_neg (Nat.not_lt.mpr (Nat.le_add_right _ _)), Nat.add_sub_cancel_left]

end Position

namespace LineIndex

theorem startsFrom_feed (offset : Nat) (cs : List Char) :
    startsFrom offset ('\n' :: cs) = (offset + 1) :: startsFrom (offset + 1) cs := rfl

theorem startsFrom_of_ne {offset : Nat} {c : Char} (h : c ≠ '\n') (cs : List Char) :
    startsFrom offset (c :: cs) = startsFrom (offset + c.utf8Size) cs := if_neg h

/-- No line starts before the next character does. -/
theorem le_of_mem_startsFrom {offset m : Nat} {c : Char} {cs : List Char}
    (h : m ∈ startsFrom offset (c :: cs)) :
    offset + c.utf8Size ≤ m := by
  have hrest : m ∈ startsFrom (offset + c.utf8Size) cs → offset + c.utf8Size ≤ m := by
    intro hm
    cases cs with
    | nil => cases hm
    | cons d ds => exact Nat.le_trans (Nat.le_add_right _ _) (le_of_mem_startsFrom hm)
  by_cases hc : c = '\n'
  · subst hc
    rcases List.mem_cons.mp h with rfl | h
    · exact Nat.le_refl _
    · exact hrest h
  · rw [startsFrom_of_ne hc] at h
    exact hrest h

theorem takeWhile_startsFrom {offset n : Nat} {c : Char} (h : n < c.utf8Size) (cs : List Char) :
    (startsFrom offset (c :: cs)).takeWhile (· ≤ offset + n) = [] := by
  cases hstarts : startsFrom offset (c :: cs) with
  | nil => rfl
  | cons m ms =>
      have hm : offset + c.utf8Size ≤ m := le_of_mem_startsFrom (hstarts ▸ List.mem_cons_self)
      refine List.takeWhile_cons_of_neg ?_
      rw [decide_eq_true_eq]
      omega

/-- The lines that start on the way give the line and the column, from anywhere on a line that starts at
`last`. -/
theorem along_eq {last offset line n : Nat} (h : last ≤ offset) (cs : List Char) :
    let passed := (startsFrom offset cs).takeWhile (· ≤ offset + n)
    Position.along ⟨line, offset - last⟩ cs n =
      ⟨line + passed.length, offset + n - passed.getLastD last⟩ := by
  intro passed
  induction cs generalizing last offset line n with
  | nil => exact congrArg (Position.mk line) (Nat.sub_add_comm h).symm
  | cons c cs ih =>
      by_cases hn : n < c.utf8Size
      · have hpassed : passed = [] := takeWhile_startsFrom hn cs
        rw [hpassed, Position.along_of_lt hn]
        exact congrArg (Position.mk line) (Nat.sub_add_comm h).symm
      obtain ⟨m, rfl⟩ := Nat.exists_eq_add_of_le (Nat.not_lt.mp hn)
      have hsum : offset + (c.utf8Size + m) = offset + c.utf8Size + m := (Nat.add_assoc _ _ _).symm
      rw [Position.along_add]
      by_cases hc : c = '\n'
      · subst hc
        have hpassed : passed =
            (offset + 1) :: (startsFrom (offset + 1) cs).takeWhile (· ≤ offset + 1 + m) := by
          show List.takeWhile _ (startsFrom offset ('\n' :: cs)) = _
          rw [startsFrom_feed, hsum]
          exact List.takeWhile_cons_of_pos (decide_eq_true (Nat.le_add_right _ _))
        have hnext := @ih (offset + 1) (offset + 1) (line + 1) m (Nat.le_refl _)
        rw [Nat.sub_self] at hnext
        rw [Position.behind_feed, hnext, hpassed, List.length_cons, List.getLastD_cons, Nat.add_right_comm, hsum]
        rfl
      · have hpassed : passed =
            (startsFrom (offset + c.utf8Size) cs).takeWhile (· ≤ offset + c.utf8Size + m) := by
          show List.takeWhile _ (startsFrom offset (c :: cs)) = _
          rw [startsFrom_of_ne hc, hsum]
        have hnext := @ih last (offset + c.utf8Size) line m (Nat.le_trans h (Nat.le_add_right _ _))
        rw [Nat.sub_add_comm h] at hnext
        rw [Position.behind_of_ne hc, hnext, hpassed, hsum]

/-- The position of an offset, told along the text. -/
theorem position_ofText (text : String) (n : Nat) :
    (ofText text).position n = Position.along ⟨0, 0⟩ text.toList n := by
  have h := @along_eq 0 0 0 n (Nat.le_refl 0) text.toList
  simp only [Nat.zero_add, Nat.sub_self] at h
  exact h.symm

end LineIndex

end ScriptLint
