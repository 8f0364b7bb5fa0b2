/-!
Names compared without regard to the case of ASCII letters. All other characters stand for themselves.
-/

namespace ScriptLint.Text

/-- The text with its ASCII capital letters in lower case. -/
def fold (s : String) : String :=
  String.ofList (s.toList.map Char.toLower)

/-- The two names differ at most in the case of ASCII letters. -/
def sameName (a b : String) : Bool :=
  fold a == fold b

theorem toLower_toLower (c : Char) : c.toLower.toLower = c.toLower := by
  unfold Char.toLower
  split
  case isTrue h =>
    rw [dif_neg]
    intro ⟨_, h'⟩
    have := UInt32.le_iff_toNat_le.1 h.1
    have := UInt32.le_iff_toNat_le.1 h.2
    have := UInt32.le_iff_toNat_le.1 h'
    have : 'A'.val.toNat = 65 := rfl
    have : 'Z'.val.toNat = 90 := rfl
    have : ('a'.val - 'A'.val).toNat = 32 := rfl
    simp only [UInt32.toNat_add] at *
    omega
  case isFalse => rfl

theorem isUpper_iff {c : Char} : c.isUpper = true ↔ 65 ≤ c.toNat ∧ c.toNat ≤ 90 :=
  decide_eq_true_iff.trans (and_congr UInt32.le_iff_toNat_le UInt32.le_iff_toNat_le)

theorem isLower_iff {c : Char} : c.isLower = true ↔ 97 ≤ c.toNat ∧ c.toNat ≤ 122 :=
  Bool.and_eq_true_iff.trans (and_congr (decide_eq_true_iff.trans UInt32.le_iff_toNat_le)
    (decide_eq_true_iff.trans UInt32.le_iff_toNat_le))

theorem isAlpha_iff {c : Char} : c.isAlpha = true ↔ c.isUpper = true ∨ c.isLower = true :=
  Bool.or_eq_true_iff

/-- A character is its own small letter, or it is a capital one. -/
theorem toLower_eq_or (c : Char) :
    c.toLower = c ∨ c.isUpper = true ∧ c.toLower.isLower = true := by
  unfold Char.toLower
  split
  case isTrue h =>
    have hupper : c.isUpper = true := decide_eq_true h
    refine .inr ⟨hupper, isLower_iff.mpr ?_⟩
    have := isUpper_iff.mp hupper
    have : ('a'.val - 'A'.val).toNat = 32 := rfl
    simp only [Char.toNat, UInt32.toNat_add] at *
    omega
  case isFalse => exact .inl rfl

/-- A capital letter and its small one take a byte each. -/
theorem utf8Size_toLower (c : Char) : c.toLower.utf8Size = c.utf8Size := by
  have hsize {d : Char} (h : d.toNat ≤ 127) : d.utf8Size = 1 :=
    Char.utf8Size_eq_one_iff.mpr (UInt32.le_iff_toNat_le.mpr h)
  rcases toLower_eq_or c with h | ⟨hupper, hlower⟩
  · rw [h]
  · have := isUpper_iff.mp hupper
    have := isLower_iff.mp hlower
    rw [hsize (by omega), hsize (by omega)]

@[simp] theorem fold_fold (s : String) : fold (fold s) = fold s := by
  simp only [fold, String.toList_ofList, List.map_map, Function.comp_def, toLower_toLower]

theorem sameName_iff {a b : String} : sameName a b = true ↔ fold a = fold b := by
  simp [sameName]

@[simp] theorem sameName_refl (a : String) : sameName a a = true := by
  simp [sameName]

@[simp] theorem sameName_fold (a b : String) : sameName a (fold b) = sameName a b := by
  simp [sameName]

theorem sameName_comm (a b : String) : sameName a b = sameName b a := by
  simp [sameName, Bool.beq_comm]

end ScriptLint.Text
