import Mathlib.Data.List.Basic
import ScriptLint.Syntax.Lexer

/-!
How far a token reaches. The lexer looks for the end of a token in different ways, by runs of characters,
by the place of a closing mark and by counting brackets; none of them leaves the text, and the brackets
of a type literal never close more than they open.
-/

namespace ScriptLint.Lexer

theorem runLength_le (p : Char → Bool) (cs : List Char) : runLength p cs ≤ cs.length :=
  (List.takeWhile_prefix p).length_le

theorem lengthThrough?_le {pattern cs : List Char} {n : Nat}
    (h : lengthThrough? pattern cs = some n) : n ≤ cs.length := by
  induction cs generalizing n with
  | nil => simp [lengthThrough?] at h
  | cons c cs ih =>
      rw [lengthThrough?] at h
      split at h
      case isTrue hp =>
        obtain rfl := Option.some.inj h
        exact (List.isPrefixOf_iff_prefix.mp hp).length_le
      case isFalse =>
        obtain ⟨m, hm, rfl⟩ := Option.map_eq_some_iff.mp h
        exact Nat.succ_le_succ (ih hm)

theorem reach_le (pattern cs : List Char) : (reach pattern cs).1 ≤ cs.length := by
  unfold reach
  split
  case h_1 n h => exact lengthThrough?_le h
  case h_2 => exact Nat.le_refl _

theorem quotedLength_le (quote : Char) (cs : List Char) :
    (quotedLength quote cs).1 ≤ cs.length := by
  fun_induction quotedLength quote cs with
  | case1 => simp
  | case2 => simp
  | case3 c d cs _ n closed heq ih =>
      rw [heq] at ih
      simpa using ih
  | case4 => simp
  | case5 c d cs _ _ n closed heq ih =>
      rw [heq] at ih
      simpa using ih

theorem typeLength_le (depth : Nat) (cs : List Char) : typeLength depth cs ≤ cs.length := by
  induction cs generalizing depth with
  | nil => simp [typeLength]
  | cons c cs ih =>
      have h1 := ih (depth + 1)
      have h2 := ih (depth - 1)
      have h3 := ih depth
      rw [typeLength, List.length_cons]
      split_ifs <;> omega

theorem redirectionTail_le (cs : List Char) : redirectionTail cs ≤ cs.length := by
  unfold redirectionTail
  split
  · simp
  · split <;> simp
  · simp

theorem length_pos_of_head? {p : Char → Bool} {cs : List Char} (h : cs.head?.any p) :
    1 ≤ cs.length := by
  cases cs with
  | nil => simp at h
  | cons => simp

/-- What is true of the kind and the length that the lexer answers with: the token ends inside the text,
and a type literal ends where its brackets say. -/
structure Fits (c : Char) (cs : List Char) (answer : TokenKind × Nat) : Prop where
  length_le : answer.2 ≤ cs.length
  brackets : answer.1 = .typeLiteral → c = '[' ∧ answer.2 = typeLength 1 cs

namespace Fits

variable {c : Char} {cs : List Char}

theorem of_ne {kind : TokenKind} {n : Nat} (hkind : kind ≠ .typeLiteral) (hn : n ≤ cs.length) :
    Fits c cs (kind, n) :=
  ⟨hn, fun h => absurd h hkind⟩

theorem single {kind : TokenKind} (hkind : kind ≠ .typeLiteral) : Fits c cs (kind, 0) :=
  of_ne hkind (Nat.zero_le _)

theorem pair {p : Prop} [Decidable p] {a b : TokenKind × Nat} (ha : p → Fits c cs a)
    (hb : ¬p → Fits c cs b) : Fits c cs (if p then a else b) := by
  split
  case isTrue h => exact ha h
  case isFalse h => exact hb h

/-- A mark of two characters, or else the first of them alone. -/
theorem doubled {first second : TokenKind} {d : Char} (h1 : first ≠ .typeLiteral)
    (h2 : second ≠ .typeLiteral) :
    Fits c cs (if cs.head? = some d then (first, 1) else (second, 0)) :=
  pair (fun h => of_ne h1 (length_pos_of_head? (p := fun _ => true) (by simp [h])))
    fun _ => single h2

theorem atSign : Fits c cs (scanAt cs) := by
  cases cs with
  | nil => exact single nofun
  | cons d cs =>
      rw [scanAt]
      refine pair (fun _ => of_ne nofun (by simp)) fun _ => ?_
      refine pair (fun _ => of_ne nofun (by simp)) fun _ => ?_
      refine pair (fun _ => of_ne nofun ?_) fun _ => ?_
      · exact Nat.succ_le_succ (reach_le _ _)
      · exact pair (fun _ => of_ne nofun (runLength_le _ _)) fun _ => single nofun

theorem dollar : Fits c cs (scanDollar cs) := by
  cases cs with
  | nil => exact single nofun
  | cons d cs =>
      rw [scanDollar]
      refine pair (fun _ => of_ne nofun (by simp)) fun _ => ?_
      refine pair (fun _ => of_ne nofun ?_) fun _ => ?_
      · exact Nat.succ_le_succ (reach_le _ _)
      · refine pair (fun _ => of_ne nofun (by simp)) fun _ => ?_
        exact pair (fun _ => of_ne nofun (runLength_le _ _)) fun _ => single nofun

theorem parameter : Fits c cs (scanParameter cs) := by
  unfold scanParameter
  refine pair (fun h => of_ne nofun ?_) fun _ => of_ne nofun (runLength_le _ _)
  have hcolon := length_pos_of_head? (p := fun _ => true) (by rw [h]; rfl)
  rw [List.length_drop] at hcolon
  omega

/-- A line end that a backtick cancels. -/
theorem continuation (h : cs.head?.any isLineEnd) :
    Fits c cs (.whitespace, if ['\r', '\n'].isPrefixOf cs then 2 else 1) := by
  refine of_ne nofun ?_
  split
  case isTrue hp => exact (List.isPrefixOf_iff_prefix.mp hp).length_le
  case isFalse => exact length_pos_of_head? h

theorem carriageReturn : Fits c cs (.newline, if cs.head? = some '\n' then 1 else 0) := by
  refine of_ne nofun ?_
  split
  case isTrue h => exact length_pos_of_head? (p := fun _ => true) (by rw [h]; rfl)
  case isFalse => exact Nat.zero_le _

theorem behind {d : Char} {kind : TokenKind} {n : Nat} (hkind : kind ≠ .typeLiteral)
    (h : cs.head? = some d) (hn : n ≤ cs.tail.length) : Fits c cs (kind, n + 1) := by
  refine of_ne hkind ?_
  have := length_pos_of_head? (p := fun _ => true) (by rw [h]; rfl)
  rw [List.length_tail] at hn
  omega

-- One step for each line of `scan`, in its order.
theorem scanned (c : Char) (cs : List Char) : Fits c cs (scan c cs) := by
  unfold scan
  refine pair (fun _ => single nofun) fun _ => ?_
  refine pair (fun _ => carriageReturn) fun _ => ?_
  refine pair (fun h => continuation h.2) fun _ => ?_
  refine pair (fun _ => of_ne nofun (runLength_le _ _)) fun _ => ?_
  refine pair (fun _ => of_ne nofun (runLength_le _ _)) fun _ => ?_
  refine pair (fun h => behind nofun h.2 (reach_le _ _)) fun _ => ?_
  iterate 6 refine pair (fun _ => single nofun) fun _ => ?_
  refine pair (fun _ => doubled nofun nofun) fun _ => ?_
  refine pair (fun _ => doubled nofun nofun) fun _ => ?_
  refine pair (fun _ => of_ne nofun (quotedLength_le _ _)) fun _ => ?_
  refine pair (fun _ => atSign) fun _ => ?_
  refine pair (fun _ => dollar) fun _ => ?_
  refine pair (fun h => ⟨typeLength_le _ _, fun _ => ⟨h, rfl⟩⟩) fun _ => ?_
  refine pair (fun _ => of_ne nofun (redirectionTail_le _)) fun _ => ?_
  refine pair (fun _ => single nofun) fun _ => ?_
  refine pair (fun h => behind nofun h.2 (redirectionTail_le _)) fun _ => ?_
  refine pair (fun _ => parameter) fun _ => ?_
  exact pair (fun _ => single nofun) fun _ => of_ne nofun (runLength_le _ _)

end Fits

/-- No beginning of a type literal closes more brackets than are open, `depth` of them before it. -/
theorem count_le_of_prefix_typeLength {depth : Nat} {cs p : List Char} (hdepth : 1 ≤ depth)
    (h : p <+: cs.take (typeLength depth cs)) : p.count ']' ≤ depth + p.count '[' := by
  induction cs generalizing depth p with
  | nil =>
      rw [List.take_nil, List.prefix_nil] at h
      simp [h]
  | cons c cs ih =>
      rw [typeLength] at h
      rcases p with _ | ⟨d, p⟩
      · simp
      split_ifs at h with hend hopen hclose hlast
      · simp at h
      · rw [List.take_succ_cons, List.cons_prefix_cons] at h
        obtain ⟨rfl, h⟩ := h
        have := ih (Nat.le_add_left 1 depth) h
        simp [hopen]
        omega
      · rw [List.take_succ_cons, List.take_zero, List.cons_prefix_cons, List.prefix_nil] at h
        obtain ⟨rfl, rfl⟩ := h
        simpa [hclose] using hdepth
      · rw [List.take_succ_cons, List.cons_prefix_cons] at h
        obtain ⟨rfl, h⟩ := h
        have := ih (by omega) h
        simp [hclose]
        omega
      · rw [List.take_succ_cons, List.cons_prefix_cons] at h
        obtain ⟨rfl, h⟩ := h
        simpa [hopen, hclose] using ih hdepth h

end ScriptLint.Lexer
