import ScriptLint.Proofs.Syntax.Brackets

/-!
Brackets counted. What is to come of brackets inside of open groups is told in two ways: by the closers that
the groups are owed (`Closing`), and by how many openers there are beyond the closers (`surplus`). A group
that is passed over counts depths only, and where every closer is in its place it ends with its own.
-/

namespace ScriptLint

namespace TokenKind

theorem not_isCloser_of_isOpener {k : TokenKind} (h : k.isOpener) : k.isCloser = false := by
  cases k <;> first | rfl | exact absurd h nofun

theorem not_isOpener_of_isCloser {k : TokenKind} (h : k.isCloser) : k.isOpener = false := by
  cases k <;> first | rfl | exact absurd h nofun

theorem isBracket_of_isOpener {k : TokenKind} (h : k.isOpener) : k.isBracket := by
  rw [isBracket, h, Bool.true_or]

theorem not_isOpener_of_not_isBracket {k : TokenKind} (h : k.isBracket = false) : k.isOpener = false :=
  (Bool.or_eq_false_iff.mp h).1

theorem isOpener_or_isCloser {k : TokenKind} (h : k.isBracket) : k.isOpener ∨ k.isCloser :=
  Bool.or_eq_true_iff.mp h

end TokenKind

namespace Parse

theorem depthBehind_of_isOpener {depth : Nat} {k : TokenKind} (h : k.isOpener) :
    depthBehind depth k = depth + 1 :=
  if_pos h

theorem depthBehind_of_isCloser {depth : Nat} {k : TokenKind} (h : k.isCloser) :
    depthBehind depth k = depth - 1 := by
  rw [depthBehind, TokenKind.not_isOpener_of_isCloser h, if_neg Bool.false_ne_true, if_pos h]

@[simp] theorem isCloser_closerKind (closer : Closer) : (closerKind closer).isCloser := by
  cases closer <;> rfl

/-- What is ahead behind the closer that closes `depth` groups; nothing if there is none. -/
def behindGroup (depth : Nat) (ts : List Token) : List Token :=
  ts.drop ((groupLength? depth ts).getD ts.length)

@[simp] theorem behindGroup_nil (depth : Nat) : behindGroup depth [] = [] := rfl

theorem behindGroup_cons (depth : Nat) (t : Token) (ts : List Token) :
    behindGroup depth (t :: ts) =
      if depthBehind depth t.kind = 0 then ts else behindGroup (depthBehind depth t.kind) ts := by
  rw [behindGroup, groupLength?]
  split
  · rfl
  · rw [behindGroup]
    cases groupLength? (depthBehind depth t.kind) ts <;> rfl

theorem behindGroup_of_isOpener {t : Token} (h : t.kind.isOpener) (depth : Nat) (ts : List Token) :
    behindGroup depth (t :: ts) = behindGroup (depth + 1) ts := by
  rw [behindGroup_cons, depthBehind_of_isOpener h, if_neg (Nat.succ_ne_zero depth)]

theorem behindGroup_of_isCloser {t : Token} (h : t.kind.isCloser) (depth : Nat) (ts : List Token) :
    behindGroup (depth + 1) (t :: ts) = if depth = 0 then ts else behindGroup depth ts := by
  rw [behindGroup_cons, depthBehind_of_isCloser h, Nat.add_sub_cancel]

/-- Only brackets count for where a group ends. -/
theorem brackets_behindGroup (depth : Nat) (ts : List Token) :
    brackets (behindGroup (depth + 1) ts) = behindGroup (depth + 1) (brackets ts) := by
  induction ts generalizing depth with
  | nil => rfl
  | cons t ts ih =>
      cases hbracket : t.kind.isBracket with
      | false =>
          rw [behindGroup_cons, depthBehind_of_not_isBracket hbracket,
            if_neg (Nat.succ_ne_zero depth), brackets_cons_of_not_isBracket hbracket, ih]
      | true =>
          rw [brackets_cons_of_isBracket hbracket]
          rcases TokenKind.isOpener_or_isCloser hbracket with hopener | hcloser
          · rw [behindGroup_of_isOpener hopener, behindGroup_of_isOpener hopener, ih]
          · rw [behindGroup_of_isCloser hcloser, behindGroup_of_isCloser hcloser]
            cases depth with
            | zero => rfl
            | succ depth => exact ih depth

end Parse

open ScriptLint.Parse

/-- The brackets close the groups that are open, which are owed these closers from the innermost group
outwards, and all groups that they open themselves. -/
inductive Closing : List Closer → List Token → Prop
  | nil : Closing [] []
  | opener {owed : List Closer} {closer : Closer} {t : Token} {ts : List Token} :
      t.kind.closer? = some closer → Closing (closer :: owed) ts → Closing owed (t :: ts)
  | closer {owed : List Closer} {closer : Closer} {t : Token} {ts : List Token} :
      t.kind = closerKind closer → Closing owed ts → Closing (closer :: owed) (t :: ts)

theorem Nested.closing_append {owed : List Closer} {bs cs : List Token} (h : Nested bs)
    (hcs : Closing owed cs) : Closing owed (bs ++ cs) := by
  induction h generalizing owed cs with
  | nil => exact hcs
  | @group o cl inside behind hclosed _ _ ihinside ihbehind =>
      obtain ⟨closer, ho, hcl⟩ := Option.map_eq_some_iff.mp hclosed
      have heq : o :: inside ++ cl :: behind ++ cs = o :: (inside ++ cl :: (behind ++ cs)) := by simp
      rw [heq]
      exact .opener ho (ihinside (.closer hcl.symm (ihbehind hcs)))

theorem Nested.closing {bs : List Token} (h : Nested bs) : Closing [] bs := by
  simpa using h.closing_append .nil

namespace Closing

variable {owed : List Closer} {t : Token} {ts : List Token}

theorem of_isOpener (h : Closing owed (t :: ts)) (ht : t.kind.isOpener) :
    ∃ closer, t.kind.closer? = some closer ∧ Closing (closer :: owed) ts := by
  cases h with
  | opener hcloser hts => exact ⟨_, hcloser, hts⟩
  | @closer _ closer _ _ hkind _ =>
      have hnone := TokenKind.not_isCloser_of_isOpener ht
      rw [hkind, isCloser_closerKind] at hnone
      cases hnone

theorem of_isCloser (h : Closing owed (t :: ts)) (ht : t.kind.isCloser) :
    ∃ closer rest, owed = closer :: rest ∧ t.kind = closerKind closer ∧ Closing rest ts := by
  cases h with
  | opener hcloser _ =>
      have hnone := TokenKind.not_isCloser_of_isOpener (TokenKind.isOpener_of_closer? hcloser)
      rw [ht] at hnone
      cases hnone
  | closer hkind hts => exact ⟨_, _, rfl, hkind, hts⟩

theorem of_brackets_cons (h : Closing owed (brackets (t :: ts))) :
    ∃ owed', Closing owed' (brackets ts) ∧
      ∀ depth, depthBehind (depth + owed.length) t.kind = depth + owed'.length := by
  cases hbracket : t.kind.isBracket with
  | false =>
      rw [brackets_cons_of_not_isBracket hbracket] at h
      exact ⟨owed, h, fun _ => depthBehind_of_not_isBracket hbracket⟩
  | true =>
      rw [brackets_cons_of_isBracket hbracket] at h
      rcases TokenKind.isOpener_or_isCloser hbracket with hopener | hcloser
      · obtain ⟨closer, -, hts⟩ := h.of_isOpener hopener
        exact ⟨closer :: owed, hts, fun _ => depthBehind_of_isOpener hopener⟩
      · obtain ⟨closer, rest, rfl, -, hts⟩ := h.of_isCloser hcloser
        exact ⟨rest, hts, fun _ => depthBehind_of_isCloser hcloser⟩

/-- Tokens that close what they open do not end a group that is open around them. -/
theorem groupLength?_append {gs : List Token} (h : Closing owed (brackets gs)) {depth : Nat}
    (hdepth : depth ≠ 0) (ts : List Token) :
    groupLength? (depth + owed.length) (gs ++ ts) = (groupLength? depth ts).map (gs.length + ·) := by
  induction gs generalizing owed with
  | nil =>
      cases h
      simp
  | cons t gs ih =>
      obtain ⟨owed', hbehind, hdepths⟩ := h.of_brackets_cons
      have hopen : depth + owed'.length ≠ 0 := by omega
      rw [List.cons_append, groupLength?, hdepths, if_neg hopen, ih hbehind, Option.map_map]
      congr 1
      funext n
      simp only [Function.comp_apply, List.length_cons]
      omega

/-- Where every closer is in its place, the innermost groups that are passed over end with their own. -/
theorem behindGroup {inner : List Closer} {closer : Closer}
    (h : Closing (closer :: inner ++ owed) ts) :
    Closing owed (behindGroup (inner.length + 1) ts) := by
  induction ts generalizing inner closer with
  | nil => cases h
  | cons t ts ih =>
      cases h with
      | @opener _ opened _ _ hopened hts =>
          rw [behindGroup_of_isOpener (TokenKind.isOpener_of_closer? hopened)]
          exact @ih (closer :: inner) opened hts
      | closer hkind hts =>
          rw [behindGroup_of_isCloser (by rw [hkind]; exact isCloser_closerKind _)]
          cases inner with
          | nil => exact hts
          | cons closer inner => exact ih hts

end Closing

theorem Nested.groupLength?_append {gs : List Token} (h : Nested (brackets gs)) {depth : Nat}
    (hdepth : depth ≠ 0) (ts : List Token) :
    groupLength? depth (gs ++ ts) = (groupLength? depth ts).map (gs.length + ·) :=
  h.closing.groupLength?_append hdepth ts

theorem nested_brackets_of_not_isBracket {gs : List Token} (h : ∀ t ∈ gs, t.kind.isBracket = false) :
    Nested (brackets gs) := by
  have hnone : brackets gs = [] := List.filter_eq_nil_iff.mpr fun t ht => by simp [h t ht]
  rw [hnone]
  exact .nil

theorem nested_brackets_group {o cl : Token} {inside : List Token} (hclosed : o.ClosedBy cl)
    (hnested : Nested (brackets inside)) : Nested (brackets (o :: (inside ++ [cl]))) := by
  obtain ⟨ho, hcl⟩ := hclosed.isBracket
  have hsplit : brackets (o :: (inside ++ [cl])) = o :: brackets inside ++ cl :: [] := by
    simp [brackets, ho, hcl]
  rw [hsplit]
  exact .group hclosed hnested .nil

/-- A group does not end one that is open around it. -/
theorem groupLength?_group_append {o cl : Token} {inside : List Token} (hclosed : o.ClosedBy cl)
    (hnested : Nested (brackets inside)) {depth : Nat} (hdepth : depth ≠ 0) (ts : List Token) :
    groupLength? depth (o :: (inside ++ cl :: ts)) =
      (groupLength? depth ts).map (inside.length + 2 + ·) := by
  have hsplit : o :: (inside ++ cl :: ts) = o :: (inside ++ [cl]) ++ ts := by simp
  rw [hsplit, (nested_brackets_group hclosed hnested).groupLength?_append hdepth]
  simp [Nat.add_assoc]

theorem groupLength?_cons_of_isOpener {t : Token} (h : t.kind.isOpener) (depth : Nat) (ts : List Token) :
    groupLength? depth (t :: ts) = (groupLength? (depth + 1) ts).map (· + 1) := by
  rw [groupLength?, depthBehind_of_isOpener h, if_neg (Nat.succ_ne_zero depth)]

/-- A group past the last level takes the tokens from its opener to the closer of this opener. -/
theorem groupLength?_of_closedBy {o cl : Token} {inside : List Token} (hclosed : o.ClosedBy cl)
    (hnested : Nested (brackets inside)) (ts : List Token) :
    groupLength? 0 (o :: (inside ++ cl :: ts)) = some (inside.length + 2) := by
  obtain ⟨closer, hopener, hcloser⟩ := Option.map_eq_some_iff.mp hclosed
  have hclose : depthBehind 1 cl.kind = 0 := by
    rw [← hcloser]
    exact depthBehind_of_isCloser (isCloser_closerKind closer)
  rw [groupLength?_cons_of_isOpener (TokenKind.isOpener_of_closer? hopener),
    hnested.groupLength?_append Nat.one_ne_zero, groupLength?, hclose, if_pos rfl]
  rfl

/-- How many openers there are beyond the closers. -/
def surplus (ts : List Token) : Int :=
  ts.countP (·.kind.isOpener) - ts.countP (·.kind.isCloser)

section Surplus

variable {t : Token}

@[simp] theorem surplus_nil : surplus [] = 0 := rfl

theorem surplus_cons_of_isOpener (h : t.kind.isOpener) (ts : List Token) :
    surplus (t :: ts) = surplus ts + 1 := by
  simp only [surplus, List.countP_cons, h, TokenKind.not_isCloser_of_isOpener h, if_true,
    Bool.false_eq_true, if_false]
  omega

theorem surplus_cons_of_isCloser (h : t.kind.isCloser) (ts : List Token) :
    surplus (t :: ts) = surplus ts - 1 := by
  simp only [surplus, List.countP_cons, h, TokenKind.not_isOpener_of_isCloser h, if_true,
    Bool.false_eq_true, if_false]
  omega

/-- Closers make up for the groups that are open and for all that are opened. -/
theorem Closing.surplus_eq {owed : List Closer} {ts : List Token} (h : Closing owed ts) :
    surplus ts = -owed.length := by
  induction h with
  | nil => rfl
  | opener hcloser _ ih =>
      rw [surplus_cons_of_isOpener (TokenKind.isOpener_of_closer? hcloser), ih, List.length_cons]
      omega
  | closer hkind _ ih =>
      rw [surplus_cons_of_isCloser (by rw [hkind]; exact isCloser_closerKind _), ih, List.length_cons]
      omega

/-- What is passed over closes as many groups as it has to, or fewer. -/
theorem surplus_behindGroup_le (depth : Nat) {ts : List Token} (h : ∀ t ∈ ts, t.kind.isBracket) :
    surplus (Parse.behindGroup (depth + 1) ts) ≤ surplus ts + (depth + 1) := by
  induction ts generalizing depth with
  | nil => simp; omega
  | cons t ts ih =>
      obtain ⟨ht, hts⟩ := List.forall_mem_cons.mp h
      rcases TokenKind.isOpener_or_isCloser ht with hopener | hcloser
      · have hbehind := ih (depth + 1) hts
        rw [behindGroup_of_isOpener hopener, surplus_cons_of_isOpener hopener]
        omega
      · rw [behindGroup_of_isCloser hcloser, surplus_cons_of_isCloser hcloser]
        cases depth with
        | zero => simp
        | succ depth =>
            have hbehind := ih depth hts
            simp only [Nat.succ_ne_zero, if_false]
            omega

end Surplus

end ScriptLint
