import ScriptLint.Proofs.Syntax.Brackets
import ScriptLint.Proofs.Syntax.Locality

/-!
A group of a script and what stands inside of it. A bracket is a token of its own whatever stands behind it, so
the interior of a group may be deleted without a change to the tokens around it: those in front of the group
stay, and those behind it move to the front.
-/

namespace ScriptLint

open String (utf8Len)

namespace Lexer

/-- What a bracket is made of does not depend on what stands behind it. -/
def Settles (c : Char) (cs : List Char) (r : TokenKind × Nat) : Prop :=
  r.1.isBracket → ∀ us, scan c (cs.take r.2 ++ us) = r

namespace Settles

variable {c : Char} {cs : List Char} {kind : TokenKind} {n : Nat}

theorem plain (h : kind.isBracket = false) : Settles c cs (kind, n) := fun hbracket => by
  rw [h] at hbracket
  cases hbracket

theorem pair {p : Prop} [Decidable p] {a b : TokenKind × Nat} (ha : p → Settles c cs a)
    (hb : ¬p → Settles c cs b) : Settles c cs (if p then a else b) := by
  split
  case isTrue h => exact ha h
  case isFalse h => exact hb h

theorem atSign (h : c = '@') : Settles c cs (scanAt cs) := by
  subst h
  cases cs with
  | nil => exact plain rfl
  | cons d cs =>
      rw [scanAt]
      refine pair (fun h _ us => by subst h; rfl) fun _ => ?_
      refine pair (fun h _ us => by subst h; rfl) fun _ => ?_
      refine pair (fun _ => plain rfl) fun _ => ?_
      exact pair (fun _ => plain rfl) fun _ => plain rfl

theorem dollar (h : c = '$') : Settles c cs (scanDollar cs) := by
  subst h
  cases cs with
  | nil => exact plain rfl
  | cons d cs =>
      rw [scanDollar]
      refine pair (fun h _ us => by subst h; rfl) fun _ => ?_
      refine pair (fun _ => plain rfl) fun _ => ?_
      refine pair (fun _ => plain rfl) fun _ => ?_
      exact pair (fun _ => plain rfl) fun _ => plain rfl

theorem parameter : Settles c cs (scanParameter cs) := by
  unfold scanParameter
  exact pair (fun _ => plain rfl) fun _ => plain rfl

-- One step for each line of `scan`, in its order.
theorem scanned (c : Char) (cs : List Char) : Settles c cs (scan c cs) := by
  unfold scan
  iterate 8 refine pair (fun _ => plain rfl) fun _ => ?_
  iterate 4 refine pair (fun h _ us => by subst h; rfl) fun _ => ?_
  refine pair (fun _ => pair (fun _ => plain rfl) fun _ => plain rfl) fun _ => ?_
  refine pair (fun _ => pair (fun _ => plain rfl) fun _ => plain rfl) fun _ => ?_
  refine pair (fun _ => plain rfl) fun _ => ?_
  refine pair atSign fun _ => ?_
  refine pair dollar fun _ => ?_
  iterate 4 refine pair (fun _ => plain rfl) fun _ => ?_
  refine pair (fun _ => parameter) fun _ => ?_
  exact pair (fun _ => plain rfl) fun _ => plain rfl

end Settles

/-- A bracket is a token of its own wherever it stands. -/
theorem tokensFrom_of_isBracket {t : Token} {c : Char} {cs : List Char} {start : Nat} (ht : t = token start c cs)
    (hbracket : t.kind.isBracket) (offset : Nat) (us : List Char) :
    tokensFrom 0 offset (t.text.toList ++ us) =
      { t with start := offset } :: tokensFrom 0 (offset + t.text.utf8ByteSize) us := by
  subst ht
  have hscan := Settles.scanned c cs hbracket us
  have hlength : (cs.take (scan c cs).2).length = (scan c cs).2 :=
    List.length_take_of_le (Fits.scanned c cs).length_le
  have htoken : token offset c (cs.take (scan c cs).2 ++ us) = { token start c cs with start := offset } := by
    rw [token, token, hscan, List.take_append_of_le_length (Nat.le_of_eq hlength.symm), List.take_take,
      Nat.min_self]
  have hbehind := tokensFrom_length_add 0 (offset + c.utf8Size) (cs.take (scan c cs).2) us
  rw [hlength, Nat.add_zero, ← add_utf8Len_cons] at hbehind
  rw [toList_text_token, List.cons_append, tokensFrom_zero_cons, htoken, hscan, hbehind,
    ← String.utf8Len_toList (s := (token start c cs).text), toList_text_token]

/-- A bracket is none of the characters that change what stands in front of them. -/
theorem ne_of_isBracket {c : Char} {cs : List Char} (h : (scan c cs).1.isBracket) : c ≠ '&' := by
  rintro rfl
  have hkind : (scan '&' cs).1 = if cs.head? = some '&' then .chain else .ampersand := by
    show (if cs.head? = some '&' then (TokenKind.chain, 1) else (.ampersand, 0)).1 = _
    split <;> rfl
  rw [hkind] at h
  split at h <;> cases h

end Lexer

open Lexer

/-- A group of a script, from its opener to the closer that closes it. Every bracket inside is closed there. -/
structure ClosedGroup (source : String) where
  front : List Token
  opener : Token
  inside : List Token
  closer : Token
  behind : List Token
  tokens_eq : tokenize source = front ++ opener :: (inside ++ closer :: behind)
  closed : opener.ClosedBy closer
  nested : Nested (brackets inside)

namespace ClosedGroup

variable {source : String} (G : ClosedGroup source)

/-- The script without the interior of the group. -/
def emptied : String := String.join ((G.front ++ G.opener :: G.closer :: G.behind).map Token.text)

/-- The closer of the empty group. -/
def facing : Token := { G.closer with start := G.opener.stop }

/-- The number of bytes between the opener and the closer. -/
def width : Nat := G.closer.start - G.opener.stop

def span : Span := ⟨G.opener.start, G.closer.stop⟩

theorem tokens_eq_closer : tokenize source = (G.front ++ G.opener :: G.inside) ++ G.closer :: G.behind := by
  rw [G.tokens_eq, List.append_assoc, List.cons_append]

theorem opener_mem : G.opener ∈ tokenize source := by
  rw [G.tokens_eq]
  simp

theorem closer_mem : G.closer ∈ tokenize source := by
  rw [G.tokens_eq]
  simp

theorem stop_le_start : G.opener.stop ≤ G.closer.start := by
  have hpairwise := (tiles_tokenize source).pairwise_stop_le
  rw [G.tokens_eq] at hpairwise
  have hopener := (List.pairwise_append.mp hpairwise).2.1
  exact (List.pairwise_cons.mp hopener).1 G.closer (by simp)

theorem opener_lt : G.opener.start < G.opener.stop := (tiles_tokenize source).start_lt_stop G.opener_mem

theorem closer_lt : G.closer.start < G.closer.stop := (tiles_tokenize source).start_lt_stop G.closer_mem

theorem span_lt : G.span.start < G.span.stop :=
  Nat.lt_trans (Nat.lt_of_lt_of_le G.opener_lt G.stop_le_start) G.closer_lt

theorem start_add_width : G.opener.stop + G.width = G.closer.start := Nat.add_sub_cancel' G.stop_le_start

/-- The tokens of the script without the interior of the group. -/
theorem tokenize_emptied :
    ∃ behind, tokenize G.emptied = G.front ++ G.opener :: G.facing :: behind ∧
      G.behind = behind.map (Token.move G.width) ∧
      G.emptied.utf8ByteSize + G.width = source.utf8ByteSize := by
  obtain ⟨cs, d, text, after, -, hfront, hopener, htext, -, hlocal⟩ := tokenize_split G.tokens_eq
  obtain ⟨cs', d', text', after', hsource, -, hcloser, htext', hbehind, -⟩ := tokenize_split G.tokens_eq_closer
  obtain ⟨hbracket, hbracket'⟩ := G.closed.isBracket
  have hafter : G.behind.flatMap (·.text.toList) = after' := by
    rw [hbehind, flatMap_tokensFrom, List.drop_zero]
  have hstop : utf8Len cs' + utf8Len (d' :: text') = G.facing.stop + G.width := by
    have hstart : G.closer.start = utf8Len cs' := congrArg Token.start hcloser
    rw [← htext', String.utf8Len_toList, ← hstart, ← G.start_add_width, Token.stop]
    exact Nat.add_right_comm _ _ _
  have hemptied : G.emptied.toList = cs ++ d :: (text ++ (G.closer.text.toList ++ after')) := by
    rw [emptied, String.toList_join, List.flatMap_map, List.flatMap_append, List.flatMap_cons,
      List.flatMap_cons, hfront, htext, hafter, List.cons_append]
  have hd : d ≠ '&' := @ne_of_isBracket d (text ++ after) (by rw [hopener] at hbracket; exact hbracket)
  have hstart : G.opener.start = utf8Len cs := congrArg Token.start hopener
  refine ⟨tokensFrom 0 G.facing.stop after', ?_, ?_, ?_⟩
  · have hsplit := hlocal d (text ++ (G.closer.text.toList ++ after')) (.inl ⟨rfl, hd⟩) fun h => absurd rfl h
    rw [← List.cons_append, ← htext, tokensFrom_of_isBracket hopener hbracket,
      tokensFrom_of_isBracket hcloser hbracket'] at hsplit
    rw [← hstart] at hsplit
    rw [tokenize, hemptied, ← List.cons_append, ← htext]
    exact hsplit
  · rw [hbehind, hstop, tokensFrom_add]
  · have hfacing : G.facing.stop = utf8Len cs + utf8Len (d :: text) + G.closer.text.utf8ByteSize := by
      rw [← htext, String.utf8Len_toList, ← hstart]
      rfl
    rw [← String.utf8Len_toList, ← String.utf8Len_toList (s := source), hemptied, hsource, ← List.cons_append,
      ← List.cons_append, String.utf8Len_append, String.utf8Len_append, String.utf8Len_append,
      String.utf8Len_append, String.utf8Len_append, String.utf8Len_toList, ← Nat.add_assoc (utf8Len cs'), hstop,
      hfacing]
    omega

end ClosedGroup

end ScriptLint
