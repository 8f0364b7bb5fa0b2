import Mathlib.Data.String.Basic
import ScriptLint.Syntax.Lexer

/-!
Tokens tile a script. They are the consecutive pieces of the text: none is empty, each starts where the
one before it stops, and each says what the script says between its two offsets. Cutting a token in two keeps
such a tiling.
-/

namespace ScriptLint

open String (utf8Len)

/-- Consecutive tokens, none of them empty, that reach from one offset to another. -/
def Tiles : (start : Nat) → List Token → (stop : Nat) → Prop
  | start, [], stop => start = stop
  | start, t :: ts, stop => t.start = start ∧ t.text ≠ "" ∧ Tiles t.stop ts stop

theorem Token.start_lt_stop {t : Token} (h : t.text ≠ "") : t.start < t.stop := by
  have : 0 < t.text.utf8ByteSize := Nat.pos_of_ne_zero fun h0 =>
    h (String.utf8ByteSize_eq_zero_iff.mp h0)
  rw [Token.stop]
  omega

theorem extract_append {a b c : String} :
    String.Pos.Raw.extract (a ++ b ++ c) ⟨a.utf8ByteSize⟩ ⟨a.utf8ByteSize + b.utf8ByteSize⟩ = b := by
  have h := String.extract_of_valid a.toList b.toList c.toList
  rw [← String.toList_append, ← String.toList_append] at h
  simpa only [String.ofList_toList, String.utf8Len_toList] using h

/-- A cut between two characters keeps what stands on either side. -/
theorem Token.cut_eq {t : Token} {head tail : String} (h : t.text = head ++ tail) :
    t.cut head.utf8ByteSize =
      (⟨.word, head, t.start⟩, ⟨.word, tail, t.start + head.utf8ByteSize⟩) := by
  have hhead := extract_append (a := "") (b := head) (c := tail)
  have htail := extract_append (a := head) (b := tail) (c := "")
  rw [String.empty_append, String.utf8ByteSize_empty, Nat.zero_add] at hhead
  rw [String.append_empty, ← String.utf8ByteSize_append] at htail
  unfold cut
  rw [h]
  exact congrArg₂ (fun x y => (Token.mk .word x t.start, Token.mk .word y _)) hhead htail

namespace Tiles

theorem append {a b : Nat} {ts us : List Token} :
    Tiles a (ts ++ us) b ↔ ∃ m, Tiles a ts m ∧ Tiles m us b := by
  induction ts generalizing a with
  | nil => simp [Tiles]
  | cons t ts ih =>
      simp only [List.cons_append, Tiles, ih]
      constructor
      · rintro ⟨hstart, htext, m, hts, hus⟩
        exact ⟨m, ⟨hstart, htext, hts⟩, hus⟩
      · rintro ⟨m, ⟨hstart, htext, hts⟩, hus⟩
        exact ⟨hstart, htext, m, hts, hus⟩

theorem start_le {a b : Nat} {ts : List Token} (h : Tiles a ts b) : a ≤ b := by
  induction ts generalizing a with
  | nil => exact Nat.le_of_eq h
  | cons t ts ih =>
      obtain ⟨rfl, ht, hts⟩ := h
      exact Nat.le_trans (Nat.le_of_lt (Token.start_lt_stop ht)) (ih hts)

/-- No token starts in front of where the tokens start. -/
theorem le_start {a b : Nat} {ts : List Token} (h : Tiles a ts b) {t : Token} (ht : t ∈ ts) :
    a ≤ t.start := by
  obtain ⟨before, behind, rfl⟩ := List.append_of_mem ht
  obtain ⟨m, hbefore, hbehind⟩ := append.mp h
  rw [hbehind.1]
  exact hbefore.start_le

theorem start_lt_stop {a b : Nat} {ts : List Token} (h : Tiles a ts b) {t : Token} (ht : t ∈ ts) :
    t.start < t.stop := by
  obtain ⟨before, behind, rfl⟩ := List.append_of_mem ht
  obtain ⟨m, -, -, htext, -⟩ := append.mp h
  exact Token.start_lt_stop htext

theorem stop_le {a b : Nat} {ts : List Token} (h : Tiles a ts b) {t : Token} (ht : t ∈ ts) :
    t.stop ≤ b := by
  obtain ⟨before, behind, rfl⟩ := List.append_of_mem ht
  obtain ⟨m, -, -, -, hbehind⟩ := append.mp h
  exact hbehind.start_le

/-- The tokens stand one behind the other. -/
theorem pairwise_stop_le {a b : Nat} {ts : List Token} (h : Tiles a ts b) :
    ts.Pairwise fun t u => t.stop ≤ u.start := by
  induction ts generalizing a with
  | nil => exact .nil
  | cons t ts ih => exact .cons (fun u hu => h.2.2.le_start hu) (ih h.2.2)

/-- No two tokens start at one place. -/
theorem pairwise_start {a b : Nat} {ts : List Token} (h : Tiles a ts b) :
    ts.Pairwise fun t u => t.start < u.start := by
  refine h.pairwise_stop_le.imp_of_mem fun ht _ hle => ?_
  exact Nat.lt_of_lt_of_le (h.start_lt_stop ht) hle

/-- No two tokens reach over one place. -/
theorem eq_of_lt_stop {a b : Nat} {ts : List Token} (h : Tiles a ts b) {t u : Token} (ht : t ∈ ts)
    (hu : u ∈ ts) (htu : t.start < u.stop) (hut : u.start < t.stop) : t = u := by
  induction ts generalizing a with
  | nil => cases ht
  | cons v ts ih =>
      obtain ⟨-, -, hts⟩ := h
      rcases List.mem_cons.mp ht with rfl | htail <;> rcases List.mem_cons.mp hu with rfl | hutail
      · rfl
      · exact absurd (hts.le_start hutail) (Nat.not_le.mpr hut)
      · exact absurd (hts.le_start htail) (Nat.not_le.mpr htu)
      · exact ih hts htail hutail

end Tiles

namespace Lexer

theorem toList_text_token (offset : Nat) (c : Char) (cs : List Char) :
    (token offset c cs).text.toList = c :: cs.take (scan c cs).2 :=
  String.toList_ofList

theorem stop_token (offset : Nat) (c : Char) (cs : List Char) :
    (token offset c cs).stop = offset + c.utf8Size + utf8Len (cs.take (scan c cs).2) := by
  rw [Token.stop, ← String.utf8Len_toList, toList_text_token, String.utf8Len_cons, Nat.add_assoc,
    Nat.add_comm (utf8Len _)]
  rfl

/-- The tokens start behind the characters that belong to a token found before. -/
theorem tiles_tokensFrom (skip offset : Nat) (cs : List Char) :
    Tiles (offset + utf8Len (cs.take skip)) (tokensFrom skip offset cs) (offset + utf8Len cs) := by
  induction cs generalizing skip offset with
  | nil => simp [Tiles]
  | cons c cs ih =>
      have hsize : offset + utf8Len (c :: cs) = offset + c.utf8Size + utf8Len cs := by
        rw [String.utf8Len_cons, Nat.add_assoc, Nat.add_comm c.utf8Size]
      rw [hsize]
      cases skip with
      | zero =>
          refine ⟨rfl, fun h => ?_, ?_⟩
          · have := congrArg String.toList h
            rw [toList_text_token] at this
            exact List.cons_ne_nil _ _ this
          · rw [stop_token]
            exact ih _ _
      | succ skip =>
          rw [tokensFrom_succ_cons, List.take_succ_cons, String.utf8Len_cons,
            Nat.add_comm (utf8Len _), ← Nat.add_assoc]
          exact ih _ _

theorem flatMap_tokensFrom (skip offset : Nat) (cs : List Char) :
    (tokensFrom skip offset cs).flatMap (·.text.toList) = cs.drop skip := by
  induction cs generalizing skip offset with
  | nil => simp
  | cons c cs ih =>
      cases skip with
      | zero => simp [ih, toList_text_token]
      | succ skip => rw [tokensFrom_succ_cons, ih, List.drop_succ_cons]

/-- A token was read somewhere in the text, and it starts where the text in front of it ends. -/
theorem exists_of_mem_tokensFrom {skip offset : Nat} {cs : List Char} {t : Token}
    (h : t ∈ tokensFrom skip offset cs) :
    ∃ before c behind, cs = before ++ c :: behind ∧
      t = token (offset + utf8Len before) c behind := by
  induction cs generalizing skip offset with
  | nil => simp at h
  | cons c cs ih =>
      -- A token found behind `c` is one of the rest of the text, with one character more before it.
      have hbehind {skip : Nat} (h : t ∈ tokensFrom skip (offset + c.utf8Size) cs) :
          ∃ before d behind, c :: cs = before ++ d :: behind ∧
            t = token (offset + utf8Len before) d behind := by
        obtain ⟨before, d, behind, hcs, ht⟩ := ih h
        refine ⟨c :: before, d, behind, by rw [hcs]; rfl, ?_⟩
        rw [ht, String.utf8Len_cons, Nat.add_assoc, Nat.add_comm c.utf8Size]
      cases skip with
      | zero =>
          rcases List.mem_cons.mp h with rfl | h
          · exact ⟨[], c, cs, rfl, rfl⟩
          · exact hbehind h
      | succ skip => exact hbehind h

theorem exists_append_of_mem_tokensFrom {skip offset : Nat} {cs : List Char} {t : Token}
    (h : t ∈ tokensFrom skip offset cs) :
    ∃ before behind, cs = before ++ t.text.toList ++ behind ∧ t.start = offset + utf8Len before := by
  obtain ⟨before, c, behind, rfl, rfl⟩ := exists_of_mem_tokensFrom h
  refine ⟨before, behind.drop (scan c behind).2, ?_, rfl⟩
  rw [toList_text_token, List.append_assoc, List.cons_append, List.take_append_drop]

end Lexer

theorem tiles_tokenize (source : String) : Tiles 0 (tokenize source) source.utf8ByteSize := by
  have h := Lexer.tiles_tokensFrom 0 0 source.toList
  rwa [List.take_zero, String.utf8Len_nil, Nat.zero_add, Nat.zero_add, String.utf8Len_toList] at h

/-- Wherever a token of a script is cut between two characters, the cut stands between two characters
of the script. -/
theorem isValid_in_token {source : String} {t : Token} (h : t ∈ tokenize source)
    (head tail : String) (ht : t.text = head ++ tail) :
    String.Pos.Raw.IsValid source ⟨t.start + head.utf8ByteSize⟩ := by
  obtain ⟨before, behind, hs, hstart⟩ := Lexer.exists_append_of_mem_tokensFrom h
  refine String.Pos.Raw.isValid_iff_exists_append.mpr
    ⟨String.ofList before ++ head, tail ++ String.ofList behind, ?_, ?_⟩
  · rw [← String.toList_inj, hs, ht]
    simp
  · simp [String.Pos.Raw.ext_iff, String.utf8ByteSize_ofList, hstart]

/-- What a token says is what the script says between its two offsets. -/
theorem extract_token {source : String} {t : Token} (h : t ∈ tokenize source) :
    String.Pos.Raw.extract source ⟨t.start⟩ ⟨t.stop⟩ = t.text := by
  obtain ⟨before, behind, hs, hstart⟩ := Lexer.exists_append_of_mem_tokensFrom h
  have hslice := extract_append (a := String.ofList before) (b := t.text)
    (c := String.ofList behind)
  have hsource : String.ofList before ++ t.text ++ String.ofList behind = source := by
    rw [← String.toList_inj, hs]
    simp
  rw [hsource, String.utf8ByteSize_ofList] at hslice
  rw [Token.stop, hstart, Nat.zero_add]
  exact hslice

/-- One after the other the tokens say what the script says. -/
theorem join_text_tokenize (source : String) :
    String.join ((tokenize source).map Token.text) = source := by
  have h := Lexer.flatMap_tokensFrom 0 0 source.toList
  rw [← String.toList_inj, String.toList_join, List.flatMap_map]
  exact h

end ScriptLint
