import ScriptLint.Proofs.Syntax.Tiling

/-!
Slices of a script. A span is one if its bounds stand in the script and between its characters; a token
stands in the script if the script says what the token says, where the token is.
-/

namespace ScriptLint

open String (utf8Len)

namespace Span

/-- The bounds of the span stand in order in a text, and between two characters of it. -/
structure In (s : Span) (source : String) : Prop where
  start_le_stop : s.start ≤ s.stop
  stop_le : s.stop ≤ source.utf8ByteSize
  start_isValid : String.Pos.Raw.IsValid source ⟨s.start⟩
  stop_isValid : String.Pos.Raw.IsValid source ⟨s.stop⟩

/-- What a text says between the bounds of a span. -/
def slice (s : Span) (source : String) : String :=
  String.Pos.Raw.extract source ⟨s.start⟩ ⟨s.stop⟩

theorem in_of_isValid {source : String} {s : Span} (hle : s.start ≤ s.stop)
    (hstart : String.Pos.Raw.IsValid source ⟨s.start⟩)
    (hstop : String.Pos.Raw.IsValid source ⟨s.stop⟩) : s.In source :=
  ⟨hle, hstop.le_rawEndPos, hstart, hstop⟩

theorem In.empty {source : String} {n : Nat} (h : String.Pos.Raw.IsValid source ⟨n⟩) :
    (Span.empty n).In source :=
  in_of_isValid (Nat.le_refl _) h h

end Span

/-- A bound that does not stand in front of the end of a first part stands in the second one. -/
theorem exists_append_of_isValid {front behind : String} {n : Nat}
    (h : String.Pos.Raw.IsValid (front ++ behind) ⟨n⟩) (hle : front.utf8ByteSize ≤ n) :
    ∃ middle rest, behind = middle ++ rest ∧ n = front.utf8ByteSize + middle.utf8ByteSize := by
  obtain ⟨p, r, hpr, hn⟩ := String.Pos.Raw.isValid_iff_exists_append.mp h
  obtain rfl : n = p.utf8ByteSize := congrArg String.Pos.Raw.byteIdx hn
  have hlists := congrArg String.toList hpr
  rw [String.toList_append, String.toList_append] at hlists
  rcases List.append_eq_append_iff.mp hlists with ⟨middle, hp, hbehind⟩ | ⟨extra, hfront, hr⟩
  · refine ⟨String.ofList middle, r, ?_, ?_⟩
    · rw [← String.toList_inj, hbehind]
      simp
    · rw [← String.utf8Len_toList, hp, String.utf8Len_append, String.utf8Len_toList,
        String.utf8ByteSize_ofList]
  · -- nothing stands between the two bounds
    have hsize := congrArg utf8Len hfront
    rw [String.utf8Len_append, String.utf8Len_toList, String.utf8Len_toList] at hsize
    exact ⟨"", behind, by simp, by simp; omega⟩

namespace Token

/-- A text says what the token says, where the token is. -/
def StandsIn (t : Token) (source : String) : Prop :=
  ∃ before behind, source = before ++ t.text ++ behind ∧ t.start = before.utf8ByteSize

theorem StandsIn.of_mem {source : String} {t : Token} (h : t ∈ tokenize source) :
    t.StandsIn source := by
  obtain ⟨before, behind, hs, hstart⟩ := Lexer.exists_append_of_mem_tokensFrom h
  refine ⟨String.ofList before, String.ofList behind, ?_, ?_⟩
  · rw [← String.toList_inj, hs]
    simp
  · rw [hstart, Nat.zero_add, String.utf8ByteSize_ofList]

variable {source : String} {t : Token}

theorem StandsIn.start_isValid (h : t.StandsIn source) :
    String.Pos.Raw.IsValid source ⟨t.start⟩ := by
  obtain ⟨before, behind, hs, hstart⟩ := h
  refine String.Pos.Raw.isValid_iff_exists_append.mpr ⟨before, t.text ++ behind, ?_, ?_⟩
  · rw [hs, String.append_assoc]
  · rw [hstart]
    rfl

theorem StandsIn.stop_isValid (h : t.StandsIn source) :
    String.Pos.Raw.IsValid source ⟨t.stop⟩ := by
  obtain ⟨before, behind, hs, hstart⟩ := h
  refine String.Pos.Raw.isValid_iff_exists_append.mpr ⟨before ++ t.text, behind, hs, ?_⟩
  rw [stop, hstart, ← String.utf8ByteSize_append]
  rfl

theorem StandsIn.span_in (h : t.StandsIn source) : t.span.In source :=
  Span.in_of_isValid (Nat.le_add_right _ _) h.start_isValid h.stop_isValid

/-- From the start of a token on a text says what the token says, and then something more. -/
theorem StandsIn.slice_eq (h : t.StandsIn source) {n : Nat}
    (hn : String.Pos.Raw.IsValid source ⟨n⟩) (hle : t.stop ≤ n) :
    ∃ middle, (Span.mk t.start n).slice source = t.text ++ middle ∧
      n = t.stop + middle.utf8ByteSize := by
  obtain ⟨before, behind, rfl, hstart⟩ := h
  have hstop : t.stop = (before ++ t.text).utf8ByteSize := by
    rw [stop, hstart, String.utf8ByteSize_append]
  obtain ⟨middle, rest, rfl, rfl⟩ := exists_append_of_isValid hn (hstop ▸ hle)
  refine ⟨middle, ?_, by rw [hstop]⟩
  have hslice := extract_append (a := before) (b := t.text ++ middle) (c := rest)
  rw [String.utf8ByteSize_append, ← Nat.add_assoc, ← String.utf8ByteSize_append, ← hstart] at hslice
  simpa only [Span.slice, String.append_assoc] using hslice

theorem StandsIn.slice_span (h : t.StandsIn source) : t.span.slice source = t.text := by
  obtain ⟨middle, hslice, hsize⟩ := h.slice_eq h.stop_isValid (Nat.le_refl _)
  obtain rfl : middle = "" := String.utf8ByteSize_eq_zero_iff.mp (by omega)
  rw [String.append_empty] at hslice
  exact hslice

/-- Both pieces of a token that is cut stand where the token does. -/
theorem StandsIn.cut (h : t.StandsIn source) {head tail : String} (htext : t.text = head ++ tail) :
    (t.cut head.utf8ByteSize).1.StandsIn source ∧ (t.cut head.utf8ByteSize).2.StandsIn source := by
  obtain ⟨before, behind, hs, hstart⟩ := h
  rw [htext] at hs
  rw [Token.cut_eq htext]
  refine ⟨⟨before, tail ++ behind, ?_, hstart⟩, before ++ head, behind, ?_, ?_⟩
  · rw [hs]
    simp only [String.append_assoc]
  · rw [hs]
    simp only [String.append_assoc]
  · rw [String.utf8ByteSize_append, hstart]

end Token

end ScriptLint
