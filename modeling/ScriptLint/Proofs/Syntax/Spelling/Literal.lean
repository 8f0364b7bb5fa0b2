import ScriptLint.Proofs.Syntax.Literal
import ScriptLint.Proofs.Syntax.Spelling

/-!
Literals in other spellings. What a string, a variable or a word means is spelled as it is.
-/

namespace ScriptLint

namespace Literal

theorem dropPrefix?_eq_some {part cs ds : List Char} :
    dropPrefix? part cs = some ds ↔ cs = part ++ ds := by
  unfold dropPrefix?
  rw [Option.ite_none_right_eq_some, List.isPrefixOf_iff_prefix, Option.some.injEq]
  constructor
  · rintro ⟨⟨us, rfl⟩, rfl⟩
    rw [List.drop_left]
  · rintro rfl
    exact ⟨List.prefix_append .., List.drop_left⟩

theorem dropSuffix?_eq_some {part cs ds : List Char} :
    dropSuffix? part cs = some ds ↔ cs = ds ++ part := by
  unfold dropSuffix?
  rw [Option.ite_none_right_eq_some, List.isSuffixOf_iff_suffix, Option.some.injEq]
  constructor
  · rintro ⟨⟨us, rfl⟩, rfl⟩
    rw [List.length_append, Nat.add_sub_cancel, List.take_left]
  · rintro rfl
    refine ⟨List.suffix_append .., ?_⟩
    rw [List.length_append, Nat.add_sub_cancel, List.take_left]

open Spelling

variable {w : Spelling} {c x : Char} {cs ds part : List Char}

theorem dropPrefix?_chars (h : ∀ x ∈ part, w.isMark x) :
    dropPrefix? part (w.chars cs) = (dropPrefix? part cs).map w.chars := by
  refine Option.ext fun ds => ?_
  rw [dropPrefix?_eq_some, Option.map_eq_some_iff]
  constructor
  · intro hcs
    obtain ⟨cs', rfl, rfl⟩ := exists_of_chars_eq_append h hcs
    exact ⟨cs', dropPrefix?_eq_some.mpr rfl, rfl⟩
  · rintro ⟨cs', hcs', rfl⟩
    rw [dropPrefix?_eq_some.mp hcs', chars_append, chars_of_isMark h]

theorem dropSuffix?_chars (h : ∀ x ∈ part, w.isMark x) :
    dropSuffix? part (w.chars cs) = (dropSuffix? part cs).map w.chars := by
  refine Option.ext fun ds => ?_
  rw [dropSuffix?_eq_some, Option.map_eq_some_iff]
  constructor
  · intro hcs
    obtain ⟨cs', rfl, rfl⟩ := exists_of_chars_eq_append' h hcs
    exact ⟨cs', dropSuffix?_eq_some.mpr rfl, rfl⟩
  · rintro ⟨cs', hcs', rfl⟩
    rw [dropSuffix?_eq_some.mp hcs', chars_append, chars_of_isMark h]

/-- With a carriage return in front of each, line feeds are not met alone. -/
theorem returns_ne_cons : Spelling.returns.chars cs ≠ '\n' :: ds := by
  intro h
  cases cs with
  | nil => cases h
  | cons c cs =>
      rw [chars_cons, char] at h
      split_ifs at h with hc
      · cases h
      · exact hc (List.cons.inj h).1

theorem dropPrefix?_returns : dropPrefix? ['\r', '\n'] (Spelling.returns.chars cs) =
    (dropPrefix? ['\n'] cs).map Spelling.returns.chars := by
  refine Option.ext fun ds => ?_
  rw [dropPrefix?_eq_some, Option.map_eq_some_iff]
  simp only [dropPrefix?_eq_some]
  constructor
  · intro hcs
    cases cs with
    | nil => cases hcs
    | cons c cs =>
        rw [chars_cons, char] at hcs
        split_ifs at hcs with hc
        · exact ⟨cs, by rw [hc]; rfl, List.append_cancel_left hcs⟩
        · exact absurd (List.cons.inj hcs).2 returns_ne_cons
  · rintro ⟨cs', rfl, rfl⟩
    rfl

theorem dropSuffix?_returns : dropSuffix? ['\r', '\n'] (Spelling.returns.chars cs) =
    (dropSuffix? ['\n'] cs).map Spelling.returns.chars := by
  refine Option.ext fun ds => ?_
  rw [dropSuffix?_eq_some, Option.map_eq_some_iff]
  simp only [dropSuffix?_eq_some]
  constructor
  · intro hcs
    rcases List.eq_nil_or_concat cs with rfl | ⟨init, c, rfl⟩
    · simp at hcs
    · rw [List.concat_eq_append] at hcs ⊢
      rw [chars_append, chars_cons, chars_nil, List.append_nil, char] at hcs
      split_ifs at hcs with hc
      · exact ⟨init, by rw [hc], List.append_cancel_right hcs⟩
      · rw [← List.singleton_append (l := ['\n']), ← List.append_assoc] at hcs
        exact absurd (List.singleton_inj.mp (List.append_inj' hcs rfl).2) hc
  · rintro ⟨cs', rfl, rfl⟩
    rw [chars_append]
    rfl

theorem dropPrefix?_feed_returns : dropPrefix? ['\n'] (Spelling.returns.chars cs) = none :=
  Option.eq_none_iff_forall_ne_some.mpr fun _ hds => returns_ne_cons (dropPrefix?_eq_some.mp hds)

theorem dropSuffix?_feed_returns (h : dropSuffix? ['\n'] cs = none) :
    dropSuffix? ['\n'] (Spelling.returns.chars cs) = none := by
  refine Option.eq_none_iff_forall_ne_some.mpr fun ds hds => ?_
  have hcs := dropSuffix?_eq_some.mp hds
  rcases List.eq_nil_or_concat cs with rfl | ⟨init, c, rfl⟩
  · simp at hcs
  · rw [List.concat_eq_append] at h hcs
    rw [chars_append, chars_cons, chars_nil, List.append_nil, char] at hcs
    split_ifs at hcs with hc
    · rw [hc, dropSuffix?_eq_some.mpr rfl] at h
      cases h
    · exact hc (List.singleton_inj.mp (List.append_inj' hcs rfl).2)

theorem dropPrefix?_eq_none (h : '\r' ∉ cs) : dropPrefix? ['\r', '\n'] cs = none := by
  refine Option.eq_none_iff_forall_ne_some.mpr fun ds hds => h ?_
  rw [dropPrefix?_eq_some.mp hds]
  exact List.mem_cons_self

theorem dropSuffix?_eq_none (h : '\r' ∉ cs) : dropSuffix? ['\r', '\n'] cs = none := by
  refine Option.eq_none_iff_forall_ne_some.mpr fun ds hds => h ?_
  rw [dropSuffix?_eq_some.mp hds]
  exact List.mem_append_right ds List.mem_cons_self

/-- Line breaks are trimmed as they are spelled, if all of them are written alike. -/
theorem trimLineBreaks_chars (h : w = .returns → '\r' ∉ cs) :
    trimLineBreaks (w.chars cs) = w.chars (trimLineBreaks cs) := by
  unfold trimLineBreaks
  simp only [Option.orElse_eq_orElse, Option.orElse_eq_or]
  cases w with
  | folded =>
      have hmark : ∀ x ∈ ['\r', '\n'], Spelling.folded.isMark x := List.all_eq_true.mp rfl
      have hmark' : ∀ x ∈ ['\n'], Spelling.folded.isMark x := List.all_eq_true.mp rfl
      simp only [dropPrefix?_chars hmark, dropPrefix?_chars hmark', dropSuffix?_chars hmark,
        dropSuffix?_chars hmark', ← Option.map_or, Option.getD_map]
  | returns =>
      have hbehind : '\r' ∉ (dropPrefix? ['\n'] cs).getD cs := fun hmem =>
        h rfl ((getD_isInfix fun _ => isInfix_of_dropPrefix?).subset hmem)
      rw [dropPrefix?_returns, dropPrefix?_feed_returns, dropPrefix?_eq_none (h rfl), Option.or_none,
        Option.none_or, Option.getD_map, dropSuffix?_returns, dropSuffix?_eq_none hbehind,
        Option.none_or]
      cases hfeed : dropSuffix? ['\n'] ((dropPrefix? ['\n'] cs).getD cs) with
      | none => rw [dropSuffix?_feed_returns hfeed]; rfl
      | some ds => rfl

theorem undouble_of_ne {q : Char} (hc : c ≠ q) : undouble q (c :: cs) = c :: undouble q cs := by
  cases cs with
  | nil => rw [undouble.eq_2, undouble.eq_2] <;> simp
  | cons d cs => rw [undouble, if_neg fun h => hc h.1]

theorem undouble_append_of_ne {q : Char} (hne : ∀ d ∈ ds, d ≠ q) :
    undouble q (ds ++ cs) = ds ++ undouble q cs := by
  induction ds with
  | nil => rfl
  | cons d ds ih =>
      rw [List.cons_append, undouble_of_ne (hne d List.mem_cons_self),
        ih fun u hu => hne u (List.mem_cons_of_mem d hu), List.cons_append]

theorem undouble_of_head?_ne {q : Char} (h : cs.head? ≠ some q) :
    undouble q (q :: cs) = q :: undouble q cs := by
  cases cs with
  | nil => rfl
  | cons d cs => rw [undouble, if_neg fun hd => h (congrArg some hd.2)]

theorem undouble_chars {q : Char} (hq : w.isMark q) (cs : List Char) :
    undouble q (w.chars cs) = w.chars (undouble q cs) := by
  fun_induction undouble q cs with
  | case1 c d cs h ih =>
      obtain ⟨rfl, rfl⟩ := h
      rw [chars_cons_of_isMark hq, chars_cons_of_isMark hq, undouble, if_pos ⟨rfl, rfl⟩, ih,
        chars_cons_of_isMark hq]
  | case2 c d cs h ih =>
      by_cases hc : c = q
      · have hhead : (w.chars (d :: cs)).head? ≠ some q := by
          rw [Ne, head?_chars hq, List.head?_cons, Option.some.injEq]
          exact fun hd => h ⟨hc, hd⟩
        rw [hc, chars_cons_of_isMark hq, undouble_of_head?_ne hhead, ih, chars_cons_of_isMark hq]
      · have hne : ∀ d ∈ w.char c, d ≠ q := by
          rintro _ hd rfl
          exact hc (eq_of_mem_char hq hd).symm
        rw [chars_cons (c := c), undouble_append_of_ne hne, ih, chars_cons (c := c)]
  | case3 cs h =>
      match cs, h with
      | [], _ => rfl
      | [c], _ =>
        by_cases hc : c = q
        · rw [hc, chars_cons_of_isMark hq]
          rfl
        · have hne : ∀ d ∈ w.char c, d ≠ q := by
            rintro _ hd rfl
            exact hc (eq_of_mem_char hq hd).symm
          rw [chars_cons, undouble_append_of_ne hne]
          rfl
      | c :: d :: cs, h => exact absurd rfl (h c d cs)

/-- Whether a text is expanded does not depend on how it is spelled. -/
theorem expands_chars {b b' : Char} (hb : b' = '\x60' ↔ b = '\x60') (cs : List Char) :
    expands b' (w.chars cs) = expands b cs := by
  induction cs generalizing b b' with
  | nil => rfl
  | cons c cs ih =>
      rcases w.char_cases c with ⟨d, hd⟩ | ⟨rfl, rfl⟩
      · have hmem : d ∈ w.char c := hd ▸ List.mem_cons_self
        have hdollar : d = '$' ↔ c = '$' := eq_iff_of_mem_char (isMark_of rfl) hmem
        have htick : d = '\x60' ↔ c = '\x60' := eq_iff_of_mem_char (isMark_of rfl) hmem
        rw [chars_cons, hd, List.singleton_append, expands, expands, ih htick]
        simp only [hdollar, ne_eq, hb]
      · exact ih (by decide)

section

variable {text : String}

theorem toList_text_eq_append {part us : List Char} (hpart : ∀ x ∈ part, w.isMark x)
    (htext : text.toList = part ++ us) : (w.text text).toList = part ++ w.chars us := by
  rw [toList_text, htext, chars_append, chars_of_isMark hpart]

/-- The text starts with a quote, or with the opening of a here-string. -/
def Opens (cs : List Char) : Prop :=
  ['\x27'] <+: cs ∨ ['\x22'] <+: cs ∨ ['@', '\x27'] <+: cs ∨ ['@', '\x22'] <+: cs

theorem isPrefix_of_isPrefix_chars (hpart : ∀ x ∈ part, w.isMark x) (h : part <+: w.chars cs) :
    part <+: cs := by
  obtain ⟨ds, hds⟩ := h
  obtain ⟨us, rfl, -⟩ := exists_of_chars_eq_append hpart hds.symm
  exact List.prefix_append part us

theorem Opens.of_chars (h : Opens (w.chars cs)) : Opens cs := by
  rcases h with h | h | h | h
  · exact .inl (isPrefix_of_isPrefix_chars (isMark_of_all rfl) h)
  · exact .inr (.inl (isPrefix_of_isPrefix_chars (isMark_of_all rfl) h))
  · exact .inr (.inr (.inl (isPrefix_of_isPrefix_chars (isMark_of_all rfl) h)))
  · exact .inr (.inr (.inr (isPrefix_of_isPrefix_chars (isMark_of_all rfl) h)))

/-- A text that is no string is not unquoted. -/
theorem unquote_of_not_opens (h : ¬Opens text.toList) : unquote text = (text, false) := by
  unfold unquote
  split
  case h_1 us htext => exact absurd (.inr (.inr (.inl ⟨us, htext.symm⟩))) h
  case h_2 us htext => exact absurd (.inr (.inr (.inr ⟨us, htext.symm⟩))) h
  case h_3 us htext => exact absurd (.inl ⟨us, htext.symm⟩) h
  case h_4 us htext => exact absurd (.inr (.inl ⟨us, htext.symm⟩)) h
  case h_5 => rfl

/-- The value of a string is spelled as the string, and depends on variables in each spelling. -/
theorem unquote_text (h : w = .returns → '\r' ∉ text.toList) :
    unquote (w.text text) = (w.text (unquote text).1, (unquote text).2) := by
  have hclosed {part : List Char} (hpart : ∀ x ∈ part, w.isMark x) (cs : List Char) :
      (dropSuffix? part (w.chars cs)).getD (w.chars cs) = w.chars ((dropSuffix? part cs).getD cs) := by
    rw [dropSuffix?_chars hpart, Option.getD_map]
  have htrim {part us : List Char} {q : Char} (hpart : ∀ x ∈ part, w.isMark x)
      (htext : text.toList = ['@', q] ++ us) :
      trimLineBreaks ((dropSuffix? part (w.chars us)).getD (w.chars us)) =
        w.chars (trimLineBreaks ((dropSuffix? part us).getD us)) := by
    rw [hclosed hpart]
    refine trimLineBreaks_chars fun hw hmem => h hw ?_
    rw [htext]
    exact List.mem_append_right _ ((getD_isInfix fun _ => isInfix_of_dropSuffix?).subset hmem)
  by_cases hopens : Opens text.toList
  · rcases hopens with ⟨us, htext⟩ | ⟨us, htext⟩ | ⟨us, htext⟩ | ⟨us, htext⟩
    · have htext' := toList_text_eq_append (w := w) (isMark_of_all rfl) htext.symm
      simp only [unquote, contents, htext', ← htext, List.cons_append, List.nil_append]
      rw [hclosed (isMark_of_all rfl), undouble_chars (isMark_of rfl), ofList_chars]
    · have htext' := toList_text_eq_append (w := w) (isMark_of_all rfl) htext.symm
      simp only [unquote, contents, htext', ← htext, List.cons_append, List.nil_append]
      rw [hclosed (isMark_of_all rfl), undouble_chars (isMark_of rfl), ofList_chars, expands_chars Iff.rfl]
    · have htext' := toList_text_eq_append (w := w) (isMark_of_all rfl) htext.symm
      simp only [unquote, contents, htext', ← htext, List.cons_append, List.nil_append]
      rw [htrim (isMark_of_all rfl) htext.symm, ofList_chars]
    · have htext' := toList_text_eq_append (w := w) (isMark_of_all rfl) htext.symm
      simp only [unquote, contents, htext', ← htext, List.cons_append, List.nil_append]
      rw [htrim (isMark_of_all rfl) htext.symm, ofList_chars, expands_chars Iff.rfl]
  · rw [unquote_of_not_opens hopens, unquote_of_not_opens]
    rw [toList_text]
    exact fun h => hopens h.of_chars

end

end Literal

end ScriptLint
