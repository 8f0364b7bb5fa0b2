import ScriptLint.Proofs.Syntax.Spelling.Token
import ScriptLint.Proofs.Syntax.Word

/-!
The lexer in another spelling. A token of a text is a token of the text in each spelling, of the same kind,
and it takes the spellings of the same characters. A carriage return in front of a line feed belongs to what
the line feed belongs to: to a line end, to the blank that a backtick makes of one, to a string or to a
comment. So no text may have carriage returns of its own where they are put in.
-/

namespace ScriptLint

open String (utf8Len)

namespace Spelling

variable {w : Spelling} {c d x : Char} {cs ds part : List Char} {p : Char → Bool} {n : Nat}

/-- The length of the first `n` characters in the spelling. -/
def taken (w : Spelling) (cs : List Char) (n : Nat) : Nat := (w.chars (cs.take n)).length

@[simp] theorem taken_zero : w.taken cs 0 = 0 := rfl

@[simp] theorem taken_cons : w.taken (c :: cs) (n + 1) = (w.char c).length + w.taken cs n := by
  rw [taken, List.take_succ_cons, chars_cons, List.length_append, taken]

theorem taken_cons_of_isMark (h : w.isMark x) : w.taken (x :: cs) (n + 1) = w.taken cs n + 1 := by
  rw [taken_cons, char_of_isMark h, List.length_singleton, Nat.add_comm]

theorem taken_add (w : Spelling) (cs : List Char) (n m : Nat) :
    w.taken cs (n + m) = w.taken cs n + w.taken (cs.drop n) m := by
  rw [taken, List.take_add, chars_append, List.length_append, taken, taken]

theorem taken_length : w.taken cs cs.length = (w.chars cs).length := by
  rw [taken, List.take_length]

theorem take_chars (w : Spelling) (cs : List Char) (n : Nat) :
    (w.chars cs).take (w.taken cs n) = w.chars (cs.take n) := by
  have hsplit : w.chars cs = w.chars (cs.take n) ++ w.chars (cs.drop n) := by
    rw [← chars_append, List.take_append_drop]
  rw [hsplit]
  exact List.take_left

theorem drop_chars (w : Spelling) (cs : List Char) (n : Nat) :
    (w.chars cs).drop (w.taken cs n) = w.chars (cs.drop n) := by
  have hsplit : w.chars cs = w.chars (cs.take n) ++ w.chars (cs.drop n) := by
    rw [← chars_append, List.take_append_drop]
  rw [hsplit]
  exact List.drop_left

theorem eq_of_char_returns (h : returns.char c = [d]) : c ≠ '\n' ∧ d = c := by
  rw [char] at h
  split_ifs at h with hc
  · cases h
  · exact ⟨hc, (List.singleton_inj.mp h).symm⟩

/-- Behind the first character of a spelling there is at most a line feed. -/
theorem eq_feed_of_mem_char (h : w.char c = d :: ds) (hx : x ∈ ds) : x = '\n' := by
  rcases w.char_cases c with ⟨e, he⟩ | ⟨rfl, rfl⟩
  · rw [h] at he
    rw [(List.cons.inj he).2] at hx
    cases hx
  · cases h
    exact List.mem_singleton.mp hx

/-- A character that is spelled with a single one is told from the others but for its case. -/
theorem eq_iff_of_char (hx : x.isAlpha = false) (hd : w.char c = [d]) : d = x ↔ c = x := by
  cases w with
  | folded =>
      refine eq_iff_of_mem_char ?_ (hd ▸ List.mem_singleton_self d)
      rw [isMark, hx]
      rfl
  | returns => rw [(eq_of_char_returns hd).2]

theorem Respects.apply_eq (hp : w.Respects p) (hd : w.char c = [d]) : p d = p c :=
  hp c d (hd ▸ List.mem_singleton_self d)

end Spelling

namespace Lexer

open Spelling

variable {w : Spelling} {c d q x : Char} {cs ds part : List Char} {p : Char → Bool} {n : Nat}

theorem runLength_chars (hp : w.Respects p) (cs : List Char) :
    runLength p (w.chars cs) = w.taken cs (runLength p cs) := by
  rw [runLength, takeWhile_chars hp, taken, runLength, ← List.prefix_iff_eq_take.mp (List.takeWhile_prefix p)]

theorem respects_isBlank (w : Spelling) : w.Respects Text.isBlank :=
  respects_of false (fun _ h => not_isBlank_of_startsWord (startsWord_of_isAlpha h)) rfl

theorem respects_isLineEnd (w : Spelling) : w.Respects isLineEnd := by
  refine respects_of false (fun c h => ?_) rfl
  have hne (x : Char) (hx : startsWord x = false) : c ≠ x := ne_of_startsWord (startsWord_of_isAlpha h) hx
  simp [isLineEnd, hne '\n' rfl, hne '\r' rfl]

theorem respects_isWordBreak (w : Spelling) : w.Respects isWordBreak :=
  respects_of false (fun _ h => not_isWordBreak_of_startsWord (startsWord_of_isAlpha h)) (by decide)

theorem respects_isAlphanumeric (w : Spelling) : w.Respects Text.isAlphanumeric :=
  respects_of true (fun _ h => isAlphanumeric_of_isAlpha h) (by decide)

theorem respects_isLetter (w : Spelling) : w.Respects Text.isLetter := by
  refine respects_of true (fun c h => ?_) (by decide)
  rw [Text.isLetter, if_pos (lt_of_isAlpha h), h]

theorem respects_isStream (w : Spelling) : w.Respects isStream :=
  respects_of false (fun _ h => not_isStream_of_startsWord (startsWord_of_isAlpha h)) (by decide)

theorem respects_eq (w : Spelling) (h : (!x.isAlpha && x ≠ '\n' && x ≠ '\r') = true) :
    w.Respects (decide <| · = x) := respects_of_isMark (isMark_of h)

theorem respects_ne (w : Spelling) (h : (!x.isAlpha && x ≠ '\n' && x ≠ '\r') = true) :
    w.Respects fun c => decide (c ≠ x) := by
  simpa only [decide_not] using (respects_eq w h).not

theorem respects_isVariableChar (w : Spelling) : w.Respects isVariableChar :=
  (((respects_isAlphanumeric w).or (respects_eq w rfl)).or (respects_eq w rfl)).or (respects_eq w rfl)

theorem not_isPrefixOf_of_not_isMark (hne : part ≠ []) (hpart : ∀ x ∈ part, w.isMark x)
    (hx : w.isMark x = false) : part.isPrefixOf (x :: ds) = false := by
  cases part with
  | nil => exact absurd rfl hne
  | cons y part =>
      have hy : y ≠ x := by
        rintro rfl
        have hmark := hpart y List.mem_cons_self
        rw [hx] at hmark
        cases hmark
      simp [List.isPrefixOf, hy]

theorem taken_of_isPrefixOf (hpart : ∀ x ∈ part, w.isMark x) (h : part.isPrefixOf cs) :
    w.taken cs part.length = part.length := by
  obtain ⟨ds, rfl⟩ := List.isPrefixOf_iff_prefix.mp h
  rw [taken, List.take_left, chars_of_isMark hpart]

/-- A pattern of marks ends at the same place. -/
theorem lengthThrough?_chars (hne : part ≠ []) (hpart : ∀ x ∈ part, w.isMark x) (cs : List Char) :
    lengthThrough? part (w.chars cs) = (lengthThrough? part cs).map (w.taken cs) := by
  induction cs with
  | nil => rfl
  | cons c cs ih =>
      have hprefix := Literal.isPrefixOf_chars hpart (c :: cs)
      have hstep : (fun n => w.taken cs n + (w.char c).length) = w.taken (c :: cs) ∘ (· + 1) :=
        funext fun n => by rw [Function.comp_apply, taken_cons, Nat.add_comm]
      rcases w.char_cases c with ⟨d, hd⟩ | ⟨rfl, rfl⟩
      · rw [chars_cons, hd, List.singleton_append] at hprefix ⊢
        rw [lengthThrough?, lengthThrough?, hprefix]
        split_ifs with h
        · rw [Option.map_some, taken_of_isPrefixOf hpart h]
        · rw [ih, Option.map_map, Option.map_map, ← hstep, hd]
          rfl
      -- a pattern starts at neither part of a line break
      · have hfeed {ds : List Char} : part.isPrefixOf ('\n' :: ds) = false :=
          not_isPrefixOf_of_not_isMark hne hpart (by decide)
        have hreturn {ds : List Char} : part.isPrefixOf ('\r' :: ds) = false :=
          not_isPrefixOf_of_not_isMark hne hpart (by decide)
        show lengthThrough? part ('\r' :: '\n' :: returns.chars cs) = _
        rw [lengthThrough?, lengthThrough?, lengthThrough?, hreturn, hfeed, hfeed, ih]
        simp only [Bool.false_eq_true, if_false, Option.map_map]
        rw [← hstep]
        rfl

/-- So does one at the start of a line. -/
theorem lengthThrough?_feed_chars (hpart : ∀ x ∈ part, returns.isMark x) (cs : List Char) :
    lengthThrough? ('\n' :: part) (returns.chars cs) =
      (lengthThrough? ('\n' :: part) cs).map (returns.taken cs) := by
  induction cs with
  | nil => rfl
  | cons c cs ih =>
      have hstep : (fun n => returns.taken cs n + (returns.char c).length) =
          returns.taken (c :: cs) ∘ (· + 1) :=
        funext fun n => by rw [Function.comp_apply, taken_cons, Nat.add_comm]
      have hother {x : Char} {ds : List Char} (hx : x ≠ '\n') :
          ('\n' :: part).isPrefixOf (x :: ds) = false := by
        simp [List.isPrefixOf, hx.symm]
      by_cases hc : c = '\n'
      · subst hc
        have hprefix : ('\n' :: part).isPrefixOf ('\n' :: returns.chars cs) =
            ('\n' :: part).isPrefixOf ('\n' :: cs) := by
          rw [List.isPrefixOf, List.isPrefixOf, Literal.isPrefixOf_chars hpart]
        show lengthThrough? ('\n' :: part) ('\r' :: '\n' :: returns.chars cs) = _
        rw [lengthThrough?, hother (by decide), if_neg Bool.false_ne_true, lengthThrough?, lengthThrough?,
          hprefix]
        split_ifs with h
        · have hrest : part.isPrefixOf cs := by simpa [List.isPrefixOf] using h
          rw [Option.map_some, Option.map_some, List.length_cons, taken_cons, taken_of_isPrefixOf hpart hrest]
          exact congrArg some (Nat.add_comm part.length 2)
        · rw [ih, Option.map_map, Option.map_map, Option.map_map, ← hstep]
          rfl
      · have hd : returns.char c = [c] := if_neg hc
        rw [chars_cons, hd, List.singleton_append, lengthThrough?, lengthThrough?, hother hc, hother hc,
          if_neg Bool.false_ne_true, if_neg Bool.false_ne_true, ih, Option.map_map, Option.map_map, ← hstep, hd]
        rfl

theorem reach_chars_of {pattern : List Char}
    (h : lengthThrough? pattern (w.chars cs) = (lengthThrough? pattern cs).map (w.taken cs)) :
    reach pattern (w.chars cs) = (w.taken cs (reach pattern cs).1, (reach pattern cs).2) := by
  rw [reach, h, reach]
  cases lengthThrough? pattern cs with
  | none => exact congrArg (·, false) taken_length.symm
  | some n => rfl

theorem reach_chars (hne : part ≠ []) (hpart : ∀ x ∈ part, w.isMark x) (cs : List Char) :
    reach part (w.chars cs) = (w.taken cs (reach part cs).1, (reach part cs).2) :=
  reach_chars_of (lengthThrough?_chars hne hpart cs)

/-- A here-string ends at the same place. -/
theorem reach_feed_chars (hpart : ∀ w : Spelling, ∀ x ∈ part, w.isMark x) (cs : List Char) :
    reach ('\n' :: part) (w.chars cs) =
      (w.taken cs (reach ('\n' :: part) cs).1, (reach ('\n' :: part) cs).2) := by
  cases w with
  | folded =>
      refine reach_chars (List.cons_ne_nil _ _) (fun x hx => ?_) cs
      rcases List.mem_cons.mp hx with rfl | hx
      · rfl
      · exact hpart _ x hx
  | returns => exact reach_chars_of (lengthThrough?_feed_chars (hpart _) cs)

/-- Characters that neither close a string nor escape what is behind them. -/
theorem quotedLength_append_of_ne (h : ∀ d ∈ ds, d ≠ q ∧ ¬(q = '\x22' ∧ d = '\x60')) (cs : List Char) :
    quotedLength q (ds ++ cs) = (ds.length + (quotedLength q cs).1, (quotedLength q cs).2) := by
  induction ds with
  | nil => rw [List.nil_append, List.length_nil, Nat.zero_add]
  | cons d ds ih =>
      obtain ⟨hquote, htick⟩ := h d List.mem_cons_self
      rw [List.cons_append, quotedLength_cons_of_ne hquote htick, ih fun u hu => h u (List.mem_cons_of_mem d hu),
        List.length_cons, Nat.add_right_comm]

/-- A string ends at the same place. -/
theorem quotedLength_chars (hq : w.isMark q) (cs : List Char) :
    quotedLength q (w.chars cs) = (w.taken cs (quotedLength q cs).1, (quotedLength q cs).2) := by
  have htick : w.isMark '\x60' := isMark_of rfl
  have hplain {c : Char} (hquote : c ≠ q) (h : ¬(q = '\x22' ∧ c = '\x60')) :
      ∀ d ∈ w.char c, d ≠ q ∧ ¬(q = '\x22' ∧ d = '\x60') := fun d hd =>
    ⟨mt (eq_iff_of_mem_char hq hd).mp hquote, fun hboth =>
      h (hboth.imp_right (eq_iff_of_mem_char htick hd).mp)⟩
  have hstep {c : Char} (hquote : c ≠ q) (h : ¬(q = '\x22' ∧ c = '\x60')) {us : List Char}
      (ih : quotedLength q (w.chars us) = (w.taken us (quotedLength q us).1, (quotedLength q us).2)) :
      quotedLength q (w.chars (c :: us)) =
        (w.taken (c :: us) (quotedLength q (c :: us)).1, (quotedLength q (c :: us)).2) := by
    rw [chars_cons, quotedLength_append_of_ne (hplain hquote h), quotedLength_cons_of_ne hquote h,
      taken_cons, ih]
  fun_induction quotedLength q cs with
  | case1 => rfl
  | case2 c =>
      by_cases hquote : c = q
      · rw [hquote, chars_cons_of_isMark hq, taken_cons_of_isMark hq]
        rfl
      · by_cases h : q = '\x22' ∧ c = '\x60'
        · rw [h.2, chars_cons_of_isMark htick, taken_cons_of_isMark htick]
          rfl
        · exact hstep hquote h rfl
  | case3 c d cs h n closed heq ih =>
      rw [heq] at ih
      rcases h with ⟨rfl, rfl⟩ | ⟨rfl, rfl⟩
      -- what is behind a backtick belongs to the string, each of its characters
      · rw [chars_cons_of_isMark htick, taken_cons_of_isMark htick, chars_cons]
        obtain ⟨x, us, hx⟩ := List.exists_cons_of_ne_nil (char_ne_nil (w := w) (c := d))
        have hus : ∀ u ∈ us, u ≠ '\x22' ∧ ¬('\x22' = '\x22' ∧ u = '\x60') := by
          intro u hu
          rw [eq_feed_of_mem_char hx hu]
          exact ⟨by decide, by decide⟩
        rw [hx, List.cons_append, quotedLength_cons_cons, if_pos (.inl ⟨rfl, rfl⟩),
          quotedLength_append_of_ne hus, ih, taken_cons, hx, List.length_cons]
        refine Prod.ext ?_ rfl
        dsimp only
        omega
      · rw [chars_cons_of_isMark hq, chars_cons_of_isMark hq, quotedLength_cons_cons,
          if_pos (.inr ⟨rfl, rfl⟩), ih, taken_cons_of_isMark hq, taken_cons_of_isMark hq]
  | case4 d cs h =>
      obtain ⟨x, us, hx⟩ := List.exists_cons_of_ne_nil (char_ne_nil (w := w) (c := d))
      have hxq : x = q ↔ d = q := eq_iff_of_mem_char hq (hx ▸ List.mem_cons_self)
      rw [← hxq] at h
      rw [chars_cons_of_isMark hq, taken_cons_of_isMark hq, chars_cons, hx, List.cons_append,
        quotedLength_cons_cons, if_neg h, if_pos rfl]
      rfl
  | case5 c d cs h hc n closed heq ih =>
      rw [heq] at ih
      have hplain : ¬(q = '\x22' ∧ c = '\x60') := fun htick => h (.inl htick)
      have hrest : quotedLength q (w.chars (d :: cs)) =
          (w.taken (d :: cs) (quotedLength q (d :: cs)).1, (quotedLength q (d :: cs)).2) := by rw [ih, heq]
      have hlast := hstep hc hplain hrest
      rw [quotedLength_cons_of_ne hc hplain, heq] at hlast
      exact hlast

theorem typeLength_chars (depth : Nat) (cs : List Char) :
    typeLength depth (w.chars cs) = w.taken cs (typeLength depth cs) := by
  induction cs generalizing depth with
  | nil => rfl
  | cons c cs ih =>
      rcases w.char_cases c with ⟨d, hd⟩ | ⟨rfl, rfl⟩
      · have hend : isLineEnd d = isLineEnd c := (respects_isLineEnd w).apply_eq hd
        have hopen : d = '[' ↔ c = '[' := eq_iff_of_char rfl hd
        have hclose : d = ']' ↔ c = ']' := eq_iff_of_char rfl hd
        have hstep (n : Nat) : w.taken (c :: cs) (n + 1) = w.taken cs n + 1 := by
          rw [taken_cons, hd, List.length_singleton, Nat.add_comm]
        rw [chars_cons, hd, List.singleton_append, typeLength, typeLength]
        simp only [hend, hopen, hclose]
        split_ifs <;> simp [hstep, ih]
      · rfl

theorem isMark_of_isStream (h : isStream c) : w.isMark c := by
  refine isMark_of ?_
  have halpha : c.isAlpha = false := by
    by_contra hc
    rw [not_isStream_of_startsWord (startsWord_of_isAlpha (Bool.not_eq_false _ ▸ hc))] at h
    cases h
  have hfeed : c ≠ '\n' := by rintro rfl; cases h
  have hreturn : c ≠ '\r' := by rintro rfl; cases h
  simp [halpha, hfeed, hreturn]

theorem redirectionTail_chars (cs : List Char) :
    redirectionTail (w.chars cs) = w.taken cs (redirectionTail cs) := by
  have harrow : w.isMark '>' := isMark_of rfl
  have hcall : w.isMark '&' := isMark_of rfl
  cases cs with
  | nil => rfl
  | cons c cs =>
      by_cases hc : c = '>'
      · rw [hc, chars_cons_of_isMark harrow]
        show 1 = w.taken ('>' :: cs) (0 + 1)
        rw [taken_cons_of_isMark harrow, taken_zero]
      by_cases hc' : c = '&'
      · rw [hc', chars_cons_of_isMark hcall]
        cases cs with
        | nil => rfl
        | cons d cs =>
            obtain ⟨x, us, hx⟩ := List.exists_cons_of_ne_nil (char_ne_nil (w := w) (c := d))
            have hstream : isStream x = isStream d := respects_isStream w d x (hx ▸ List.mem_cons_self)
            rw [chars_cons, hx, List.cons_append, redirectionTail, redirectionTail, hstream]
            split_ifs with h
            · rw [taken_cons_of_isMark hcall, taken_cons_of_isMark (isMark_of_isStream h), taken_zero]
            · rfl
      · obtain ⟨x, us, hx⟩ := List.exists_cons_of_ne_nil (char_ne_nil (w := w) (c := c))
        have hmem : x ∈ w.char c := hx ▸ List.mem_cons_self
        rw [redirectionTail_of_ne hc hc', chars_cons, hx, List.cons_append, redirectionTail_of_ne
          (mt (eq_iff_of_mem_char harrow hmem).mp hc) (mt (eq_iff_of_mem_char hcall hmem).mp hc'), taken_zero]

/-- The answer `b` of a scan in front of the spelling of `cs` corresponds to the answer `a` in front of `cs`. -/
def Spells (w : Spelling) (cs : List Char) (a b : TokenKind × Nat) : Prop := b = (a.1, w.taken cs a.2)

namespace Spells

theorem pair {p p' : Prop} [Decidable p] [Decidable p'] (hp : p' ↔ p) {a a' b b' : TokenKind × Nat}
    (ha : p → Spells w cs a a') (hb : ¬p → Spells w cs b b') :
    Spells w cs (if p then a else b) (if p' then a' else b') := by
  by_cases h : p
  · rw [if_pos h, if_pos (hp.mpr h)]
    exact ha h
  · rw [if_neg h, if_neg (mt hp.mp h)]
    exact hb h

theorem single (kind : TokenKind) : Spells w cs (kind, 0) (kind, 0) := rfl

theorem length {kind : TokenKind} {m m' : Nat} (h : m' = w.taken cs m) : Spells w cs (kind, m) (kind, m') :=
  congrArg (Prod.mk kind) h

/-- One more mark, which is known to be there. -/
theorem succ {kind : TokenKind} {m m' : Nat} (hx : w.isMark x) (h : m' = w.taken cs m) :
    Spells w (x :: cs) (kind, m + 1) (kind, m' + 1) :=
  length (by rw [taken_cons_of_isMark hx, h])

end Spells

/-- A token of two marks, or of the first one alone. -/
theorem doubled_chars (hx : w.isMark x) (first second : TokenKind) (cs : List Char) :
    Spells w cs (if cs.head? = some x then (second, 1) else (first, 0))
      (if (w.chars cs).head? = some x then (second, 1) else (first, 0)) := by
  refine .pair (head?_chars hx) (fun h => ?_) fun _ => .single _
  obtain ⟨us, rfl⟩ := List.head?_eq_some_iff.mp h
  exact .succ hx taken_zero.symm

theorem scanAt_chars (cs : List Char) : Spells w cs (scanAt cs) (scanAt (w.chars cs)) := by
  cases cs with
  | nil => exact .single _
  | cons c cs =>
      obtain ⟨x, us, hx⟩ := List.exists_cons_of_ne_nil (char_ne_nil (w := w) (c := c))
      have hmem : x ∈ w.char c := hx ▸ List.mem_cons_self
      have hmark {y : Char} (hc : c = y) (hy : w.isMark y) : us = [] := by
        rw [hc, char_of_isMark hy] at hx
        exact (List.cons.inj hx).2.symm
      have hname : w.Respects fun d => Text.isAlphanumeric d || d = '_' || d = ':' :=
        ((respects_isAlphanumeric w).or (respects_eq w rfl)).or (respects_eq w rfl)
      have hstarts : w.Respects fun d => Text.isAlphanumeric d || d = '_' :=
        (respects_isAlphanumeric w).or (respects_eq w rfl)
      have hrun := runLength_chars hname (c :: cs)
      rw [chars_cons, hx, List.cons_append] at hrun ⊢
      unfold scanAt
      refine .pair (eq_iff_of_mem_char (isMark_of rfl) hmem) (fun hc => ?_) fun _ => ?_
      · rw [hc]
        exact .succ (isMark_of rfl) taken_zero.symm
      refine .pair (eq_iff_of_mem_char (isMark_of rfl) hmem) (fun hc => ?_) fun _ => ?_
      · rw [hc]
        exact .succ (isMark_of rfl) taken_zero.symm
      refine .pair (or_congr (eq_iff_of_mem_char (isMark_of rfl) hmem) (eq_iff_of_mem_char (isMark_of rfl) hmem))
        (fun hc => ?_) fun _ => ?_
      · have hquote (w : Spelling) : w.isMark c := by rcases hc with rfl | rfl <;> exact isMark_of rfl
        have hpart (w : Spelling) : ∀ y ∈ [c, '@'], w.isMark y := by
          intro y hy
          rcases List.mem_cons.mp hy with rfl | hy
          · exact hquote w
          · rw [List.mem_singleton.mp hy]
            exact isMark_of rfl
        obtain rfl := hmark rfl (hquote w)
        obtain rfl := (eq_iff_of_mem_char (hquote w) hmem).mpr rfl
        rw [List.nil_append, reach_feed_chars hpart]
        exact .succ (hquote w) rfl
      exact .pair (Bool.eq_iff_iff.mp (hstarts c x hmem)) (fun _ => .length hrun) fun _ => .single _

theorem scanDollar_chars (cs : List Char) : Spells w cs (scanDollar cs) (scanDollar (w.chars cs)) := by
  cases cs with
  | nil => exact .single _
  | cons c cs =>
      obtain ⟨x, us, hx⟩ := List.exists_cons_of_ne_nil (char_ne_nil (w := w) (c := c))
      have hmem : x ∈ w.char c := hx ▸ List.mem_cons_self
      have hbrace : w.isMark '\x7b' := isMark_of rfl
      have hrun := runLength_chars (respects_isVariableChar w) (c :: cs)
      rw [chars_cons, hx, List.cons_append] at hrun ⊢
      unfold scanDollar
      refine .pair (eq_iff_of_mem_char (isMark_of rfl) hmem) (fun hc => ?_) fun _ => ?_
      · rw [hc]
        exact .succ (isMark_of rfl) taken_zero.symm
      refine .pair (eq_iff_of_mem_char hbrace hmem) (fun hc => ?_) fun _ => ?_
      · rw [hc, char_of_isMark hbrace] at hx
        obtain ⟨-, rfl⟩ := List.cons.inj hx
        rw [hc, List.nil_append, reach_chars (List.cons_ne_nil _ _) (isMark_of_all rfl)]
        exact .succ hbrace rfl
      refine .pair (or_congr (eq_iff_of_mem_char (isMark_of rfl) hmem) (or_congr
        (eq_iff_of_mem_char (isMark_of rfl) hmem) (eq_iff_of_mem_char (isMark_of rfl) hmem)))
        (fun hc => ?_) fun _ => ?_
      · have hspecial : w.isMark c := by rcases hc with rfl | rfl | rfl <;> exact isMark_of rfl
        exact .succ hspecial taken_zero.symm
      exact .pair (by rw [respects_isVariableChar w c x hmem]) (fun _ => .length hrun) fun _ => .single _

theorem scanParameter_chars (cs : List Char) : Spells w cs (scanParameter cs) (scanParameter (w.chars cs)) := by
  have hname : w.Respects fun d => !isWordBreak d && d ≠ ':' && d ≠ '.' && d ≠ '[' :=
    (((respects_isWordBreak w).not.and (respects_ne w rfl)).and (respects_ne w rfl)).and (respects_ne w rfl)
  have hcolon : w.isMark ':' := isMark_of rfl
  unfold scanParameter
  dsimp only
  rw [runLength_chars hname, drop_chars]
  refine .pair (head?_chars hcolon) (fun h => .length ?_) fun _ => rfl
  obtain ⟨us, hus⟩ := List.head?_eq_some_iff.mp h
  rw [taken_add, hus, taken_cons_of_isMark hcolon, taken_zero]

theorem scanString_chars (hq : w.isMark q) (cs : List Char) :
    Spells w cs (scanString q cs) (scanString q (w.chars cs)) := by
  unfold scanString
  rw [quotedLength_chars hq]
  rfl

theorem head?_any_isLineEnd (h : cs.head?.any isLineEnd) : ∃ us, cs = '\n' :: us ∨ cs = '\r' :: us := by
  cases cs with
  | nil => cases h
  | cons c us =>
      have hc : c = '\n' ∨ c = '\r' := by simpa [isLineEnd] using h
      exact ⟨us, hc.imp (congrArg (· :: us)) (congrArg (· :: us))⟩

/-- A backtick cancels the line break behind it however the break is written. -/
theorem continuation_chars (h : w = .returns → '\r' ∉ cs) (hend : cs.head?.any isLineEnd) :
    Spells w cs (.whitespace, if ['\r', '\n'].isPrefixOf cs then 2 else 1)
      (.whitespace, if ['\r', '\n'].isPrefixOf (w.chars cs) then 2 else 1) := by
  obtain ⟨us, rfl | rfl⟩ := head?_any_isLineEnd hend
  · cases w <;> rfl
  · cases w with
    | returns => exact absurd List.mem_cons_self (h rfl)
    | folded =>
        have hbreak : ∀ x ∈ ['\r', '\n'], folded.isMark x := List.all_eq_true.mp rfl
        rw [Literal.isPrefixOf_chars hbreak]
        split_ifs with hprefix
        · exact .length (taken_of_isPrefixOf hbreak hprefix).symm
        · exact .length rfl

/-- A token that starts with a character which is spelled with a single one. -/
theorem scan_chars (h : w = .returns → '\r' ∉ c :: cs) (hd : w.char c = [d]) :
    Spells w cs (scan c cs) (scan d (w.chars cs)) := by
  have hmark {x : Char} (hx : x.isAlpha = false) : d = x ↔ c = x := eq_iff_of_char hx hd
  have hcs : w = .returns → '\r' ∉ cs := fun hw hmem => h hw (List.mem_cons_of_mem c hmem)
  unfold scan
  refine .pair (hmark rfl) (fun _ => .single _) fun _ => ?_
  refine .pair (hmark rfl) (fun hc => ?_) fun _ => ?_
  · have hfeed : w.isMark '\n' := by
      cases w with
      | folded => rfl
      | returns => exact absurd (hc ▸ List.mem_cons_self) (h rfl)
    have hdoubled := doubled_chars hfeed .newline .newline cs
    rwa [← apply_ite (Prod.mk TokenKind.newline), ← apply_ite (Prod.mk TokenKind.newline)] at hdoubled
  refine .pair (and_congr (hmark rfl) (Bool.eq_iff_iff.mp (any_head?_chars (respects_isLineEnd w) cs)))
    (fun hc => continuation_chars hcs hc.2) fun _ => ?_
  refine .pair (Bool.eq_iff_iff.mp ((respects_isBlank w).apply_eq hd))
    (fun _ => .length (runLength_chars ((respects_isBlank w).and (respects_isLineEnd w).not) cs)) fun _ => ?_
  refine .pair (hmark rfl) (fun _ => .length (runLength_chars (respects_isLineEnd w).not cs)) fun _ => ?_
  refine .pair (and_congr (hmark rfl) (head?_chars (isMark_of rfl))) (fun hc => ?_) fun _ => ?_
  · obtain ⟨us, rfl⟩ := List.head?_eq_some_iff.mp hc.2
    rw [chars_cons_of_isMark (isMark_of rfl), List.tail_cons, List.tail_cons,
      reach_chars (List.cons_ne_nil _ _) (isMark_of_all rfl)]
    exact .succ (isMark_of rfl) rfl
  iterate 6 refine .pair (hmark rfl) (fun _ => .single _) fun _ => ?_
  iterate 2 refine .pair (hmark rfl) (fun _ => doubled_chars (isMark_of rfl) _ _ cs) fun _ => ?_
  refine .pair (or_congr (hmark rfl) (hmark rfl)) (fun hc => ?_) fun _ => ?_
  · have hquote : w.isMark c := by rcases hc with rfl | rfl <;> exact isMark_of rfl
    obtain rfl : d = c := by
      rw [char_of_isMark hquote] at hd
      exact (List.singleton_inj.mp hd).symm
    exact scanString_chars hquote cs
  refine .pair (hmark rfl) (fun _ => scanAt_chars cs) fun _ => ?_
  refine .pair (hmark rfl) (fun _ => scanDollar_chars cs) fun _ => ?_
  refine .pair (hmark rfl) (fun _ => .length (typeLength_chars 1 cs)) fun _ => ?_
  refine .pair (hmark rfl) (fun _ => .length (redirectionTail_chars cs)) fun _ => ?_
  refine .pair (hmark rfl) (fun _ => .single _) fun _ => ?_
  refine .pair (and_congr (or_congr (hmark rfl) (Bool.eq_iff_iff.mp ((respects_isStream w).apply_eq hd)))
    (head?_chars (isMark_of rfl))) (fun hc => ?_) fun _ => ?_
  · obtain ⟨us, rfl⟩ := List.head?_eq_some_iff.mp hc.2
    rw [chars_cons_of_isMark (isMark_of rfl), List.tail_cons, List.tail_cons]
    exact .succ (isMark_of rfl) (redirectionTail_chars us)
  refine .pair ?_ (fun _ => scanParameter_chars cs) fun _ => ?_
  · have hname : w.Respects fun d => Text.isLetter d || d = '_' || d = '?' :=
      ((respects_isLetter w).or (respects_eq w rfl)).or (respects_eq w rfl)
    exact and_congr (Bool.eq_iff_iff.mp ((respects_isDash w).apply_eq hd))
      (Bool.eq_iff_iff.mp (any_head?_chars hname cs))
  refine .pair (Bool.eq_iff_iff.mp ((respects_isWordBreak w).apply_eq hd)) (fun _ => .single _) fun _ => ?_
  exact .length (runLength_chars (respects_isWordBreak w).not cs)

theorem scan_of_char (h : w = .returns → '\r' ∉ c :: cs) (hd : w.char c = d :: ds) :
    scan d (ds ++ w.chars cs) = ((scan c cs).1, ds.length + w.taken cs (scan c cs).2) := by
  rcases w.char_cases c with ⟨e, he⟩ | ⟨rfl, rfl⟩
  · rw [he] at hd
    cases hd
    rw [List.nil_append, scan_chars h he, List.length_nil, Nat.zero_add]
  · cases hd
    rfl

/-- The tokens of a text: the first one, and those behind it. -/
theorem tokensFrom_cons (offset : Nat) (c : Char) (cs : List Char) :
    tokensFrom 0 offset (c :: cs) = token offset c cs ::
      tokensFrom 0 (offset + utf8Len (c :: cs.take (scan c cs).2)) (cs.drop (scan c cs).2) := by
  have hle : (scan c cs).2 ≤ cs.length := (Fits.scanned c cs).length_le
  have hskip := tokensFrom_length_add 0 (offset + c.utf8Size) (cs.take (scan c cs).2) (cs.drop (scan c cs).2)
  rw [List.take_append_drop, List.length_take, Nat.min_eq_left hle, Nat.add_zero] at hskip
  rw [tokensFrom_zero_cons, hskip, add_utf8Len_cons]

end Lexer

namespace Spelling

variable {w : Spelling} {c d : Char} {us cs ds : List Char} {n m : Nat}

/-- Where the byte `n` of a text is in its spelling. What is put in stands in front of it. -/
def offset (w : Spelling) : List Char → Nat → Nat
  | [], n => n
  | c :: cs, n => if n < c.utf8Size then n else utf8Len (w.char c) + w.offset cs (n - c.utf8Size)

theorem offset_append (us cs : List Char) (n : Nat) :
    w.offset (us ++ cs) (utf8Len us + n) = utf8Len (w.chars us) + w.offset cs n := by
  induction us with
  | nil => rw [List.nil_append, chars_nil, String.utf8Len_nil, Nat.zero_add, Nat.zero_add]
  | cons u us ih =>
      have hsize : utf8Len (u :: us) + n = u.utf8Size + (utf8Len us + n) := by
        rw [String.utf8Len_cons]
        omega
      rw [List.cons_append, offset, hsize, if_neg (by omega), Nat.add_sub_cancel_left, ih, chars_cons,
        String.utf8Len_append, Nat.add_assoc]

theorem offset_utf8Len (us cs : List Char) : w.offset (us ++ cs) (utf8Len us) = utf8Len (w.chars us) := by
  have hzero : w.offset cs 0 = 0 := by
    cases cs with
    | nil => rfl
    | cons c cs => exact if_pos c.utf8Size_pos
  have h := w.offset_append us cs 0
  rwa [hzero, Nat.add_zero, Nat.add_zero] at h

theorem utf8Size_le (w : Spelling) (c : Char) : c.utf8Size ≤ utf8Len (w.char c) := by
  cases w with
  | folded =>
      show c.utf8Size ≤ utf8Len [c.toLower]
      rw [String.utf8Len_cons, String.utf8Len_nil, Nat.zero_add, Text.utf8Size_toLower]
  | returns =>
      rw [char]
      split_ifs with hc
      · rw [hc]
        decide
      · rw [String.utf8Len_cons]
        exact Nat.le_add_left _ _

theorem strictMono_offset (w : Spelling) (cs : List Char) : StrictMono (w.offset cs) := by
  induction cs with
  | nil => exact strictMono_id
  | cons c cs ih =>
      intro n m h
      have hsize := w.utf8Size_le c
      rw [offset, offset]
      split_ifs with hn hm hm
      · exact h
      · omega
      · omega
      · have := ih (show n - c.utf8Size < m - c.utf8Size by omega)
        omega

/-- Small letters stand where the capital ones stood. -/
theorem offset_folded (cs : List Char) (n : Nat) : folded.offset cs n = n := by
  induction cs generalizing n with
  | nil => rfl
  | cons c cs ih =>
      have hsize : utf8Len (folded.char c) = c.utf8Size := by
        show utf8Len [c.toLower] = _
        rw [String.utf8Len_cons, String.utf8Len_nil, Nat.zero_add, Text.utf8Size_toLower]
      rw [offset, ih, hsize]
      split_ifs
      · rfl
      · omega

/-- A token of a text in a spelling of the text. -/
def token (w : Spelling) (text : List Char) (t : Token) : Token :=
  ⟨t.kind, w.text t.text, w.offset text t.start⟩

/-- The first token of a text in a spelling, and what is behind it. -/
theorem token_chars (h : w = .returns → '\r' ∉ c :: cs) (hd : w.char c = d :: ds) (offset : Nat) :
    let head := c :: cs.take (Lexer.scan c cs).2
    let x := Lexer.scan d (ds ++ w.chars cs)
    Lexer.token offset d (ds ++ w.chars cs) = ⟨(Lexer.scan c cs).1, w.text (String.ofList head), offset⟩ ∧
      d :: (ds ++ w.chars cs).take x.2 = w.chars head ∧
      (ds ++ w.chars cs).drop x.2 = w.chars (cs.drop (Lexer.scan c cs).2) := by
  intro head x
  have hx : x = _ := Lexer.scan_of_char h hd
  have hhead : d :: (ds ++ w.chars cs).take x.2 = w.chars head := by
    rw [hx, List.take_length_add_append, take_chars, chars_cons, hd, List.cons_append]
  refine ⟨?_, hhead, ?_⟩
  · rw [Lexer.token, show Lexer.scan d (ds ++ w.chars cs) = x from rfl, hhead, ofList_chars, hx]
  · rw [hx, List.drop_length_add_append, drop_chars]

theorem tokensFrom_chars (h : w = .returns → '\r' ∉ cs) (us : List Char) :
    Lexer.tokensFrom 0 (utf8Len (w.chars us)) (w.chars cs) =
      (Lexer.tokensFrom 0 (utf8Len us) cs).map (w.token (us ++ cs)) := by
  induction hn : cs.length using Nat.strongRecOn generalizing us cs with
  | ind n ih =>
      cases cs with
      | nil => simp
      | cons c cs =>
          obtain ⟨d, ds, hd⟩ := List.exists_cons_of_ne_nil (char_ne_nil (w := w) (c := c))
          obtain ⟨htoken, hhead, hdrop⟩ := token_chars h hd (utf8Len (w.chars us))
          have hlt : (cs.drop (Lexer.scan c cs).2).length < n := by
            rw [← hn, List.length_drop, List.length_cons]
            omega
          have hreturn : w = .returns → '\r' ∉ cs.drop (Lexer.scan c cs).2 := fun hw hmem =>
            h hw (List.mem_cons_of_mem c (List.drop_subset _ _ hmem))
          have hsplit : us ++ c :: cs.take (Lexer.scan c cs).2 ++ cs.drop (Lexer.scan c cs).2 =
              us ++ c :: cs := by
            rw [List.append_assoc, List.cons_append, List.take_append_drop]
          have hrest := ih _ hlt hreturn (us ++ c :: cs.take (Lexer.scan c cs).2) rfl
          rw [hsplit, chars_append, String.utf8Len_append, String.utf8Len_append] at hrest
          rw [chars_cons, hd, List.cons_append, Lexer.tokensFrom_cons, Lexer.tokensFrom_cons, htoken, hhead,
            hdrop, hrest, List.map_cons, token, Lexer.token, offset_utf8Len]

/-- The tokens of a script in a spelling are its tokens, spelled. -/
theorem tokenize_text {source : String} (h : w = .returns → '\r' ∉ source.toList) :
    tokenize (w.text source) = (tokenize source).map (w.token source.toList) := by
  have htokens := tokensFrom_chars h []
  rwa [← Spelling.toList_text] at htokens

end Spelling

end ScriptLint
