import Mathlib.Data.List.Forall2
import ScriptLint.Proofs.Json.Decoration

/-!
Comments in any text, well-formed or not. A text divides into the characters of its code, its strings and
its comments; a string or a comment that is not closed takes the rest of it. Blanking the comments out
changes nothing else, and what is left holds no comment, so that a second pass changes nothing at all. No
character moves on the way to strict JSON, and no line feed comes or goes.
-/

namespace ScriptLint.Json

/-- A stretch of a text. -/
inductive Stretch
  | char (c : Char)
  | string (cs : List Char)
  | comment (cs : List Char)

namespace Stretch

def text : Stretch → List Char
  | char c => [c]
  | string cs | comment cs => cs

/-- What is left of the stretch without comments. -/
def blanked : Stretch → List Char
  | comment cs => cs.map blankOut
  | s => s.text

/-- The stretches of what is left: a comment becomes blanks. -/
def settled : Stretch → List Stretch
  | comment cs => cs.map fun c => char (blankOut c)
  | s => [s]

theorem not_comment_of_mem_settled {s t : Stretch} (h : t ∈ s.settled) (cs : List Char) :
    t ≠ comment cs := by
  cases s with
  | comment _ =>
      obtain ⟨c, -, rfl⟩ := List.mem_map.mp h
      exact Stretch.noConfusion
  | _ =>
      obtain rfl := List.mem_singleton.mp h
      exact Stretch.noConfusion

end Stretch

def OpensComment (cs : List Char) : Prop :=
  ['/', '/'] <+: cs ∨ ['/', '*'] <+: cs

/-- A string in front of `rest`. -/
inductive IsString : List Char → List Char → Prop
  | closed {body rest : List Char} : Token.Quoted body → IsString ('\x22' :: (body ++ ['\x22'])) rest
  | unclosed {body : List Char} : Token.Quoted body → IsString ('\x22' :: body) []
  /-- A string that breaks off behind a backslash. -/
  | escaping {body : List Char} : Token.Quoted body → IsString ('\x22' :: (body ++ ['\\'])) []

/-- A comment in front of `rest`. -/
inductive IsComment : List Char → List Char → Prop
  | line {body rest : List Char} : '\n' ∉ body → (rest = [] ∨ ∃ cs, rest = '\n' :: cs) →
      IsComment ('/' :: '/' :: body) rest
  | block {body rest : List Char} : ¬ ['*', '/'] <:+: body →
      IsComment ('/' :: '*' :: (body ++ ['*', '/'])) rest
  | unclosed {body : List Char} : ¬ ['*', '/'] <:+: body → IsComment ('/' :: '*' :: body) []

/-- The text is these stretches, one behind the other. -/
inductive Divides : List Char → List Stretch → Prop
  | nil : Divides [] []
  | char {c : Char} {cs : List Char} {ss : List Stretch} : c ≠ '\x22' → ¬ OpensComment (c :: cs) →
      Divides cs ss → Divides (c :: cs) (.char c :: ss)
  | string {s rest : List Char} {ss : List Stretch} : IsString s rest → Divides rest ss →
      Divides (s ++ rest) (.string s :: ss)
  | comment {s rest : List Char} {ss : List Stretch} : IsComment s rest → Divides rest ss →
      Divides (s ++ rest) (.comment s :: ss)

section Division

variable {c : Char} {cs s rest : List Char} {ss : List Stretch}

theorem opensComment_iff : OpensComment cs ↔ ∃ d rest, cs = '/' :: d :: rest ∧ (d = '/' ∨ d = '*') := by
  constructor
  · rintro (⟨rest, rfl⟩ | ⟨rest, rfl⟩)
    · exact ⟨_, rest, rfl, .inl rfl⟩
    · exact ⟨_, rest, rfl, .inr rfl⟩
  · rintro ⟨d, rest, rfl, rfl | rfl⟩
    · exact .inl ⟨rest, rfl⟩
    · exact .inr ⟨rest, rfl⟩

theorem blankComments_char (hquote : c ≠ '\x22') (hopens : ¬ OpensComment (c :: cs)) :
    blankCommentsFrom .code (c :: cs) = c :: blankCommentsFrom .code cs := by
  rw [opensComment_iff] at hopens
  rw [blankCommentsFrom, if_neg hquote]
  · rintro ds rfl rfl
    exact hopens ⟨_, ds, rfl, .inl rfl⟩
  · rintro ds rfl rfl
    exact hopens ⟨_, ds, rfl, .inr rfl⟩

theorem IsString.blankComments (h : IsString s rest) :
    blankCommentsFrom .code (s ++ rest) = s ++ blankCommentsFrom .code rest := by
  have hspares := blankComments_spares
  cases h with
  | closed hbody => exact hspares.quoted hbody rest
  | @unclosed body hbody =>
      rw [List.append_nil, hspares.opens, ← List.append_nil body, hspares.body hbody, List.append_nil]
      rfl
  | @escaping body hbody =>
      rw [List.append_nil, hspares.opens, hspares.body hbody]
      simp [blankCommentsFrom]

theorem IsComment.blankComments (h : IsComment s rest) :
    blankCommentsFrom .code (s ++ rest) = s.map blankOut ++ blankCommentsFrom .code rest := by
  cases h with
  | @line body rest hbody hrest =>
      rw [List.cons_append, List.cons_append, blankCommentsFrom, blankComments_line hbody]
      obtain rfl | ⟨cs, rfl⟩ := hrest
      · rfl
      · rfl
  | @block body rest hbody =>
      rw [List.cons_append, List.cons_append, blankCommentsFrom, List.append_assoc,
        blankComments_block hbody (by simp)]
      simp [blankCommentsFrom, blankOut]
  | @unclosed body hbody =>
      have hall : blankCommentsFrom .blockComment (body ++ []) = body.map blankOut ++ [] :=
        blankComments_block hbody (by simp)
      show ' ' :: ' ' :: blankCommentsFrom .blockComment (body ++ []) = _
      rw [hall]
      simp [blankCommentsFrom, blankOut]

/-- A pass blanks out the comments and nothing else. -/
theorem Divides.blankComments (h : Divides cs ss) :
    blankCommentsFrom .code cs = ss.flatMap Stretch.blanked := by
  induction h with
  | nil => rfl
  | char hquote hopens _ ih => exact (blankComments_char hquote hopens).trans (congrArg _ ih)
  | string hs _ ih => exact hs.blankComments.trans (congrArg _ ih)
  | comment hs _ ih => exact hs.blankComments.trans (congrArg _ ih)

theorem Divides.text_eq (h : Divides cs ss) : ss.flatMap Stretch.text = cs := by
  induction h with
  | nil => rfl
  | char _ _ _ ih | string _ _ ih | comment _ _ ih => exact congrArg _ ih

/-- A text without comments stays as it is. -/
theorem Divides.blankComments_eq (h : Divides cs ss) (hss : ∀ s ∈ ss, ∀ t, s ≠ .comment t) :
    blankCommentsFrom .code cs = cs := by
  have hsame : ∀ s ∈ ss, s.blanked = s.text := by
    intro s hs
    cases s with
    | comment t => exact absurd rfl (hss _ hs t)
    | _ => rfl
  rw [h.blankComments, List.flatMap_congr hsame, h.text_eq]

end Division

section Existence

/-- Behind a quotation mark the string goes on to the next one, or to the end of the text. -/
theorem exists_quoted (cs : List Char) :
    (∃ body rest, Token.Quoted body ∧ cs = body ++ '\x22' :: rest) ∨
      ∃ body, Token.Quoted body ∧ (cs = body ∨ cs = body ++ ['\\']) := by
  match cs with
  | [] => exact .inr ⟨[], .nil, .inl rfl⟩
  | c :: cs =>
    by_cases hquote : c = '\x22'
    · exact .inl ⟨[], cs, .nil, by rw [hquote]; rfl⟩
    by_cases hescape : c = '\\'
    · subst hescape
      match cs with
      | [] => exact .inr ⟨[], .nil, .inr rfl⟩
      | e :: cs =>
        obtain ⟨body, rest, hbody, rfl⟩ | ⟨body, hbody, rfl | rfl⟩ := exists_quoted cs
        · exact .inl ⟨_, rest, .escape e hbody, rfl⟩
        · exact .inr ⟨_, .escape e hbody, .inl rfl⟩
        · exact .inr ⟨_, .escape e hbody, .inr rfl⟩
    · obtain ⟨body, rest, hbody, rfl⟩ | ⟨body, hbody, rfl | rfl⟩ := exists_quoted cs
      · exact .inl ⟨_, rest, .char hescape hquote hbody, rfl⟩
      · exact .inr ⟨_, .char hescape hquote hbody, .inl rfl⟩
      · exact .inr ⟨_, .char hescape hquote hbody, .inr rfl⟩

/-- Behind its opening a comment between marks goes on to the next closing marks, or to the end. -/
theorem exists_block (cs : List Char) : ∃ body, ¬ ['*', '/'] <:+: body ∧
    (cs = body ∨ ∃ rest, cs = body ++ '*' :: '/' :: rest) := by
  induction cs with
  | nil => exact ⟨[], by simp, .inl rfl⟩
  | cons c cs ih =>
      by_cases hmarks : ['*', '/'] <+: c :: cs
      · obtain ⟨rest, hrest⟩ := hmarks
        exact ⟨[], by simp, .inr ⟨rest, hrest.symm⟩⟩
      · obtain ⟨body, hbody, hcs⟩ := ih
        refine ⟨c :: body, fun hinfix => ?_, ?_⟩
        · refine (List.infix_cons_iff.mp hinfix).elim (fun hprefix => hmarks ?_) hbody
          have hbodycs : body <+: cs := by
            obtain rfl | ⟨rest, rfl⟩ := hcs
            · exact List.prefix_rfl
            · exact List.prefix_append _ _
          exact hprefix.trans (List.cons_prefix_cons.mpr ⟨rfl, hbodycs⟩)
        · exact hcs.imp (congrArg _) fun ⟨rest, h⟩ => ⟨rest, congrArg _ h⟩

theorem exists_isString (cs : List Char) : ∃ s rest, '\x22' :: cs = s ++ rest ∧ IsString s rest := by
  obtain ⟨body, rest, hbody, rfl⟩ | ⟨body, hbody, rfl | rfl⟩ := exists_quoted cs
  · exact ⟨_, rest, by simp, .closed hbody⟩
  · exact ⟨_, [], by simp, .unclosed hbody⟩
  · exact ⟨_, [], by simp, .escaping hbody⟩

theorem exists_isComment {cs : List Char} (h : OpensComment cs) :
    ∃ s rest, cs = s ++ rest ∧ IsComment s rest := by
  obtain ⟨d, cs, rfl, rfl | rfl⟩ := opensComment_iff.mp h
  · by_cases hfeed : '\n' ∈ cs
    · obtain ⟨body, rest, rfl, hbody⟩ := List.eq_append_cons_of_mem hfeed
      exact ⟨_, _, by simp, .line hbody (.inr ⟨rest, rfl⟩)⟩
    · exact ⟨_, [], by simp, .line hfeed (.inl rfl)⟩
  · obtain ⟨body, hbody, rfl | ⟨rest, rfl⟩⟩ := exists_block cs
    · exact ⟨_, [], by simp, .unclosed hbody⟩
    · exact ⟨_, rest, by simp, .block hbody⟩

theorem IsString.length_pos {s rest : List Char} (h : IsString s rest) : 0 < s.length := by
  cases h <;> exact Nat.succ_pos _

theorem IsComment.length_pos {s rest : List Char} (h : IsComment s rest) : 0 < s.length := by
  cases h <;> exact Nat.succ_pos _

theorem length_lt_of_eq_append {cs s rest : List Char} (h : cs = s ++ rest) (hs : 0 < s.length) :
    rest.length < cs.length := by
  rw [h, List.length_append]
  exact Nat.lt_add_of_pos_left hs

/-- Every text divides into stretches. -/
theorem exists_divides (cs : List Char) : ∃ ss, Divides cs ss := by
  match cs with
  | [] => exact ⟨[], .nil⟩
  | c :: rest =>
    by_cases hquote : c = '\x22'
    · obtain ⟨s, behind, heq, hs⟩ := exists_isString rest
      have hlt : behind.length < rest.length + 1 := length_lt_of_eq_append heq hs.length_pos
      obtain ⟨ss, hss⟩ := exists_divides behind
      exact ⟨_, by rw [hquote, heq]; exact .string hs hss⟩
    by_cases hopens : OpensComment (c :: rest)
    · obtain ⟨s, behind, heq, hs⟩ := exists_isComment hopens
      have hlt : behind.length < rest.length + 1 := length_lt_of_eq_append heq hs.length_pos
      obtain ⟨ss, hss⟩ := exists_divides behind
      exact ⟨_, by rw [heq]; exact .comment hs hss⟩
    · obtain ⟨ss, hss⟩ := exists_divides rest
      exact ⟨_, .char hquote hopens hss⟩
termination_by cs.length

end Existence

section Settled

variable {cs s rest : List Char} {ss : List Stretch}

/-- What is left starts as the text did, or with a blank. -/
theorem Divides.head?_blanked (h : Divides cs ss) :
    (ss.flatMap Stretch.blanked).head? = cs.head? ∨ (ss.flatMap Stretch.blanked).head? = some ' ' := by
  cases h with
  | nil | char => exact .inl rfl
  | string hs => cases hs <;> exact .inl rfl
  | comment hs => cases hs <;> exact .inr rfl

/-- No comment opens in what is left where none did. -/
theorem Divides.not_opensComment {c : Char} (h : Divides cs ss) (hopens : ¬ OpensComment (c :: cs)) :
    ¬ OpensComment (c :: ss.flatMap Stretch.blanked) := by
  rw [opensComment_iff]
  rintro ⟨d, rest, heq, hd⟩
  obtain ⟨rfl, hblanked⟩ := List.cons.inj heq
  have hhead := h.head?_blanked
  rw [hblanked, List.head?_cons] at hhead
  rcases hhead with hhead | hhead
  · obtain ⟨tail, rfl⟩ := List.head?_eq_some_iff.mp hhead.symm
    exact hopens (opensComment_iff.mpr ⟨d, tail, rfl, hd⟩)
  · obtain rfl := Option.some.inj hhead
    exact absurd hd (by decide)

theorem IsString.of_nil (h : IsString s rest) {rest' : List Char} (hrest : rest = [] → rest' = []) :
    IsString s rest' := by
  cases h with
  | closed hbody => exact .closed hbody
  | unclosed hbody => exact hrest rfl ▸ .unclosed hbody
  | escaping hbody => exact hrest rfl ▸ .escaping hbody

theorem divides_blanks (body : List Char) (h : Divides cs ss) :
    Divides (body.map blankOut ++ cs) ((body.map fun c => .char (blankOut c)) ++ ss) := by
  induction body with
  | nil => exact h
  | cons c body ih =>
      have hblank := blankOut_isBlank c
      refine .char (Token.ne_of_class Token.isBlank hblank (by decide)) ?_ ih
      rw [opensComment_iff]
      rintro ⟨d, rest, heq, -⟩
      exact Token.ne_of_class Token.isBlank hblank (by decide) (List.cons.inj heq).1

/-- What is left divides into the same stretches, with blanks for the comments. -/
theorem Divides.settled (h : Divides cs ss) :
    Divides (ss.flatMap Stretch.blanked) (ss.flatMap Stretch.settled) := by
  induction h with
  | nil => exact .nil
  | char hquote hopens hrest ih => exact .char hquote (hrest.not_opensComment hopens) ih
  | string hs hrest ih =>
      refine .string (hs.of_nil ?_) ih
      rintro rfl
      exact hrest.blankComments.symm
  | @comment s _ _ _ _ ih => exact divides_blanks s ih

/-- A second pass finds no comment. -/
theorem blankComments_blankComments (cs : List Char) :
    blankCommentsFrom .code (blankCommentsFrom .code cs) = blankCommentsFrom .code cs := by
  obtain ⟨ss, hss⟩ := exists_divides cs
  rw [hss.blankComments]
  refine hss.settled.blankComments_eq fun s hs t => ?_
  obtain ⟨_, _, hs⟩ := List.mem_flatMap.mp hs
  exact Stretch.not_comment_of_mem_settled hs t

end Settled

section Positions

/-- A character that stays, or makes room for a blank; a line feed stays. -/
def Keeps (c d : Char) : Prop := d = c ∨ c ≠ '\n' ∧ d = ' '

theorem Keeps.refl (c : Char) : Keeps c c := .inl rfl

theorem Keeps.trans {c d e : Char} (h : Keeps c d) (h' : Keeps d e) : Keeps c e := by
  obtain rfl | ⟨hc, rfl⟩ := h
  · exact h'
  · obtain rfl | ⟨-, rfl⟩ := h' <;> exact .inr ⟨hc, rfl⟩

theorem Keeps.feed_iff {c d : Char} (h : Keeps c d) : d = '\n' ↔ c = '\n' := by
  obtain rfl | ⟨hc, rfl⟩ := h
  · rfl
  · exact iff_of_false (by decide) hc

theorem keeps_blankOut (c : Char) : Keeps c (blankOut c) := by
  unfold blankOut
  split
  case isTrue h => exact .inl h.symm
  case isFalse h => exact .inr ⟨h, rfl⟩

theorem blankComments_keeps (region : Region) (cs : List Char) :
    List.Forall₂ Keeps cs (blankCommentsFrom region cs) := by
  fun_induction blankCommentsFrom region cs with
  | case1 => exact .nil
  | case2 cs ih | case3 cs ih | case8 cs ih =>
      exact .cons (.inr ⟨by decide, rfl⟩) (.cons (.inr ⟨by decide, rfl⟩) ih)
  | case4 c cs _ _ ih | case5 c cs ih | case6 c cs ih => exact .cons (.refl c) ih
  | case7 c cs ih | case9 c cs _ ih => exact .cons (keeps_blankOut c) ih

theorem blankCommas_keeps (region : Region) (cs : List Char) :
    List.Forall₂ Keeps cs (blankCommasFrom region cs) := by
  fun_induction blankCommasFrom region cs with
  | case1 => exact .nil
  | case2 c cs ih | case3 c cs ih => exact .cons (.refl c) ih
  | case4 region cs _ _ ih => exact .cons (.refl _) ih
  | case5 region c cs _ _ _ ih =>
      refine .cons ?_ ih
      split
      case isTrue hcomma => exact .inr ⟨by rw [hcomma.1]; decide, rfl⟩
      case isFalse => exact .refl c

theorem keeps_trans {cs ds es : List Char} (h : List.Forall₂ Keeps cs ds) (h' : List.Forall₂ Keeps ds es) :
    List.Forall₂ Keeps cs es := by
  induction h generalizing es with
  | nil => exact h'
  | cons hcd _ ih =>
      cases h' with
      | cons hde hrest => exact .cons (hcd.trans hde) (ih hrest)

/-- The text `out` has the characters of `text` in their places, but for blanks: its line feeds are those of
`text`, and any other character of it is that of `text` or a blank. -/
structure InPlace (text out : String) : Prop where
  length_eq : out.length = text.length
  feed_iff : ∀ i : Nat, out.toList[i]? = some '\n' ↔ text.toList[i]? = some '\n'
  kept : ∀ i : Nat, out.toList[i]? = text.toList[i]? ∨ out.toList[i]? = some ' '

theorem inPlace_of_keeps {text out : String} (h : List.Forall₂ Keeps text.toList out.toList) :
    InPlace text out := by
  have hlength := h.length_eq
  have hchar (i : Nat) : text.toList[i]? = none ∧ out.toList[i]? = none ∨
      ∃ c d, text.toList[i]? = some c ∧ out.toList[i]? = some d ∧ Keeps c d := by
    by_cases hi : i < text.toList.length
    · have hi' : i < out.toList.length := hlength ▸ hi
      exact .inr ⟨_, _, List.getElem?_eq_getElem hi, List.getElem?_eq_getElem hi', h.get hi hi'⟩
    · have hi := Nat.le_of_not_lt hi
      exact .inl ⟨List.getElem?_eq_none hi, List.getElem?_eq_none (hlength ▸ hi)⟩
  refine ⟨hlength.symm, fun i => ?_, fun i => ?_⟩
  · obtain ⟨htext, hout⟩ | ⟨c, d, htext, hout, hkeeps⟩ := hchar i
    · rw [htext, hout]
    · rw [htext, hout, Option.some_inj, Option.some_inj]
      exact hkeeps.feed_iff
  · obtain ⟨htext, hout⟩ | ⟨c, d, htext, hout, rfl | ⟨-, rfl⟩⟩ := hchar i
    · exact .inl (hout.trans htext.symm)
    · exact .inl (hout.trans htext.symm)
    · exact .inr hout

end Positions

/-- Every text, well-formed or not, keeps its positions on the way to strict JSON: none is added or taken away,
its line feeds stay where they are, and what else changes becomes a blank. The first pass is done at once. It
changes nothing but comments: the text divides into characters of code, strings and comments, and in whichever
way it does, the comments become blanks and all else stays. -/
theorem undecorate_keeps_positions (text : String) :
    InPlace text (blankComments text) ∧ InPlace text (undecorate text) ∧
      blankComments (blankComments text) = blankComments text ∧
      (∃ ss, Divides text.toList ss) ∧
      ∀ ss, Divides text.toList ss →
        text.toList = ss.flatMap Stretch.text ∧ (blankComments text).toList = ss.flatMap Stretch.blanked := by
  have hcomments := blankComments_keeps .code text.toList
  refine ⟨inPlace_of_keeps ?_, inPlace_of_keeps ?_, ?_, exists_divides _, fun ss h => ⟨h.text_eq.symm, ?_⟩⟩
  · rw [blankComments, String.toList_ofList]
    exact hcomments
  · rw [toList_undecorate]
    exact keeps_trans hcomments (blankCommas_keeps _ _)
  · rw [blankComments, blankComments, String.toList_ofList, blankComments_blankComments]
  · rw [blankComments, String.toList_ofList, h.blankComments]

end ScriptLint.Json
