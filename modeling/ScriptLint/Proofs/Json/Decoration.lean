import Mathlib.Data.List.Chain
import ScriptLint.Json.Comments
import ScriptLint.Proofs.Json.Token

/-!
JSON with comments and trailing commas, against the tokens that it was written from. A text lays its
tokens out with gaps between them. The first pass makes blanks of the gaps, the second one of the commas
before the end of a container, and neither touches a token: both see the same strings in the text. What
is left has the tokens it was written from, because no two neighbours in a document run into each other.
-/

namespace ScriptLint.Json

/-- What may stand between two tokens: blanks, comments up to the end of their line, and comments
between marks. -/
inductive Gap : List Char → Prop
  | nil : Gap []
  | blank {c : Char} {g : List Char} (hc : Token.isBlank c = true) : Gap g → Gap (c :: g)
  | line {body g : List Char} (hbody : '\n' ∉ body) : Gap g → Gap ('/' :: '/' :: (body ++ '\n' :: g))
  | block {body g : List Char} (hbody : ¬ ['*', '/'] <:+: body) :
      Gap g → Gap ('/' :: '*' :: (body ++ '*' :: '/' :: g))

/-- There is nothing but blanks. -/
def Blanks (g : List Char) : Prop :=
  ∀ c ∈ g, Token.isBlank c = true

/-- The token ends a container. -/
def Token.Closes (t : Token) : Prop :=
  t = .closeBrace ∨ t = .closeBracket

/-- The tokens are written down with gaps between and around them, and with a comma more in front of
some that end a container, if that is allowed. -/
inductive Laid (gap : List Char → Prop) (trailing : Prop) : List Token → List Char → Prop
  | ends {g : List Char} (hg : gap g) : Laid gap trailing [] g
  | token {t : Token} {ts : List Token} {g rest : List Char} (hg : gap g) :
      Laid gap trailing ts rest → Laid gap trailing (t :: ts) (g ++ (t.written ++ rest))
  | closing {t : Token} {ts : List Token} {g g' rest : List Char} (htrailing : trailing)
      (ht : t.Closes) (hg : gap g) (hg' : gap g') :
      Laid gap trailing ts rest → Laid gap trailing (t :: ts) (g ++ ',' :: (g' ++ (t.written ++ rest)))

theorem Blanks.append {b b' : List Char} (h : Blanks b) (h' : Blanks b') : Blanks (b ++ b') :=
  fun c hc => (List.mem_append.mp hc).elim (h c) (h' c)

theorem Blanks.cons {c : Char} {b : List Char} (hc : Token.isBlank c = true) (h : Blanks b) :
    Blanks (c :: b) :=
  List.forall_mem_cons.mpr ⟨hc, h⟩

/-- A pass over a text that leaves its strings as they are, and every character but one elsewhere. -/
structure Spares (pass : Region → List Char → List Char) (mark : Char) : Prop where
  nil : pass .code [] = []
  char : ∀ {c cs}, c ≠ mark → c ≠ '\x22' → pass .code (c :: cs) = c :: pass .code cs
  opens : ∀ cs, pass .code ('\x22' :: cs) = '\x22' :: pass .string cs
  inside : ∀ {c cs}, c ≠ '\\' → c ≠ '\x22' → pass .string (c :: cs) = c :: pass .string cs
  escape : ∀ c cs, pass .string ('\\' :: c :: cs) = '\\' :: c :: pass .string cs
  closes : ∀ cs, pass .string ('\x22' :: cs) = '\x22' :: pass .code cs

namespace Spares

variable {pass : Region → List Char → List Char} {mark : Char}

theorem word (h : Spares pass mark) {word : List Char} (hword : ∀ c ∈ word, c ≠ mark ∧ c ≠ '\x22')
    (rest : List Char) : pass .code (word ++ rest) = word ++ pass .code rest := by
  induction word with
  | nil => rfl
  | cons c word ih =>
      obtain ⟨⟨hmark, hquote⟩, hword⟩ := List.forall_mem_cons.mp hword
      rw [List.cons_append, h.char hmark hquote, ih hword, List.cons_append]

theorem body (h : Spares pass mark) {body : List Char} (hbody : Token.Quoted body) (rest : List Char) :
    pass .string (body ++ rest) = body ++ pass .string rest := by
  induction hbody with
  | nil => rfl
  | char hescape hquote _ ih => rw [List.cons_append, h.inside hescape hquote, ih, List.cons_append]
  | escape e _ ih => rw [List.cons_append, List.cons_append, h.escape, ih]; rfl

theorem quoted (h : Spares pass mark) {body : List Char} (hbody : Token.Quoted body)
    (rest : List Char) :
    pass .code (('\x22' :: (body ++ ['\x22'])) ++ rest) =
      ('\x22' :: (body ++ ['\x22'])) ++ pass .code rest := by
  rw [List.cons_append, h.opens, List.append_assoc, List.singleton_append, h.body hbody, h.closes,
    List.cons_append, List.append_assoc, List.singleton_append]

theorem blanks (h : Spares pass mark) (hmark : Token.isBlank mark = false) {b : List Char}
    (hb : Blanks b) (rest : List Char) : pass .code (b ++ rest) = b ++ pass .code rest :=
  h.word (fun c hc => ⟨Token.ne_of_class Token.isBlank (hb c hc) hmark,
    Token.ne_of_class Token.isBlank (hb c hc) (by decide)⟩) rest

/-- A token stays as it is, but for a comma that the pass looks at. -/
theorem token (h : Spares pass mark) (hmark : mark = '/' ∨ mark = ',') {t : Token} (ht : t.Sound)
    (hcomma : t = .comma → mark = '/') (rest : List Char) :
    pass .code (t.written ++ rest) = t.written ++ pass .code rest := by
  have hword {word : List Char} (hword : word.all fun c => c ≠ '/' ∧ c ≠ ',' ∧ c ≠ '\x22') :
      pass .code (word ++ rest) = word ++ pass .code rest := by
    refine h.word (fun c hc => ?_) rest
    obtain ⟨hslash, hcomma, hquote⟩ := of_decide_eq_true (List.all_eq_true.mp hword c hc)
    exact ⟨hmark.elim (· ▸ hslash) (· ▸ hcomma), hquote⟩
  cases t with
  | string body => exact h.quoted ht rest
  | number literal =>
      exact hword (List.all_eq_true.mpr fun c hc => decide_eq_true
        ⟨Token.ne_of_class Token.isNumeral (ht.2 c hc) (by decide),
          Token.ne_of_class Token.isNumeral (ht.2 c hc) (by decide),
          Token.ne_of_class Token.isNumeral (ht.2 c hc) (by decide)⟩)
  | comma =>
      obtain rfl := hcomma rfl
      exact h.word (List.forall_mem_singleton.mpr ⟨by decide, by decide⟩) rest
  | bool value => cases value <;> exact hword rfl
  | _ => exact hword rfl

end Spares

section Comments

theorem blankComments_spares : Spares blankCommentsFrom '/' where
  nil := rfl
  char hmark hquote := by
    rw [blankCommentsFrom, if_neg hquote]
    · exact fun _ hc => absurd hc hmark
    · exact fun _ hc => absurd hc hmark
  opens _ := rfl
  inside hescape hquote := by rw [blankCommentsFrom, if_neg hescape, if_neg hquote]
  escape _ _ := by rw [blankCommentsFrom, if_pos rfl, blankCommentsFrom]
  closes _ := rfl

theorem blankOut_isBlank (c : Char) : Token.isBlank (blankOut c) = true := by
  unfold blankOut
  split <;> rfl

theorem blankComments_line {body : List Char} (h : '\n' ∉ body) (rest : List Char) :
    blankCommentsFrom .lineComment (body ++ rest) =
      body.map blankOut ++ blankCommentsFrom .lineComment rest := by
  induction body with
  | nil => rfl
  | cons c body ih =>
      have hc : c ≠ '\n' := fun hc => h (hc ▸ List.mem_cons_self)
      rw [List.cons_append, blankComments_inLine, if_neg hc,
        ih fun hmem => h (List.mem_cons_of_mem c hmem)]
      rfl

theorem blankComments_block {body : List Char} (h : ¬ ['*', '/'] <:+: body) {rest : List Char}
    (hrest : rest.head? ≠ some '/') :
    blankCommentsFrom .blockComment (body ++ rest) =
      body.map blankOut ++ blankCommentsFrom .blockComment rest := by
  induction body with
  | nil => rfl
  | cons c body ih =>
      have hnext : ∀ cs, c = '*' → body ++ rest = '/' :: cs → False := by
        rintro cs rfl heq
        cases body with
        | nil =>
            rw [List.nil_append] at heq
            exact hrest (heq ▸ rfl)
        | cons d body =>
            obtain ⟨rfl, -⟩ := List.cons.inj heq
            exact h ⟨[], body, rfl⟩
      have hbody : ¬ ['*', '/'] <:+: body := fun hmarks =>
        h (hmarks.trans (List.suffix_cons c body).isInfix)
      rw [List.cons_append, blankCommentsFrom, ih hbody]
      · rfl
      · exact hnext

theorem blanks_map_blankOut (body : List Char) : Blanks (body.map blankOut) :=
  List.forall_mem_map.mpr fun c _ => blankOut_isBlank c

/-- A gap becomes blanks. -/
theorem Gap.blankComments {g : List Char} (h : Gap g) :
    ∃ b, Blanks b ∧ ∀ rest,
      blankCommentsFrom .code (g ++ rest) = b ++ blankCommentsFrom .code rest := by
  induction h with
  | nil => exact ⟨[], nofun, fun _ => rfl⟩
  | @blank c g hc _ ih =>
      obtain ⟨b, hb, heq⟩ := ih
      refine ⟨c :: b, hb.cons hc, fun rest => ?_⟩
      rw [List.cons_append, blankComments_spares.char (Token.ne_of_class Token.isBlank hc (by decide))
        (Token.ne_of_class Token.isBlank hc (by decide)), heq, List.cons_append]
  | @line body g hbody _ ih =>
      obtain ⟨b, hb, heq⟩ := ih
      refine ⟨' ' :: ' ' :: (body.map blankOut ++ '\n' :: b),
        .cons rfl (.cons rfl ((blanks_map_blankOut body).append (hb.cons rfl))), fun rest => ?_⟩
      simp only [List.cons_append, List.append_assoc]
      rw [blankComments_opensLine, blankComments_line hbody, blankComments_inLine, if_pos rfl, heq]
      rfl
  | @block body g hbody _ ih =>
      obtain ⟨b, hb, heq⟩ := ih
      refine ⟨' ' :: ' ' :: (body.map blankOut ++ ' ' :: ' ' :: b),
        .cons rfl (.cons rfl ((blanks_map_blankOut body).append (.cons rfl (hb.cons rfl)))),
        fun rest => ?_⟩
      simp only [List.cons_append, List.append_assoc]
      rw [blankComments_opensBlock, blankComments_block hbody (by simp), blankComments_closesBlock, heq]

variable {ts : List Token} {cs : List Char}

/-- Without its comments a text is laid out with blanks alone. -/
theorem Laid.blankComments {trailing : Prop} (h : Laid Gap trailing ts cs) (hts : ∀ t ∈ ts, t.Sound) :
    Laid Blanks trailing ts (blankCommentsFrom .code cs) := by
  induction h with
  | ends hg =>
      obtain ⟨b, hb, heq⟩ := hg.blankComments
      have hall := heq []
      rw [List.append_nil, blankComments_spares.nil, List.append_nil] at hall
      rw [hall]
      exact .ends hb
  | token hg _ ih =>
      obtain ⟨hsound, hts⟩ := List.forall_mem_cons.mp hts
      obtain ⟨b, hb, heq⟩ := hg.blankComments
      rw [heq, blankComments_spares.token (.inl rfl) hsound fun _ => rfl]
      exact .token hb (ih hts)
  | @closing t ts g g' rest htrailing ht hg hg' _ ih =>
      obtain ⟨hsound, hts⟩ := List.forall_mem_cons.mp hts
      obtain ⟨b, hb, heq⟩ := hg.blankComments
      obtain ⟨b', hb', heq'⟩ := hg'.blankComments
      rw [heq, blankComments_spares.char (by decide) (by decide), heq',
        blankComments_spares.token (.inl rfl) hsound fun _ => rfl]
      exact .closing htrailing ht hb hb' (ih hts)

theorem Laid.blankComments_eq (h : Laid Blanks False ts cs) (hts : ∀ t ∈ ts, t.Sound) :
    blankCommentsFrom .code cs = cs := by
  induction h with
  | @ends g hg =>
      have hall := blankComments_spares.blanks (by decide) hg []
      rwa [List.append_nil, blankComments_spares.nil, List.append_nil] at hall
  | token hg _ ih =>
      obtain ⟨hsound, hts⟩ := List.forall_mem_cons.mp hts
      rw [blankComments_spares.blanks (by decide) hg,
        blankComments_spares.token (.inl rfl) hsound fun _ => rfl, ih hts]
  | closing h => exact h.elim

end Comments

section Commas

namespace Token

theorem textBlank_of_isBlank {c : Char} (h : isBlank c = true) : Text.isBlank c = true := by
  simp only [isBlank, Bool.or_eq_true, decide_eq_true_eq] at h
  rcases h with ((rfl | rfl) | rfl) | rfl <;> decide

theorem not_textBlank_of_isNumeral {c : Char} (h : isNumeral c = true) : Text.isBlank c = false := by
  rcases Bool.or_eq_true_iff.mp h with hdigit | hmark
  · have hbounds : 48 ≤ c.toNat ∧ c.toNat ≤ 57 := by
      simpa [Char.isDigit, UInt32.le_iff_toNat_le] using hdigit
    simp only [Text.isBlank, Bool.or_eq_false_iff, Bool.and_eq_false_iff, decide_eq_false_iff_not]
    omega
  · have hmem := of_decide_eq_true hmark
    simp only [List.mem_cons, List.not_mem_nil, or_false] at hmem
    rcases hmem with rfl | rfl | rfl | rfl | rfl <;> decide

/-- The first character of a token tells those that end a container, and only numbers start like one. -/
theorem Sound.head {t : Token} (h : t.Sound) : ∃ c word, t.written = c :: word ∧
    Text.isBlank c = false ∧ (c = '}' ∨ c = ']' ↔ t.Closes) ∧
      (isNumeral c = true → ∃ literal, t = number literal) := by
  cases t with
  | number literal =>
      obtain ⟨c, word, rfl⟩ := List.exists_cons_of_ne_nil h.1
      have hc := h.2 c List.mem_cons_self
      refine ⟨c, word, rfl, not_textBlank_of_isNumeral hc, iff_of_false ?_ ?_, fun _ => ⟨_, rfl⟩⟩
      · exact not_or.mpr ⟨ne_of_class isNumeral hc (by decide), ne_of_class isNumeral hc (by decide)⟩
      · exact not_or.mpr ⟨nofun, nofun⟩
  | string body => exact ⟨_, _, rfl, by decide, by simp [Closes], fun h => absurd h (by decide)⟩
  | bool value =>
      cases value <;> exact ⟨_, _, rfl, by decide, by simp [Closes], fun h => absurd h (by decide)⟩
  | _ => exact ⟨_, _, rfl, by decide, by simp [Closes], fun h => absurd h (by decide)⟩

end Token

theorem Blanks.closesNext_append {b : List Char} (h : Blanks b) (rest : List Char) :
    closesNext (b ++ rest) = closesNext rest := by
  have hnone : b.find? (!Text.isBlank ·) = none := by
    rw [List.find?_eq_none]
    intro c hc
    simp [Token.textBlank_of_isBlank (h c hc)]
  rw [closesNext, List.find?_append, hnone, Option.none_or, closesNext]

theorem Token.Sound.closesNext_iff {t : Token} (h : t.Sound) (rest : List Char) :
    closesNext (t.written ++ rest) = true ↔ t.Closes := by
  obtain ⟨c, word, hwritten, hblank, hcloses, -⟩ := h.head
  have hfind : ((c :: word) ++ rest).find? (!Text.isBlank ·) = some c :=
    List.find?_cons_of_pos (by simp [hblank])
  rw [closesNext, hwritten, hfind, ← hcloses, Option.any_some, Bool.or_eq_true, decide_eq_true_iff,
    decide_eq_true_iff]

/-- Behind a comma that stays, the next token does not end a container. -/
theorem Laid.closesNext_eq {trailing : Prop} {ts : List Token} {cs : List Char}
    (h : Laid Blanks trailing ts cs) (hts : ∀ t ∈ ts, t.Sound) (hhead : ∀ t ∈ ts.head?, ¬ t.Closes) :
    closesNext cs = false := by
  cases h with
  | ends hg =>
      have hall := hg.closesNext_append []
      rwa [List.append_nil] at hall
  | token hg _ =>
      obtain ⟨hsound, -⟩ := List.forall_mem_cons.mp hts
      rw [hg.closesNext_append, Bool.eq_false_iff, Ne, hsound.closesNext_iff]
      exact hhead _ rfl
  | closing _ ht _ _ _ => exact absurd ht (hhead _ rfl)

theorem blankCommas_spares : Spares blankCommasFrom ',' where
  nil := rfl
  char {c cs} hmark hquote := by
    rw [blankCommas_code, if_neg hquote, if_neg fun h => hmark h.1]
  opens _ := rfl
  inside hescape hquote := by rw [blankCommasFrom, if_neg hescape, if_neg hquote]
  escape _ _ := rfl
  closes _ := rfl

theorem blankCommas_comma (rest : List Char) : blankCommasFrom .code (',' :: rest) =
    (if closesNext rest then ' ' else ',') :: blankCommasFrom .code rest := by
  rw [blankCommas_code, if_neg (by decide)]
  simp only [true_and]

/-- Two tokens that may stand next to each other in a document: a comma goes before no end of a
container, and no number before another one. -/
def Token.Precedes (t u : Token) : Prop :=
  (t = .comma → ¬ u.Closes) ∧ ∀ literal, t = .number literal → ∀ other, u ≠ .number other

variable {t : Token} {ts : List Token} {cs : List Char}

/-- A token that is laid out stays as it is: a comma is not in front of the end of a container. -/
theorem Laid.blankCommas_token {trailing : Prop} (h : Laid Blanks trailing ts cs)
    (hts : ∀ u ∈ t :: ts, u.Sound) (hchain : (t :: ts).IsChain Token.Precedes) :
    blankCommasFrom .code (t.written ++ cs) = t.written ++ blankCommasFrom .code cs := by
  obtain ⟨hsound, hts⟩ := List.forall_mem_cons.mp hts
  by_cases ht : t = .comma
  · have hstays := h.closesNext_eq hts fun u hu => ((List.isChain_cons.mp hchain).1 u hu).1 ht
    rw [ht]
    exact (blankCommas_comma cs).trans (by rw [hstays]; rfl)
  · exact blankCommas_spares.token (.inr rfl) hsound (fun h => absurd h ht) cs

theorem Laid.blankCommas {trailing : Prop} (h : Laid Blanks trailing ts cs)
    (hts : ∀ t ∈ ts, t.Sound) (hchain : ts.IsChain Token.Precedes) :
    Laid Blanks False ts (blankCommasFrom .code cs) := by
  induction h with
  | @ends g hg =>
      have hall := blankCommas_spares.blanks (by decide) hg []
      rw [List.append_nil, blankCommas_spares.nil, List.append_nil] at hall
      rw [hall]
      exact .ends hg
  | token hg hrest ih =>
      rw [blankCommas_spares.blanks (by decide) hg, hrest.blankCommas_token hts hchain]
      exact .token hg (ih (List.forall_mem_cons.mp hts).2 hchain.tail)
  | @closing t ts g g' rest _ ht hg hg' hrest ih =>
      obtain ⟨hsound, hts'⟩ := List.forall_mem_cons.mp hts
      have hgoes : closesNext (g' ++ (t.written ++ rest)) = true := by
        rw [hg'.closesNext_append, hsound.closesNext_iff]
        exact ht
      have hb := hg.append (hg'.cons (c := ' ') rfl)
      have hnext := (ih hts' hchain.tail).token (t := t) hb
      rw [List.append_assoc, List.cons_append] at hnext
      rw [blankCommas_spares.blanks (by decide) hg, blankCommas_comma, if_pos hgoes,
        blankCommas_spares.blanks (by decide) hg', hrest.blankCommas_token hts hchain]
      exact hnext

theorem Laid.blankCommas_eq (h : Laid Blanks False ts cs) (hts : ∀ t ∈ ts, t.Sound)
    (hchain : ts.IsChain Token.Precedes) : blankCommasFrom .code cs = cs := by
  induction h with
  | @ends g hg =>
      have hall := blankCommas_spares.blanks (by decide) hg []
      rwa [List.append_nil, blankCommas_spares.nil, List.append_nil] at hall
  | token hg hrest ih =>
      rw [blankCommas_spares.blanks (by decide) hg, hrest.blankCommas_token hts hchain,
        ih (List.forall_mem_cons.mp hts).2 hchain.tail]
  | closing h => exact h.elim

end Commas

section Documents

/-- A comma is followed by a value or a name. -/
theorem step_comma {frames frames' : List Frame} {e e' : Expected}
    (h : step frames e .comma = some (frames', e')) : e' = .value ∨ ∃ done, e' = .name done := by
  cases e with
  | value | itemOrEnd | name | nameOrEnd | colon => cases h
  | after v =>
      rcases frames with _ | ⟨⟨done⟩ | ⟨done, name⟩, frames⟩
      · cases h
      · cases h
        exact .inl rfl
      · cases h
        exact .inr ⟨_, rfl⟩

/-- A number completes a value, and is not read where one has been completed. -/
theorem step_number {frames frames' : List Frame} {e e' : Expected} {literal : List Char}
    (h : step frames e (.number literal) = some (frames', e')) :
    (∀ v, e ≠ .after v) ∧ ∃ v, e' = .after v := by
  cases e with
  | value | itemOrEnd =>
      cases h
      exact ⟨nofun, _, rfl⟩
  | name | nameOrEnd | colon => cases h
  | after v => rcases frames with _ | ⟨⟨done⟩ | ⟨done, name⟩, frames⟩ <;> cases h

theorem isChain_of_readFrom {ts : List Token} {frames : List Frame} {e : Expected} {v : Json}
    (h : readFrom frames e ts = some v) : ts.IsChain Token.Precedes := by
  induction ts generalizing frames e with
  | nil => exact .nil
  | cons t ts ih =>
      obtain ⟨⟨frames', e'⟩, hstep, hrest⟩ := Option.bind_eq_some_iff.mp h
      refine List.isChain_cons.mpr ⟨fun u hu => ?_, ih hrest⟩
      obtain ⟨us, rfl⟩ := List.head?_eq_some_iff.mp hu
      obtain ⟨⟨frames'', e''⟩, hnext, -⟩ := Option.bind_eq_some_iff.mp hrest
      refine ⟨?_, ?_⟩
      · rintro rfl (rfl | rfl)
        · rcases step_comma hstep with rfl | ⟨done, rfl⟩ <;> cases hnext
        · rcases step_comma hstep with rfl | ⟨done, rfl⟩ <;> cases hnext
      · rintro literal rfl other rfl
        obtain ⟨-, v, rfl⟩ := step_number hstep
        exact (step_number hnext).1 v rfl

end Documents

section Tokens

/-- The token is read as itself when it stands alone. -/
def Token.Valid (t : Token) : Prop :=
  tokens? t.written = some [t]

namespace Token

theorem tokensFrom?_skip (word rest : List Char) :
    tokensFrom? word.length (word ++ rest) = tokensFrom? 0 rest := by
  induction word with
  | nil => rfl
  | cons c word ih => exact ih

theorem tokensFrom?_blanks {b : List Char} (hb : Blanks b) (rest : List Char) :
    tokensFrom? 0 (b ++ rest) = tokensFrom? 0 rest := by
  induction b with
  | nil => rfl
  | cons c b ih =>
      obtain ⟨hc, hb⟩ := List.forall_mem_cons.mp hb
      rw [List.cons_append, tokensFrom?, if_pos hc, ih hb]

theorem tokensFrom?_eq_some {c : Char} (hc : isBlank c = false) {cs : List Char} {ts : List Token} :
    tokensFrom? 0 (c :: cs) = some ts ↔ ∃ t n us, scan? c cs = some (t, n) ∧
      tokensFrom? n cs = some us ∧ ts = t :: us := by
  rw [tokensFrom?, if_neg (by simp [hc])]
  constructor
  · intro h
    obtain ⟨⟨t, n⟩, hscan, h⟩ := Option.bind_eq_some_iff.mp h
    obtain ⟨us, hus, h⟩ := Option.bind_eq_some_iff.mp h
    exact ⟨t, n, us, hscan, hus, (Option.some.inj h).symm⟩
  · rintro ⟨t, n, us, hscan, hus, rfl⟩
    exact Option.bind_eq_some_iff.mpr
      ⟨(t, n), hscan, Option.bind_eq_some_iff.mpr ⟨us, hus, rfl⟩⟩

end Token

theorem Laid.blank {trailing : Prop} {ts : List Token} {cs : List Char} {c : Char}
    (hc : Token.isBlank c = true) (h : Laid Blanks trailing ts cs) :
    Laid Blanks trailing ts (c :: cs) := by
  cases h with
  | ends hg => exact .ends (hg.cons hc)
  | token hg hrest => exact hrest.token (hg.cons hc)
  | closing htrailing ht hg hg' hrest => exact hrest.closing htrailing ht (hg.cons hc) hg'

/-- The tokens of a text are laid out in it. -/
theorem laid_of_tokensFrom? {skip : Nat} {cs : List Char} {ts : List Token}
    (h : Token.tokensFrom? skip cs = some ts) :
    Laid Blanks False ts (cs.drop skip) ∧ ∀ t ∈ ts, t.Sound := by
  induction cs generalizing skip ts with
  | nil =>
      rw [Token.tokensFrom?] at h
      cases h
      rw [List.drop_nil]
      exact ⟨.ends nofun, nofun⟩
  | cons c cs ih =>
      cases skip with
      | succ skip => exact ih h
      | zero =>
          cases hc : Token.isBlank c with
          | true =>
              rw [Token.tokensFrom?, if_pos hc] at h
              exact ⟨(ih h).1.blank hc, (ih h).2⟩
          | false =>
              obtain ⟨t, n, us, hscan, hrest, rfl⟩ := (Token.tokensFrom?_eq_some hc).mp h
              obtain ⟨hsound, word, rest, rfl, hwritten, rfl⟩ := Token.scan?_eq_some hscan
              obtain ⟨hlaid, hus⟩ := ih hrest
              rw [List.drop_left] at hlaid
              refine ⟨?_, List.forall_mem_cons.mpr ⟨hsound, hus⟩⟩
              have htext := hlaid.token (t := t) (g := []) nofun
              rwa [hwritten] at htext

theorem Token.Valid.sound {t : Token} (h : t.Valid) : t.Sound :=
  (laid_of_tokensFrom? h).2 t List.mem_cons_self

theorem Token.Valid.scan? {t : Token} (h : t.Valid) : ∃ c word, t.written = c :: word ∧
    Token.isBlank c = false ∧ Token.scan? c word = some (t, word.length) := by
  obtain ⟨c, word, hwritten, hblank, -⟩ := h.sound.head
  have hc : isBlank c = false := by
    rw [Bool.eq_false_iff]
    exact fun hc => absurd (textBlank_of_isBlank hc) (by simp [hblank])
  refine ⟨c, word, hwritten, hc, ?_⟩
  have h' := h
  rw [Valid, tokens?, hwritten, tokensFrom?_eq_some hc] at h'
  obtain ⟨u, n, us, hscan, -, heq⟩ := h'
  obtain ⟨rfl, -⟩ := List.cons.inj heq
  obtain ⟨-, taken, rest, -, htaken, rfl⟩ := scan?_eq_some hscan
  rw [hwritten] at htaken
  rw [← (List.cons.inj htaken).2] at hscan
  exact hscan

theorem Blanks.not_isNumeral_append {b rest : List Char} (hb : Blanks b)
    (h : ∀ c ∈ rest.head?, Token.isNumeral c = false) :
    ∀ c ∈ (b ++ rest).head?, Token.isNumeral c = false := by
  cases b with
  | nil => exact h
  | cons c b =>
      rintro d ⟨rfl⟩
      have hblank := Token.textBlank_of_isBlank (hb c List.mem_cons_self)
      rw [Bool.eq_false_iff]
      exact fun hnumeral => absurd hblank (by simp [Token.not_textBlank_of_isNumeral hnumeral])

/-- Behind a number stands no numeral: no other number does, and nothing else starts with one. -/
theorem Laid.not_isNumeral {trailing : Prop} {ts : List Token} {cs : List Char}
    (h : Laid Blanks trailing ts cs) (hts : ∀ t ∈ ts, t.Sound)
    (hhead : ∀ t ∈ ts.head?, ∀ literal, t ≠ .number literal) :
    ∀ c ∈ cs.head?, Token.isNumeral c = false := by
  cases h with
  | ends hg =>
      have hall := @Blanks.not_isNumeral_append _ [] hg nofun
      rwa [List.append_nil] at hall
  | @token t ts g rest hg _ =>
      refine hg.not_isNumeral_append ?_
      obtain ⟨c, word, hwritten, -, -, hnumber⟩ := (hts t List.mem_cons_self).head
      rw [hwritten]
      rintro d ⟨rfl⟩
      rw [Bool.eq_false_iff]
      exact fun hnumeral => (hnumber hnumeral).elim (hhead t rfl)
  | closing _ _ hg _ _ => 
      refine hg.not_isNumeral_append ?_
      rintro d ⟨rfl⟩
      decide

theorem tokens?_of_laid {cs : List Char} {ts : List Token} (h : Laid Blanks False ts cs)
    (hts : ∀ t ∈ ts, t.Valid) (hchain : ts.IsChain Token.Precedes) : tokens? cs = some ts := by
  induction h with
  | ends hg =>
      have hall := Token.tokensFrom?_blanks hg []
      rwa [List.append_nil] at hall
  | @token t ts g rest hg hrest ih =>
      obtain ⟨hvalid, hvalids⟩ := List.forall_mem_cons.mp hts
      obtain ⟨c, word, hwritten, hc, hscan⟩ := hvalid.scan?
      have hends : t.EndsBefore rest := by
        cases t with
        | number literal =>
            exact hrest.not_isNumeral (fun u hu => (hvalids u hu).sound) fun u hu =>
              ((List.isChain_cons.mp hchain).1 u hu).2 literal rfl
        | _ => trivial
      rw [tokens?, Token.tokensFrom?_blanks hg, hwritten, List.cons_append, Token.tokensFrom?_eq_some hc]
      exact ⟨t, _, ts, Token.scan?_append hscan hends,
        (Token.tokensFrom?_skip word rest).trans (ih hvalids hchain.tail), rfl⟩
  | closing h => exact h.elim

end Tokens

theorem toList_undecorate (text : String) : (undecorate text).toList =
    blankCommasFrom .code (blankCommentsFrom .code text.toList) := by
  rw [undecorate, blankTrailingCommas, String.toList_ofList, Json.blankComments, String.toList_ofList]

/-- Comments, blanks and trailing commas leave no trace: a document written with them becomes JSON text
with the same tokens, and JSON text stays as it is. -/
theorem decoration_vanishes :
    (∀ (ts : List Token) (text : String), (ofTokens? ts).isSome = true → (∀ t ∈ ts, t.Valid) →
      Laid Gap True ts text.toList →
        tokens? (undecorate text).toList = some ts ∧ ofText? (undecorate text) = ofTokens? ts) ∧
    ∀ text : String, (ofText? text).isSome = true → undecorate text = text := by
  refine ⟨fun ts text hdocument hvalid hlaid => ?_, fun text hplain => ?_⟩
  · obtain ⟨v, hv⟩ := Option.isSome_iff_exists.mp hdocument
    have hchain := isChain_of_readFrom hv
    have hsound : ∀ t ∈ ts, t.Sound := fun t ht => (hvalid t ht).sound
    have hplain := (hlaid.blankComments hsound).blankCommas hsound hchain
    have htokens : tokens? (undecorate text).toList = some ts := by
      rw [toList_undecorate]
      exact tokens?_of_laid hplain hvalid hchain
    exact ⟨htokens, by rw [ofText?, htokens]; rfl⟩
  · obtain ⟨v, hv⟩ := Option.isSome_iff_exists.mp hplain
    obtain ⟨ts, htokens, hv⟩ := Option.bind_eq_some_iff.mp hv
    obtain ⟨hlaid, hsound⟩ := laid_of_tokensFrom? htokens
    rw [List.drop_zero] at hlaid
    rw [← String.toList_inj, toList_undecorate, hlaid.blankComments_eq hsound,
      hlaid.blankCommas_eq hsound (isChain_of_readFrom hv)]

/-- A comma and a comment behind the last item, and a string that looks like both. -/
theorem decoration_vanishes_around_strings :
    let ts : List Token := [.openBrace, .string ['/', '/'], .colon, .openBracket, .number ['1'], .comma,
      .string [',', ']'], .closeBracket, .closeBrace]
    let text := "\x7b// one\n\"//\":[1,\",]\"/* ] */,],\x7d"
    Laid Gap True ts text.toList ∧ tokens? (undecorate text).toList = some ts := by
  intro ts text
  have htext : text.toList = ['{', '/', '/', ' ', 'o', 'n', 'e', '\n', '\x22', '/', '/', '\x22', ':',
      '[', '1', ',', '\x22', ',', ']', '\x22', '/', '*', ' ', ']', ' ', '*', '/', ',', ']', ',', '}'] := by
    decide +kernel
  have hline := Gap.line (by decide : '\n' ∉ [' ', 'o', 'n', 'e']) .nil
  have hblock := Gap.block (by decide : ¬ ['*', '/'] <:+: [' ', ']', ' ']) .nil
  have hclosed : Laid Gap True [.closeBracket, .closeBrace] _ :=
    (Laid.closing trivial (.inl rfl) .nil .nil (.ends .nil)).closing trivial (.inr rfl) hblock .nil
  have hitems : Laid Gap True (ts.drop 4) _ :=
    ((hclosed.token .nil).token .nil).token .nil
  have hlaid : Laid Gap True ts text.toList := by
    rw [htext]
    exact (((hitems.token .nil).token .nil).token hline).token .nil
  have hvalid : ∀ t ∈ ts, t.Valid := by
    simp only [Token.Valid]
    decide +kernel
  exact ⟨hlaid, (decoration_vanishes.1 ts text (by decide +kernel) hvalid hlaid).1⟩

end ScriptLint.Json
