import Mathlib.Data.List.TakeWhile
import ScriptLint.Proofs.Parser.Origin

/-!
Where a parse stands in a script. Whatever token of the script starts behind a cursor is ahead of it, and one
that starts in front of the cursor has counted, unless it is one of those that a parse may leave behind as if
they were not there. What is ahead is a token of the script, but the first token may be what is left of a word
whose first part has been passed.
-/

namespace ScriptLint

/-- The tokens that a parse never leaves behind without passing them: all but those that may stand between
two statements. -/
def TokenKind.counts (k : TokenKind) : Bool :=
  !(k.isSpacing || k = .semicolon || k = .chain)

theorem TokenKind.not_isSpacing_of_counts {k : TokenKind} (h : k.counts) : k.isSpacing = false := by
  cases k <;> first | rfl | cases h

section

variable {source : String} {t u w : Token}

namespace Token

/-- The token `u` is `w` or the end of `w`. -/
structure EndOf (u w : Token) : Prop where
  kind_eq : u.kind = w.kind
  text_eq : ∃ head, w.text = head ++ u.text ∧ u.start = w.start + head.utf8ByteSize

/-- The token is one of the script, or the end of a word of the script. -/
def StemsFrom (source : String) (u : Token) : Prop :=
  ∃ w ∈ tokenize source, u.EndOf w ∧ (u.kind = .word ∨ u = w)

theorem EndOf.refl (t : Token) : t.EndOf t :=
  ⟨rfl, "", String.empty_append.symm, rfl⟩

theorem EndOf.trans (h : u.EndOf t) (h' : t.EndOf w) : u.EndOf w := by
  obtain ⟨head, htext, hstart⟩ := h.text_eq
  obtain ⟨head', htext', hstart'⟩ := h'.text_eq
  refine ⟨h.kind_eq.trans h'.kind_eq, head' ++ head, ?_, ?_⟩
  · rw [htext', htext, String.append_assoc]
  · rw [hstart, hstart', String.utf8ByteSize_append, Nat.add_assoc]

theorem EndOf.start_le (h : u.EndOf w) : w.start ≤ u.start := by
  obtain ⟨head, -, hstart⟩ := h.text_eq
  exact hstart ▸ Nat.le_add_right _ _

theorem EndOf.stop_eq (h : u.EndOf w) : u.stop = w.stop := by
  obtain ⟨head, htext, hstart⟩ := h.text_eq
  rw [stop, stop, htext, hstart, String.utf8ByteSize_append, Nat.add_assoc]

/-- Two ends of a token that start at one place are the same. -/
theorem EndOf.eq (h : t.EndOf w) (h' : u.EndOf w) (hstart : t.start = u.start) : t = u := by
  obtain ⟨head, htext, ht⟩ := h.text_eq
  obtain ⟨head', htext', hu⟩ := h'.text_eq
  have hsize : head.utf8ByteSize = head'.utf8ByteSize := by omega
  have hcut := (cut_eq htext).symm.trans (hsize ▸ cut_eq htext')
  have htexts : t.text = u.text := congrArg (fun c => c.2.text) hcut
  have hkinds : t.kind = u.kind := h.kind_eq.trans h'.kind_eq.symm
  cases t
  cases u
  cases hkinds
  cases htexts
  cases hstart
  rfl

theorem stemsFrom_of_mem (h : t ∈ tokenize source) : t.StemsFrom source :=
  ⟨t, h, .refl t, .inr rfl⟩

/-- What is left of a word stems from where the word does. -/
theorem StemsFrom.rest (h : t.StemsFrom source) (hu : u.EndOf t) (hword : u.kind = .word) :
    u.StemsFrom source := by
  obtain ⟨w, hw, hend, -⟩ := h
  exact ⟨w, hw, hu.trans hend, .inl hword⟩

/-- What stands at one place stems from one token. -/
theorem StemsFrom.eq (h : t.StemsFrom source) (h' : u.StemsFrom source) (ht : t.start < t.stop)
    (hu : u.start < u.stop) (hstart : t.start = u.start) : t = u := by
  obtain ⟨w, hw, hend, -⟩ := h
  obtain ⟨w', hw', hend', -⟩ := h'
  have hsame : w = w' := by
    have := hend.start_le
    have := hend.stop_eq
    have := hend'.start_le
    have := hend'.stop_eq
    exact (tiles_tokenize source).eq_of_lt_stop hw hw' (by omega) (by omega)
  subst hsame
  exact hend.eq hend' hstart

end Token

end

namespace Cursor

/-- The cursor is one that a parse of the script may come by. -/
structure Along (source : String) (c : Cursor) : Prop where
  sound : c.Sound
  size_eq : c.size = source.utf8ByteSize
  ahead : ∀ t ∈ tokenize source, c.offset ≤ t.start → t ∈ c.rest
  counted : ∀ t ∈ tokenize source, t.kind.counts → t.start < c.offset → t.start < c.lastEnd
  stems : ∀ u ∈ c.rest, u.StemsFrom source
  whole : ∀ u ∈ c.rest.tail, u ∈ tokenize source

variable {source : String} {c d : Cursor} {t u : Token} {ts : List Token}

/-- A step forward, told by what it does to the tokens ahead. -/
theorem Along.step (hc : c.Along source) (hd : Reaches c d)
    (hahead : ∀ t ∈ c.rest, d.offset ≤ t.start → t ∈ d.rest)
    (hpassed : ∀ t ∈ c.rest, t.kind.counts → t.start < d.offset → t.start < d.lastEnd)
    (hstems : ∀ u ∈ d.rest, u.StemsFrom source) (hwhole : ∀ u ∈ d.rest.tail, u ∈ tokenize source) :
    d.Along source where
  sound := hd.sound
  size_eq := hd.size_eq.trans hc.size_eq
  ahead := fun t ht hle => hahead t (hc.ahead t ht (Nat.le_trans hd.offset_le hle)) hle
  counted := fun t ht hcounts hlt => by
    rcases Nat.lt_or_ge t.start c.offset with hbefore | hbehind
    · exact Nat.lt_of_lt_of_le (hc.counted t ht hcounts hbefore) hd.lastEnd_le
    · exact hpassed t (hc.ahead t ht hbehind) hcounts hlt
  stems := hstems
  whole := hwhole

theorem Along.pass (hc : c.Along source) (hrest : c.rest = t :: ts) : (c.pass t ts).Along source := by
  have htiles := hc.sound.tiles_tail hrest
  have hlt := hc.sound.start_lt_stop hrest
  have hoffset := hc.sound.offset_pass hrest
  refine hc.step (hc.sound.reaches_pass hrest) ?_ ?_ (fun u hu => ?_) fun u hu => ?_
  · rw [hrest, hoffset]
    refine List.forall_mem_cons.mpr ⟨fun hle => ?_, fun u hu _ => hu⟩
    exact absurd hle (Nat.not_le.mpr hlt)
  · rw [hrest, hoffset]
    refine List.forall_mem_cons.mpr ⟨fun hcounts _ => ?_, fun u hu _ hbefore => ?_⟩
    · rw [lastEnd_pass (TokenKind.not_isSpacing_of_counts hcounts)]
      exact hlt
    · exact absurd (htiles.le_start hu) (Nat.not_le.mpr hbefore)
  · exact hc.stems u (hrest ▸ List.mem_cons_of_mem _ hu)
  · exact hc.whole u (by rw [hrest]; exact List.mem_of_mem_tail hu)

theorem Along.part (hc : c.Along source) (hrest : c.rest = t :: ts) (ht : t.kind = .word)
    {head tail : String} (htext : t.text = head ++ tail) (hhead : head ≠ "") (htail : tail ≠ "") :
    (c.pass (t.cut head.utf8ByteSize).1 ((t.cut head.utf8ByteSize).2 :: ts)).Along source := by
  have htiles := hc.sound.tiles_tail hrest
  have hcut := hc.sound.reaches_cut hrest htext hhead htail
  rw [Token.cut_eq htext] at hcut ⊢
  have hfirst : t.start < t.start + head.utf8ByteSize := hcut.sound.start_lt_stop rfl
  have hstop : t.stop = t.start + head.utf8ByteSize + tail.utf8ByteSize := by
    rw [Token.stop, htext, String.utf8ByteSize_append, Nat.add_assoc]
  refine hc.step (hcut.trans (hcut.sound.reaches_pass rfl)) ?_ ?_ ?_ ?_
  · rw [hrest]
    refine List.forall_mem_cons.mpr ⟨fun hle => ?_, fun u hu _ => List.mem_cons_of_mem _ hu⟩
    exact absurd hle (Nat.not_le.mpr hfirst)
  · rw [hrest]
    refine List.forall_mem_cons.mpr ⟨fun _ _ => hfirst, fun u hu _ hlt => ?_⟩
    have hle := htiles.le_start hu
    have hlt : u.start < t.start + head.utf8ByteSize := hlt
    omega
  · refine List.forall_mem_cons.mpr ⟨?_, fun u hu => hc.stems u (hrest ▸ List.mem_cons_of_mem _ hu)⟩
    exact (hc.stems t (hrest ▸ List.mem_cons_self)).rest ⟨ht.symm, head, htext, rfl⟩ rfl
  · exact fun u hu => hc.whole u (hrest ▸ hu)

/-- What stands behind the first of the tokens that are left stood behind the first one before. -/
theorem tail_dropWhile_subset {p : Token → Bool} (ts : List Token) : (ts.dropWhile p).tail ⊆ ts.tail := by
  cases ts with
  | nil => exact List.Subset.refl _
  | cons t ts =>
      rw [List.dropWhile_cons, List.tail_cons]
      split
      · exact fun u hu => (List.dropWhile_sublist p).subset (List.mem_of_mem_tail hu)
      · exact List.Subset.refl _

theorem Along.skip {p : TokenKind → Bool}
    (hp : ∀ k, p k → k.isSpacing ∨ k = .semicolon ∨ k = .chain) (hc : c.Along source) :
    (c.skip p).Along source := by
  have htiles := hc.sound.tiles
  have hsplit := List.takeWhile_append_dropWhile (p := fun t => p t.kind) (l := c.rest)
  rw [← hsplit] at htiles
  obtain ⟨m, hskipped, hleft⟩ := Tiles.append.mp htiles
  have hoffset : (c.skip p).offset = m := offset_eq_of_tiles hleft
  have hfront {t : Token} (ht : t ∈ c.rest) :
      t ∈ c.rest.takeWhile (fun t => p t.kind) ∨ t ∈ (c.skip p).rest := by
    rw [← hsplit] at ht
    exact List.mem_append.mp ht
  refine hc.step (hc.sound.reaches_skip p) (fun t ht hle => ?_) (fun t ht hcounts hlt => ?_) (fun u hu => ?_)
    fun u hu => hc.whole u (tail_dropWhile_subset _ hu)
  · rw [hoffset] at hle
    refine (hfront ht).resolve_left fun hmem => ?_
    have := hskipped.stop_le hmem
    have := hskipped.start_lt_stop hmem
    omega
  · rw [hoffset] at hlt
    obtain hmem | hmem := hfront ht
    · -- what is skipped does not count
      have hskip := List.mem_takeWhile_imp (p := fun t : Token => p t.kind) hmem
      rcases hp t.kind hskip with h | h | h <;> simp [TokenKind.counts, h] at hcounts
    · exact absurd (hleft.le_start hmem) (Nat.not_le.mpr hlt)
  · exact hc.stems u ((List.dropWhile_sublist _).subset hu)

instance (source : String) : Lasting (Along source) where
  pass := Along.pass
  part := fun hc hrest ht htext hhead htail => Along.part hc hrest ht htext hhead htail
  skip := Along.skip
  report := fun _ _ hc => ⟨⟨hc.sound.tiles, hc.sound.lastEnd_le⟩, hc.size_eq, hc.ahead, hc.counted, hc.stems,
    hc.whole⟩
  deep := fun _ hc => ⟨⟨hc.sound.tiles, hc.sound.lastEnd_le⟩, hc.size_eq, hc.ahead, hc.counted, hc.stems,
    hc.whole⟩

theorem along_ofSource (source : String) : (ofSource source).Along source where
  sound := sound_ofSource source
  size_eq := rfl
  ahead := fun _ ht _ => ht
  counted := fun t ht _ hlt => by
    have hle := (sound_ofSource source).tiles.le_start ht
    exact absurd hle (Nat.not_le.mpr hlt)
  stems := fun _ hu => Token.stemsFrom_of_mem hu
  whole := fun _ hu => List.mem_of_mem_tail hu

/-- A cursor with nothing but tokens of the script ahead. -/
structure Intact (source : String) (c : Cursor) : Prop extends c.Along source where
  entire : ∀ u ∈ c.rest, u ∈ tokenize source

theorem Along.intact_pass (hc : c.Along source) (hrest : c.rest = t :: ts) : (c.pass t ts).Intact source :=
  ⟨hc.pass hrest, fun u hu => hc.whole u (by rw [hrest]; exact hu)⟩

theorem Intact.skip {p : TokenKind → Bool} (hp : ∀ k, p k → k.isSpacing ∨ k = .semicolon ∨ k = .chain)
    (hc : c.Intact source) : (c.skip p).Intact source :=
  ⟨hc.toAlong.skip hp, fun u hu => hc.entire u ((List.dropWhile_sublist _).subset hu)⟩

theorem Intact.skipBlanks (hc : c.Intact source) : c.skipBlanks.Intact source :=
  hc.skip fun _ h => .inl (by rw [of_decide_eq_true h]; rfl)

theorem Intact.skipSpacing (hc : c.Intact source) : c.skipSpacing.Intact source := hc.skip fun _ h => .inl h

theorem Along.intact_of_rest_nil (hc : c.Along source) (hrest : c.rest = []) : c.Intact source :=
  ⟨hc, by simp [hrest]⟩

theorem Along.stop_le_size (hc : c.Along source) (ht : t ∈ tokenize source) : t.stop ≤ c.size :=
  hc.size_eq ▸ (tiles_tokenize source).stop_le ht

theorem start_lt_stop_of_mem (ht : t ∈ tokenize source) : t.start < t.stop :=
  (tiles_tokenize source).start_lt_stop ht

/-- A token that counts is still ahead if what has been read stops in front of it, with the last token that
counts or with the script. -/
theorem Along.offset_le (hd : d.Along source) {stop : Nat} (hend : stop = d.lastEnd ∨ stop = d.size)
    (ht : t ∈ tokenize source) (hcounts : t.kind.counts) (hle : stop ≤ t.start) : d.offset ≤ t.start := by
  refine Nat.le_of_not_lt fun hlt => ?_
  have hcounted := hd.counted t ht hcounts hlt
  have hsize := hd.stop_le_size ht
  have hstop := start_lt_stop_of_mem ht
  rcases hend with h | h <;> omega

/-- Another token is passed in front of the word. -/
theorem Along.offset_pass_le (hc : c.Along source) (ht : t ∈ tokenize source) (hle : c.offset ≤ t.start)
    (hrest : c.rest = u :: ts) (hne : t ≠ u) : (c.pass u ts).offset ≤ t.start := by
  have hmem := hc.ahead t ht hle
  rw [hrest] at hmem
  rw [hc.sound.offset_pass hrest]
  exact (hc.sound.tiles_tail hrest).le_start ((List.mem_cons.mp hmem).resolve_left hne)

end Cursor

end ScriptLint
