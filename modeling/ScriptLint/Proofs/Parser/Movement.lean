import ScriptLint.Proofs.Parser.Rules
import ScriptLint.Proofs.Syntax.Tiling

/-!
How a cursor moves. The tokens ahead tile the script from the cursor to its end, and what has been passed
ended before them. A step that keeps this moves forward only (`Reaches`); one that reads something passes
a token that counts and ends behind the start of what it has read (`Takes`), which is what keeps spans in
order and loops from going round in vain.
-/

namespace ScriptLint

namespace Cursor

structure Sound (c : Cursor) : Prop where
  tiles : Tiles c.offset c.rest c.size
  lastEnd_le : c.lastEnd ≤ c.offset

/-- From `c` a parse came to `d`, in the same script and as deep in groups. -/
structure Reaches (c d : Cursor) : Prop where
  sound : d.Sound
  size_eq : d.size = c.size
  depth_eq : d.depth = c.depth
  offset_le : c.offset ≤ d.offset
  lastEnd_le : c.lastEnd ≤ d.lastEnd

/-- On its way from `c` to `d` a parse has passed a byte. -/
structure Passes (c d : Cursor) : Prop extends Reaches c d where
  offset_lt : c.offset < d.offset

/-- On its way from `c` to `d` a parse has read what stands at `s`. -/
structure Takes (c d : Cursor) (s : Span) : Prop extends Reaches c d where
  le_start : c.offset ≤ s.start
  start_le_stop : s.start ≤ s.stop
  start_lt : s.start < d.lastEnd

theorem Sound.offset_le {c : Cursor} (h : c.Sound) : c.offset ≤ c.size := h.tiles.start_le

theorem Reaches.refl {c : Cursor} (h : c.Sound) : Reaches c c :=
  ⟨h, rfl, rfl, Nat.le_refl _, Nat.le_refl _⟩

theorem Reaches.trans {c d e : Cursor} (h : Reaches c d) (h' : Reaches d e) : Reaches c e where
  sound := h'.sound
  size_eq := h'.size_eq.trans h.size_eq
  depth_eq := h'.depth_eq.trans h.depth_eq
  offset_le := Nat.le_trans h.offset_le h'.offset_le
  lastEnd_le := Nat.le_trans h.lastEnd_le h'.lastEnd_le

theorem Passes.of_reaches {b c d : Cursor} (h : Reaches b c) (h' : Passes c d) : Passes b d :=
  ⟨h.trans h'.toReaches, Nat.lt_of_le_of_lt h.offset_le h'.offset_lt⟩

theorem Passes.trans {b c d : Cursor} (h : Passes b c) (h' : Reaches c d) : Passes b d :=
  ⟨h.toReaches.trans h', Nat.lt_of_lt_of_le h.offset_lt h'.offset_le⟩

/-- What passes a byte leaves fewer of them ahead. -/
theorem Passes.remaining_lt {c d : Cursor} (h : Passes c d) : d.remaining < c.remaining := by
  have hle := h.sound.offset_le
  have hlt := h.offset_lt
  have hsize := h.size_eq
  unfold remaining
  omega

theorem Takes.start_lt_offset {c d : Cursor} {s : Span} (h : Takes c d s) : s.start < d.offset :=
  Nat.lt_of_lt_of_le h.start_lt h.sound.lastEnd_le

theorem Takes.passes {c d : Cursor} {s : Span} (h : Takes c d s) : Passes c d :=
  ⟨h.toReaches, Nat.lt_of_le_of_lt h.le_start h.start_lt_offset⟩

theorem Takes.of_reaches {b c d : Cursor} {s : Span} (h : Reaches b c) (h' : Takes c d s) :
    Takes b d s :=
  ⟨h.trans h'.toReaches, Nat.le_trans h.offset_le h'.le_start, h'.start_le_stop, h'.start_lt⟩

theorem Takes.trans {b c d : Cursor} {s : Span} (h : Takes b c s) (h' : Reaches c d) :
    Takes b d s :=
  ⟨h.toReaches.trans h', h.le_start, h.start_le_stop, Nat.lt_of_lt_of_le h.start_lt h'.lastEnd_le⟩

/-- What has been read may be told with another end, as long as it does not end before its start. -/
theorem Takes.stretch {c d : Cursor} {s : Span} (h : Takes c d s) {stop : Nat}
    (hstop : s.start ≤ stop) : Takes c d ⟨s.start, stop⟩ :=
  ⟨h.toReaches, h.le_start, hstop, h.start_lt⟩

theorem sound_ofSource (source : String) : (ofSource source).Sound := by
  have htiles := tiles_tokenize source
  refine ⟨?_, Nat.zero_le _⟩
  have hoffset : (ofSource source).offset = 0 := by
    unfold offset ofSource
    cases h : tokenize source with
    | nil =>
        rw [h] at htiles
        exact htiles.symm
    | cons t ts =>
        rw [h] at htiles
        exact htiles.1
  rw [hoffset]
  exact htiles

/-- Where the tokens ahead start is told by where they tile the script from. -/
theorem offset_eq_of_tiles {c : Cursor} {a : Nat} (h : Tiles a c.rest c.size) : c.offset = a := by
  unfold offset
  split
  case h_1 hrest =>
    rw [hrest] at h
    exact h.symm
  case h_2 t ts hrest =>
    rw [hrest] at h
    exact h.1

variable {c : Cursor} {t : Token} {ts : List Token}

theorem offset_eq_start (h : c.rest = t :: ts) : c.offset = t.start := by
  unfold offset
  rw [h]

/-- What has not been skipped is none of what is. -/
theorem not_of_rest_skip {p : TokenKind → Bool} (h : (c.skip p).rest = t :: ts) : p t.kind = false := by
  have hhead := List.head?_dropWhile_not (fun t : Token => p t.kind) c.rest
  rw [show c.rest.dropWhile (fun t => p t.kind) = t :: ts from h] at hhead
  simpa using hhead

/-- A token that counts is the last one that does right behind it. -/
theorem lastEnd_pass (ht : t.kind.isSpacing = false) : (c.pass t ts).lastEnd = t.stop := by
  simp [pass, ht]

theorem Sound.tiles_tail (hc : c.Sound) (h : c.rest = t :: ts) : Tiles t.stop ts c.size := by
  have htiles := hc.tiles
  rw [h] at htiles
  exact htiles.2.2

theorem Sound.start_lt_stop (hc : c.Sound) (h : c.rest = t :: ts) : t.start < t.stop := by
  have htiles := hc.tiles
  rw [h] at htiles
  exact Token.start_lt_stop htiles.2.1

theorem Sound.stop_le (hc : c.Sound) (h : c.rest = t :: ts) : t.stop ≤ c.size :=
  (hc.tiles_tail h).start_le

/-- Where a cursor is that has passed a token. -/
theorem Sound.offset_pass (hc : c.Sound) (h : c.rest = t :: ts) : (c.pass t ts).offset = t.stop :=
  offset_eq_of_tiles (c := c.pass t ts) (hc.tiles_tail h)

theorem Sound.reaches_pass (hc : c.Sound) (h : c.rest = t :: ts) : Reaches c (c.pass t ts) := by
  have hstart := offset_eq_start h
  have hlt := hc.start_lt_stop h
  have hlast := hc.lastEnd_le
  have hoffset := hc.offset_pass h
  refine ⟨⟨?_, ?_⟩, rfl, rfl, by omega, ?_⟩
  · rw [hoffset]
    exact hc.tiles_tail h
  · rw [hoffset]
    unfold pass
    dsimp only
    split <;> omega
  · unfold pass
    dsimp only
    split <;> omega

theorem Sound.takes_pass (hc : c.Sound) (h : c.rest = t :: ts) (ht : t.kind.isSpacing = false) :
    Takes c (c.pass t ts) t.span := by
  have hlt := hc.start_lt_stop h
  refine ⟨hc.reaches_pass h, Nat.le_of_eq (offset_eq_start h), Nat.le_of_lt hlt, ?_⟩
  show t.start < (c.pass t ts).lastEnd
  simpa only [pass, ht, Bool.false_eq_true, if_false] using hlt

theorem Sound.reaches_skip (hc : c.Sound) (p : TokenKind → Bool) : Reaches c (c.skip p) := by
  have htiles := hc.tiles
  rw [← List.takeWhile_append_dropWhile (p := fun t => p t.kind) (l := c.rest)] at htiles
  obtain ⟨m, hskipped, hrest⟩ := Tiles.append.mp htiles
  have hoffset : (c.skip p).offset = m := offset_eq_of_tiles hrest
  have hle := hskipped.start_le
  refine ⟨⟨?_, ?_⟩, rfl, rfl, by omega, Nat.le_refl _⟩
  · rw [hoffset]
    exact hrest
  · rw [hoffset]
    exact Nat.le_trans hc.lastEnd_le hle

theorem Sound.reaches_report (hc : c.Sound) (problem : Problem) (s : Span) :
    Reaches c (c.report problem s) :=
  ⟨⟨hc.tiles, hc.lastEnd_le⟩, rfl, rfl, Nat.le_refl _, Nat.le_refl _⟩

/-- A token cut behind its first characters, with some left on either side. -/
theorem Sound.reaches_cut (hc : c.Sound) (h : c.rest = t :: ts) {head tail : String}
    (htext : t.text = head ++ tail) (hhead : head ≠ "") (htail : tail ≠ "") :
    Reaches c { c with rest := (t.cut head.utf8ByteSize).1 :: (t.cut head.utf8ByteSize).2 :: ts } := by
  have hstart := offset_eq_start h
  rw [Token.cut_eq htext]
  refine ⟨⟨⟨rfl, hhead, rfl, htail, ?_⟩, ?_⟩, rfl, rfl, Nat.le_of_eq hstart, Nat.le_refl _⟩
  · have htiles := hc.tiles_tail h
    rw [Token.stop, htext, String.utf8ByteSize_append, ← Nat.add_assoc] at htiles
    exact htiles
  · have hlast := hc.lastEnd_le
    rw [hstart] at hlast
    exact hlast

end Cursor

end ScriptLint
