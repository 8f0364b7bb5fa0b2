import Mathlib.Data.List.TakeWhile
import ScriptLint.Proofs.Source.LineIndex

/-!
Lines and columns, told by the bytes of a text. A line starts at the front of the text and behind each byte
that is a line feed, and the bytes that are passed up to an offset tell its line: it has the number of line
feeds among them, and it starts behind the last of these.
-/

namespace ScriptLint

/-- The bytes that a text is stored in. -/
def Text.bytes (text : String) : List UInt8 := text.toUTF8.data.toList

namespace Position

/-- On an earlier line, or further to the left on the same. -/
def Before (p q : Position) : Prop :=
  p.line < q.line ∨ p.line = q.line ∧ p.column < q.column

instance (p q : Position) : Decidable (p.Before q) := inferInstanceAs (Decidable (_ ∨ _))

/-- The position with its line and its column counted from one. -/
def fromOne (p : Position) : Position := ⟨p.line + 1, p.column + 1⟩

theorem not_before_self (p : Position) : ¬ p.Before p := by
  simp [Before]

theorem before_asymm {p q : Position} (h : p.Before q) : ¬ q.Before p := by
  unfold Before at *
  omega

theorem fromOne_before {p q : Position} : p.fromOne.Before q.fromOne ↔ p.Before q := by
  simp [Before, fromOne]

end Position

namespace LineIndex

/-- The byte that a line feed is. -/
def feed : UInt8 := 10

/-- The line `line` of a text of these bytes starts at `start`: it is the first one, or as many line feeds stand
in front of it, the last of them right there. -/
def StartsLine (bytes : List UInt8) (line start : Nat) : Prop :=
  line = 0 ∧ start = 0 ∨
    ∃ i, start = i + 1 ∧ bytes[i]? = some feed ∧ (bytes.take (i + 1)).count feed = line

/-- The places behind the line feeds among some bytes, the first of which stands at `offset`. -/
def behindFeeds (offset : Nat) (bytes : List UInt8) : List Nat :=
  ((bytes.zipIdx offset).filter (·.1 = feed)).map (·.2 + 1)

/-- Where the lines start, the first one among them. -/
def table (index : LineIndex) : List Nat := 0 :: index.starts

/-- The first `k` lines are those that start at `offset` or in front of it. -/
def Splits (index : LineIndex) (offset k : Nat) : Prop :=
  k ≤ index.table.length ∧ ∀ i start, index.table[i]? = some start → (start ≤ offset ↔ i < k)

section Bytes

variable {b : UInt8} {bytes bytes' : List UInt8} {offset i m n : Nat}

@[simp] theorem behindFeeds_nil (offset : Nat) : behindFeeds offset [] = [] := rfl

theorem behindFeeds_feed (offset : Nat) (bytes : List UInt8) :
    behindFeeds offset (feed :: bytes) = (offset + 1) :: behindFeeds (offset + 1) bytes := by
  simp [behindFeeds]

theorem behindFeeds_of_ne (h : b ≠ feed) (offset : Nat) (bytes : List UInt8) :
    behindFeeds offset (b :: bytes) = behindFeeds (offset + 1) bytes := by
  simp [behindFeeds, h]

theorem behindFeeds_append (offset : Nat) (bytes bytes' : List UInt8) :
    behindFeeds offset (bytes ++ bytes') =
      behindFeeds offset bytes ++ behindFeeds (offset + bytes.length) bytes' := by
  simp [behindFeeds, List.zipIdx_append]

theorem behindFeeds_eq_nil (h : feed ∉ bytes) (offset : Nat) : behindFeeds offset bytes = [] := by
  induction bytes generalizing offset with
  | nil => rfl
  | cons b bytes ih =>
      rw [behindFeeds_of_ne (List.ne_of_not_mem_cons h).symm, ih (List.not_mem_of_not_mem_cons h)]

theorem mem_behindFeeds :
    m ∈ behindFeeds offset bytes ↔ ∃ i, bytes[i]? = some feed ∧ m = offset + i + 1 := by
  simp only [behindFeeds, List.mem_map, List.mem_filter, Prod.exists, List.mem_zipIdx_iff_le_and_getElem?_sub,
    decide_eq_true_eq]
  constructor
  · rintro ⟨b, j, ⟨⟨hle, hj⟩, rfl⟩, rfl⟩
    exact ⟨j - offset, hj, by omega⟩
  · rintro ⟨i, hi, rfl⟩
    exact ⟨feed, offset + i, ⟨⟨Nat.le_add_right _ _, by rwa [Nat.add_sub_cancel_left]⟩, rfl⟩, rfl⟩

theorem pairwise_behindFeeds (offset : Nat) (bytes : List UInt8) :
    (behindFeeds offset bytes).Pairwise (· < ·) := by
  induction bytes generalizing offset with
  | nil => exact .nil
  | cons b bytes ih =>
      by_cases h : b = feed
      · rw [h, behindFeeds_feed]
        refine .cons (fun m hm => ?_) (ih _)
        obtain ⟨i, -, rfl⟩ := mem_behindFeeds.mp hm
        omega
      · rw [behindFeeds_of_ne h]
        exact ih _

theorem length_behindFeeds (offset : Nat) (bytes : List UInt8) :
    (behindFeeds offset bytes).length = bytes.count feed := by
  induction bytes generalizing offset with
  | nil => rfl
  | cons b bytes ih =>
      by_cases h : b = feed
      · rw [h, behindFeeds_feed, List.length_cons, ih, List.count_cons_self]
      · rw [behindFeeds_of_ne h, ih, List.count_cons_of_ne h]

/-- The lines that start in the first `n` bytes are told by these bytes. -/
theorem takeWhile_behindFeeds (offset n : Nat) (bytes : List UInt8) :
    (behindFeeds offset bytes).takeWhile (· ≤ offset + n) = behindFeeds offset (bytes.take n) := by
  induction bytes generalizing offset n with
  | nil => simp
  | cons b bytes ih =>
      cases n with
      | zero =>
          rw [List.take_zero, behindFeeds_nil, List.takeWhile_eq_nil_iff]
          intro hpos hle
          obtain ⟨i, -, hi⟩ := mem_behindFeeds.mp (List.get_mem _ ⟨0, hpos⟩)
          rw [hi, decide_eq_true_eq] at hle
          omega
      | succ n =>
          have hsum : offset + (n + 1) = offset + 1 + n := by omega
          rw [List.take_succ_cons, hsum]
          by_cases h : b = feed
          · have hle : offset + 1 ≤ offset + 1 + n := Nat.le_add_right _ _
            rw [h, behindFeeds_feed, behindFeeds_feed, ← ih]
            exact List.takeWhile_cons_of_pos (decide_eq_true hle)
          · rw [behindFeeds_of_ne h, behindFeeds_of_ne h, ih]

/-- The line with the number `i` behind the first one starts behind as many line feeds. -/
theorem startsLine_of_behindFeeds (h : (behindFeeds 0 bytes)[i]? = some m) :
    StartsLine bytes (i + 1) m := by
  suffices hall : ∀ offset, (behindFeeds offset bytes)[i]? = some m →
      ∃ j, m = offset + j + 1 ∧ bytes[j]? = some feed ∧ (bytes.take (j + 1)).count feed = i + 1 by
    obtain ⟨j, hm, hfeed⟩ := hall 0 h
    exact .inr ⟨j, by rw [hm, Nat.zero_add], hfeed⟩
  clear h
  intro offset h
  induction bytes generalizing offset i with
  | nil => cases h
  | cons b bytes ih =>
      by_cases hb : b = feed
      · subst hb
        rw [behindFeeds_feed] at h
        cases i with
        | zero =>
            obtain rfl := Option.some.inj h
            exact ⟨0, rfl, rfl, rfl⟩
        | succ i =>
            obtain ⟨j, rfl, hj, hcount⟩ := ih _ h
            exact ⟨j + 1, by omega, hj, by rw [List.take_succ_cons, List.count_cons_self, hcount]⟩
      · rw [behindFeeds_of_ne hb] at h
        obtain ⟨j, rfl, hj, hcount⟩ := ih _ h
        exact ⟨j + 1, by omega, hj, by rw [List.take_succ_cons, List.count_cons_of_ne hb, hcount]⟩

/-- A byte more, if it is a line feed. -/
theorem count_take_succ (h : bytes[i]? = some feed) :
    (bytes.take (i + 1)).count feed = (bytes.take i).count feed + 1 := by
  rw [List.take_add_one, h, List.count_append]
  rfl

theorem StartsLine.count_eq {line start : Nat} (h : StartsLine bytes line start) :
    (bytes.take start).count feed = line := by
  obtain ⟨rfl, rfl⟩ | ⟨i, rfl, -, hcount⟩ := h
  · rfl
  · exact hcount

theorem count_take_mono (bytes : List UInt8) (h : m ≤ n) :
    (bytes.take m).count feed ≤ (bytes.take n).count feed :=
  (List.take_sublist_take_left h).count_le feed

end Bytes

section Text

theorem bytes_eq_flatMap (text : String) :
    Text.bytes text = text.toList.flatMap String.utf8EncodeChar := by
  conv => lhs; rw [← String.ofList_toList (s := text)]
  rw [Text.bytes, String.toUTF8_eq_toByteArray, String.toByteArray_ofList, List.utf8Encode,
    List.toList_data_toByteArray]

theorem utf8EncodeChar_feed : String.utf8EncodeChar '\n' = [feed] := rfl

/-- Only a line feed is stored with the byte that a line feed is. -/
theorem feed_not_mem_utf8EncodeChar {c : Char} (h : c ≠ '\n') : feed ∉ String.utf8EncodeChar c := by
  have hval : c.val.toNat ≠ 10 := fun hc => h (Char.ext (UInt32.toNat_inj.mp hc))
  have hbyte {v : Nat} (hv : v % 256 ≠ 10) : feed ≠ UInt8.ofNat v := by
    intro heq
    have := congrArg UInt8.toNat heq
    rw [UInt8.toNat_ofNat'] at this
    exact hv this.symm
  unfold String.utf8EncodeChar
  dsimp only
  split_ifs <;> simp only [List.mem_cons, List.not_mem_nil, or_false, not_or]
  · exact hbyte (by omega)
  · exact ⟨hbyte (by omega), hbyte (by omega)⟩
  · exact ⟨hbyte (by omega), hbyte (by omega), hbyte (by omega)⟩
  · exact ⟨hbyte (by omega), hbyte (by omega), hbyte (by omega), hbyte (by omega)⟩

theorem startsFrom_eq (offset : Nat) (cs : List Char) :
    startsFrom offset cs = behindFeeds offset (cs.flatMap String.utf8EncodeChar) := by
  induction cs generalizing offset with
  | nil => rfl
  | cons c cs ih =>
      rw [List.flatMap_cons, behindFeeds_append, String.length_utf8EncodeChar]
      by_cases h : c = '\n'
      · rw [h, startsFrom_feed, ih, utf8EncodeChar_feed, behindFeeds_feed]
        rfl
      · rw [startsFrom_of_ne h, ih, behindFeeds_eq_nil (feed_not_mem_utf8EncodeChar h), List.nil_append]

/-- The index of a text holds the places behind its line feeds. -/
theorem starts_ofText (text : String) : (ofText text).starts = behindFeeds 0 (Text.bytes text) := by
  rw [ofText, startsFrom_eq, bytes_eq_flatMap]

end Text

section Position

variable (text : String) (offset : Nat)

theorem lineCount_eq : (ofText text).lineCount = (Text.bytes text).count feed + 1 := by
  rw [lineCount, starts_ofText, length_behindFeeds]

theorem length_table : (ofText text).table.length = (ofText text).lineCount := rfl

theorem pairwise_table : (ofText text).table.Pairwise (· < ·) := by
  rw [table, starts_ofText]
  refine .cons (fun m hm => ?_) (pairwise_behindFeeds _ _)
  obtain ⟨i, -, rfl⟩ := mem_behindFeeds.mp hm
  omega

theorem startsLine_of_table {i start : Nat} (h : (ofText text).table[i]? = some start) :
    StartsLine (Text.bytes text) i start := by
  rw [table, starts_ofText] at h
  cases i with
  | zero => exact .inl ⟨rfl, (Option.some.inj h).symm⟩
  | succ i => exact startsLine_of_behindFeeds h

/-- The lines that start at an offset or in front of it are told by the bytes in front of it. -/
theorem takeWhile_starts :
    (ofText text).starts.takeWhile (· ≤ offset) = behindFeeds 0 ((Text.bytes text).take offset) := by
  rw [starts_ofText, ← takeWhile_behindFeeds, Nat.zero_add]

theorem line_position :
    ((ofText text).position offset).line = ((Text.bytes text).take offset).count feed := by
  rw [position, takeWhile_starts, length_behindFeeds]

/-- The line of an offset is in the table, and its start is where the column is counted from. -/
theorem table_line_position : ∃ start, (ofText text).table[((ofText text).position offset).line]? = some start ∧
    start + ((ofText text).position offset).column = offset := by
  have hsplit := List.takeWhile_append_dropWhile (p := fun m => decide (m ≤ offset)) (l := (ofText text).starts)
  have hle : ∀ m ∈ (ofText text).starts.takeWhile (· ≤ offset), m ≤ offset := fun m hm =>
    of_decide_eq_true (List.mem_takeWhile_imp (p := fun m => decide (m ≤ offset)) hm)
  generalize hpassed : (ofText text).starts.takeWhile (· ≤ offset) = passed at hsplit hle
  have hlast : (0 :: passed).getLast? = some (passed.getLastD 0) := by
    rw [List.getLast?_cons, List.getLastD_eq_getLast?]
  refine ⟨passed.getLastD 0, ?_, ?_⟩
  · rw [position, hpassed, table, ← hsplit, ← List.cons_append, List.getElem?_append_left (Nat.lt_succ_self _),
      ← hlast, List.getLast?_eq_getElem?]
    rfl
  · rw [position, hpassed]
    refine Nat.add_sub_cancel' ?_
    rcases List.mem_cons.mp (List.mem_of_getLast? hlast) with h | h
    · exact (Nat.le_of_eq h).trans (Nat.zero_le _)
    · exact hle _ h

/-- The lines up to that of an offset, and no others, start at the offset or in front of it. -/
theorem le_iff_of_table {i start : Nat} (h : (ofText text).table[i]? = some start) :
    start ≤ offset ↔ i < ((ofText text).position offset).line + 1 := by
  have hstarts := startsLine_of_table text h
  rw [line_position, Nat.lt_succ_iff]
  constructor
  · intro hle
    rw [← hstarts.count_eq]
    exact count_take_mono _ hle
  · intro hline
    obtain ⟨-, rfl⟩ | ⟨j, rfl, hfeed, hcount⟩ := hstarts
    · exact Nat.zero_le _
    · refine Nat.le_of_not_lt fun hlt => ?_
      have hmono := count_take_mono (Text.bytes text) (Nat.lt_succ_iff.mp hlt)
      rw [count_take_succ hfeed] at hcount
      omega

theorem splits_iff {k : Nat} :
    (ofText text).Splits offset k ↔ k = ((ofText text).position offset).line + 1 := by
  have hline := (ofText text).position_line_lt offset
  obtain ⟨start, htable, -⟩ := table_line_position text offset
  constructor
  · rintro ⟨hk, hsplit⟩
    have hlast := (hsplit _ _ htable).mp ((le_iff_of_table text offset htable).mpr (Nat.lt_succ_self _))
    refine Nat.le_antisymm (Nat.le_of_not_lt fun hlt => ?_) hlast
    -- the next line would start too far behind
    have hnext := List.getElem?_eq_getElem (Nat.lt_of_lt_of_le hlt hk)
    have hle := (hsplit _ _ hnext).mpr hlt
    exact Nat.lt_irrefl _ ((le_iff_of_table text offset hnext).mp hle)
  · rintro rfl
    exact ⟨hline, fun i start h => le_iff_of_table text offset h⟩

/-- No line feed stands between the start of the line and the offset. -/
theorem not_feed_of_column {i : Nat} (hstart : offset - ((ofText text).position offset).column ≤ i)
    (hi : i < offset) : (Text.bytes text)[i]? ≠ some feed := by
  obtain ⟨start, htable, hsum⟩ := table_line_position text offset
  intro hfeed
  have hcount := (startsLine_of_table text htable).count_eq
  rw [line_position] at hcount
  have hfirst := count_take_mono (Text.bytes text) (m := start) (n := i) (by omega)
  have hlast := count_take_mono (Text.bytes text) (Nat.succ_le_of_lt hi)
  rw [Nat.succ_eq_add_one, count_take_succ hfeed] at hlast
  omega

variable {offset} in
theorem position_before {offset' : Nat} (h : offset < offset') :
    ((ofText text).position offset).Before ((ofText text).position offset') := by
  obtain ⟨start, htable, hsum⟩ := table_line_position text offset
  obtain ⟨start', htable', hsum'⟩ := table_line_position text offset'
  have hmono := count_take_mono (Text.bytes text) (Nat.le_of_lt h)
  rw [← line_position, ← line_position] at hmono
  rcases Nat.lt_or_eq_of_le hmono with hline | hline
  · exact .inl hline
  · rw [hline, htable'] at htable
    obtain rfl := Option.some.inj htable
    exact .inr ⟨hline, by omega⟩

theorem position_before_iff {offset' : Nat} :
    ((ofText text).position offset).Before ((ofText text).position offset') ↔ offset < offset' := by
  refine ⟨fun h => ?_, position_before text⟩
  rcases Nat.lt_trichotomy offset offset' with hlt | rfl | hgt
  · exact hlt
  · exact absurd h (Position.not_before_self _)
  · exact absurd (position_before text hgt) (Position.before_asymm h)

theorem position_injective : Function.Injective (ofText text).position := by
  have hnot {m n : Nat} (h : (ofText text).position m = (ofText text).position n) : ¬ m < n := by
    intro hlt
    have hbefore := position_before text hlt
    rw [h] at hbefore
    exact Position.not_before_self _ hbefore
  intro m n h
  exact Nat.le_antisymm (Nat.le_of_not_lt (hnot h.symm)) (Nat.le_of_not_lt (hnot h))

end Position

end LineIndex

end ScriptLint
