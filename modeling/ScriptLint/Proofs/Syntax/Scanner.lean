import ScriptLint.Proofs.Syntax.Locality
import ScriptLint.Syntax.Scanner

/-!
The scanner reads what the lexer says. From every place between two characters each function of the
scanner moves on by as many characters as `Lexer.scan` answers with, to a place between two characters,
and never breaks off; so its loops come to their ends, and a run over a script gives the script's tokens,
which tile it.
-/

namespace ScriptLint

namespace Scanner

open Lexer

open String (utf8Len)

variable {α β : Type} {rest : List Char}

/-- Where `rest` follows, `m` answers `a` and passes the next `n` characters. -/
def Takes (m : Scanner α) (rest : List Char) (a : α) (n : Nat) : Prop :=
  ∀ before, m (String.ofList (before ++ rest)) (utf8Len before) =
    .ok (a, utf8Len (before ++ rest.take n))

theorem bind_of_ok {m : Scanner α} {f : α → Scanner β} {source : String} {pos pos' : Nat} {a : α}
    (h : m source pos = .ok (a, pos')) : (m >>= f) source pos = f a source pos' := by
  change (m source pos).bind _ = _
  rw [h]
  rfl

@[simp] theorem read_bind (f : String → Scanner β) (source : String) (pos : Nat) :
    ((read : Scanner String) >>= f) source pos = f source source pos := rfl

@[simp] theorem get_bind (f : Nat → Scanner β) (source : String) (pos : Nat) :
    ((get : Scanner Nat) >>= f) source pos = f pos source pos := rfl

theorem isValid_ofList (before behind : List Char) :
    String.Pos.Raw.isValid (String.ofList (before ++ behind)) ⟨utf8Len before⟩ = true := by
  refine String.Pos.Raw.isValid_eq_true_iff.mpr ?_
  refine String.Pos.Raw.isValid_iff_exists_append.mpr ⟨.ofList before, .ofList behind, ?_, ?_⟩
  · rw [String.ofList_append]
  · simp

/-- Between two characters a slice is the text that stands there. -/
theorem slice_ofList (before middle behind : List Char) (pos : Nat) :
    slice (utf8Len before) (utf8Len (before ++ middle))
      (String.ofList (before ++ (middle ++ behind))) pos = .ok (String.ofList middle, pos) := by
  have hextract := extract_append (a := .ofList before) (b := .ofList middle) (c := .ofList behind)
  rw [← String.ofList_append, ← String.ofList_append, String.utf8ByteSize_ofList,
    String.utf8ByteSize_ofList, ← String.utf8Len_append, List.append_assoc] at hextract
  have hstop := isValid_ofList (before ++ middle) behind
  rw [List.append_assoc] at hstop
  have hle : ¬utf8Len (before ++ middle) < utf8Len before := by
    rw [String.utf8Len_append]
    omega
  unfold slice
  rw [read_bind, if_neg hle, isValid_ofList, hstop, hextract]
  rfl

theorem sliceFrom_ofList (before behind : List Char) (pos : Nat) :
    sliceFrom (utf8Len before) (String.ofList (before ++ behind)) pos = .ok (behind, pos) := by
  have h := slice_ofList before behind [] pos
  rw [List.append_nil] at h
  unfold sliceFrom
  rw [read_bind, String.utf8ByteSize_ofList, bind_of_ok h, String.toList_ofList]
  rfl

namespace Takes

theorem pure (a : α) : Takes (Pure.pure a) rest a 0 := fun before => by
  rw [List.take_zero, List.append_nil]
  rfl

theorem bind {m : Scanner α} {f : α → Scanner β} {a : α} {b : β} {n k : Nat} (h : Takes m rest a n)
    (hf : Takes (f a) (rest.drop n) b k) : Takes (m >>= f) rest b (n + k) := by
  intro before
  have hrest := hf (before ++ rest.take n)
  rw [List.append_assoc, List.take_append_drop] at hrest
  rw [bind_of_ok (h before), hrest, List.append_assoc, List.take_add]

/-- A step that passes nothing. -/
theorem look {m : Scanner α} {f : α → Scanner β} {a : α} {b : β} {n : Nat} (h : Takes m rest a 0)
    (hf : Takes (f a) rest b n) : Takes (m >>= f) rest b n := by
  have := h.bind (k := n) hf
  rwa [Nat.zero_add] at this

theorem pair {p : Prop} [Decidable p] {m m' : Scanner α} {a b : α × Nat}
    (h : p → Takes m rest a.1 a.2) (h' : ¬p → Takes m' rest b.1 b.2) :
    Takes (if p then m else m') rest (if p then a else b).1 (if p then a else b).2 := by
  split
  case isTrue hp => exact h hp
  case isFalse hp => exact h' hp

theorem answer {m : Scanner α} {a : α} {n : Nat} (h : Takes m rest a n) (f : α → β) :
    Takes (m >>= fun a => Pure.pure (f a)) rest (f a) n := by
  refine h.bind (k := 0) ?_
  exact Takes.pure (f a)

end Takes

theorem takes_peek : Takes peek rest rest.head? 0 := fun before => by
  unfold peek
  rw [get_bind, bind_of_ok (sliceFrom_ofList before rest _), List.take_zero, List.append_nil]
  rfl

theorem takes_peekNth (n : Nat) : Takes (peekNth n) rest rest[n]? 0 := fun before => by
  unfold peekNth
  rw [get_bind, bind_of_ok (sliceFrom_ofList before rest _), List.take_zero, List.append_nil]
  rfl

/-- The offset moves on by the bytes of the characters passed. -/
theorem takes_modify {f : Nat → Nat} (n : Nat) (h : ∀ pos, f pos = pos + utf8Len (rest.take n)) :
    Takes (modify f) rest () n := fun before => by
  rw [String.utf8Len_append, ← h]
  rfl

theorem takes_bump_nil : Takes bump [] none 0 := by
  unfold bump
  refine takes_peek.look ?_
  exact Takes.pure _

theorem takes_bump (c : Char) (cs : List Char) : Takes bump (c :: cs) (some c) 1 := by
  unfold bump
  refine takes_peek.look ?_
  refine (takes_modify 1 fun pos => by simp).bind (k := 0) ?_
  exact Takes.pure _

/-- The first character of a token is passed, then what belongs to it. -/
theorem Takes.bump {f : Option Char → Scanner β} {b : β} {c : Char} {cs : List Char} {n : Nat}
    (h : Takes (f (some c)) cs b n) : Takes (Scanner.bump >>= f) (c :: cs) b (n + 1) := by
  have := (takes_bump c cs).bind h
  rwa [Nat.add_comm] at this

theorem takes_bumpIf (c : Char) (cs : List Char) : Takes (bumpIf c) (c :: cs) true 1 := by
  unfold bumpIf
  refine takes_peek.look ?_
  rw [List.head?_cons, if_pos rfl]
  exact Takes.bump (Takes.pure true)

theorem takes_bumpIf_of_ne {c : Char} (h : rest.head? ≠ some c) : Takes (bumpIf c) rest false 0 := by
  unfold bumpIf
  refine takes_peek.look ?_
  rw [if_neg h]
  exact Takes.pure false

section Loops

variable {body : α → Scanner (ForInStep α)} {a a' b : α} {n k fuel : Nat}

theorem Takes.done (h : Takes (body a) rest (.done b) n) :
    Takes (rounds body (fuel + 1) a) rest b n := by
  rw [rounds]
  refine h.bind (k := 0) ?_
  exact Takes.pure b

theorem Takes.yield (h : Takes (body a) rest (.yield a') n)
    (h' : Takes (rounds body fuel a') (rest.drop n) b k) :
    Takes (rounds body (fuel + 1) a) rest b (n + k) := by
  rw [rounds]
  exact h.bind h'

/-- The bytes of a text are no fewer than its characters. -/
theorem length_le_utf8Len (cs : List Char) : cs.length ≤ utf8Len cs := by
  induction cs with
  | nil => exact Nat.le_refl _
  | cons c cs ih =>
      rw [String.utf8Len_cons, List.length_cons]
      exact Nat.add_le_add ih c.utf8Size_pos

theorem Takes.repeating (h : ∀ fuel, rest.length < fuel → Takes (rounds body fuel a) rest b n) :
    Takes (repeating body a) rest b n := by
  intro before
  have hlength : rest.length ≤ utf8Len (before ++ rest) := by
    rw [String.utf8Len_append]
    exact Nat.le_trans (length_le_utf8Len rest) (Nat.le_add_left _ _)
  refine h _ ?_ before
  rw [String.utf8ByteSize_ofList]
  exact Nat.lt_succ_of_le hlength

theorem takes_bumpWhile (p : Char → Bool) (rest : List Char) :
    Takes (bumpWhile p) rest () (runLength p rest) := by
  refine Takes.repeating fun fuel hfuel => ?_
  induction fuel generalizing rest with
  | zero => exact absurd hfuel (Nat.not_lt_zero _)
  | succ fuel ih =>
      cases rest with
      | nil =>
          refine Takes.done ?_
          unfold whileRound
          refine takes_peek.look ?_
          exact Takes.pure _
      | cons c cs =>
          rw [runLength_cons]
          split
          case isTrue hc =>
            rw [Nat.add_comm (runLength p cs)]
            refine Takes.yield (n := 1) ?_ (ih cs ?_)
            · unfold whileRound
              refine takes_peek.look ?_
              simp only [List.head?_cons, hc, ↓reduceIte]
              refine (takes_modify 1 fun pos => by simp).bind (k := 0) ?_
              exact Takes.pure _
            · exact Nat.lt_of_succ_lt_succ hfuel
          case isFalse hc =>
            refine Takes.done ?_
            unfold whileRound
            refine takes_peek.look ?_
            simp only [List.head?_cons, hc]
            exact Takes.pure _

theorem takes_run (kind : TokenKind) (p : Char → Bool) (rest : List Char) :
    Takes (run kind p) rest kind (runLength p rest) :=
  (takes_bumpWhile p rest).answer fun _ => kind

end Loops

/-- The place where a mark is found, in bytes and in characters. -/
theorem find?_eq (pattern cs : List Char) :
    (find? pattern cs).map (· + utf8Len pattern) =
      (lengthThrough? pattern cs).map fun n => utf8Len (cs.take n) := by
  induction cs with
  | nil => rfl
  | cons c cs ih =>
      rw [find?, lengthThrough?]
      split
      case isTrue h =>
        obtain ⟨behind, hcs⟩ := List.isPrefixOf_iff_prefix.mp h
        rw [← hcs]
        simp
      case isFalse =>
        calc ((find? pattern cs).map (c.utf8Size + ·)).map (· + utf8Len pattern)
          _ = ((find? pattern cs).map (· + utf8Len pattern)).map (c.utf8Size + ·) := by
              simp [Option.map_map, Function.comp_def, Nat.add_assoc]
          _ = ((lengthThrough? pattern cs).map (· + 1)).map fun n => utf8Len ((c :: cs).take n) := by
              rw [ih]
              simp [Option.map_map, Function.comp_def, Nat.add_comm]

/-- A token that ends with a mark, searched behind the text `front`. -/
theorem takes_through (front pattern rest : List Char) :
    Takes (through (utf8Len front) pattern) (front ++ rest) (reach pattern rest).2
      (front.length + (reach pattern rest).1) := by
  intro before
  have hslice := sliceFrom_ofList (before ++ front) rest (utf8Len before)
  rw [List.append_assoc, String.utf8Len_append] at hslice
  have htake (n : Nat) : utf8Len (before ++ (front ++ rest).take (front.length + n)) =
      utf8Len before + utf8Len front + utf8Len (rest.take n) := by
    rw [List.take_length_add_append, String.utf8Len_append, String.utf8Len_append, Nat.add_assoc]
  have hfind := find?_eq pattern rest
  unfold through
  rw [get_bind, bind_of_ok hslice, htake]
  unfold reach
  cases hn : lengthThrough? pattern rest with
  | none =>
      rw [hn] at hfind
      rw [Option.map_eq_none_iff.mp hfind]
      change Except.ok (false, (String.ofList (before ++ (front ++ rest))).utf8ByteSize) = _
      simp [String.utf8ByteSize_ofList, Nat.add_assoc]
  | some n =>
      rw [hn] at hfind
      obtain ⟨b, hb, hsize⟩ := Option.map_eq_some_iff.mp hfind
      rw [hb]
      change Except.ok (true, _ + b + (String.ofList pattern).utf8ByteSize) = _
      rw [String.utf8ByteSize_ofList, Nat.add_assoc, hsize]

/-- From where `c` and then `cs` stand, `m` passes what `answer` says, as `scan` answers. -/
def Answers (m : Scanner TokenKind) (c : Char) (cs : List Char) (answer : TokenKind × Nat) : Prop :=
  Takes m (c :: cs) answer.1 (answer.2 + 1)

namespace Answers

variable {c : Char} {cs : List Char} {m m' : Scanner TokenKind}

theorem pair {p : Prop} [Decidable p] {a b : TokenKind × Nat} (h : p → Answers m c cs a)
    (h' : ¬p → Answers m' c cs b) : Answers (if p then m else m') c cs (if p then a else b) := by
  split
  case isTrue hp => exact h hp
  case isFalse hp => exact h' hp

/-- The lexer tells two cases apart that the scanner does not. -/
theorem either {p q : Prop} [Decidable p] [Decidable q] {a b d : TokenKind × Nat}
    (h : p → Answers m c cs a) (h' : q → Answers m c cs b) (h'' : ¬(p ∨ q) → Answers m' c cs d) :
    Answers (if p ∨ q then m else m') c cs (if p then a else if q then b else d) := by
  by_cases hp : p
  · rw [if_pos hp, if_pos (.inl hp)]
    exact h hp
  · rw [if_neg hp]
    by_cases hq : q
    · rw [if_pos hq, if_pos (.inr hq)]
      exact h' hq
    · rw [if_neg hq, if_neg (not_or.mpr ⟨hp, hq⟩)]
      exact h'' (not_or.mpr ⟨hp, hq⟩)

theorem single (kind : TokenKind) : Answers (Scanner.single kind) c cs (kind, 0) :=
  Takes.bump (Takes.pure kind)

theorem run (kind : TokenKind) {p : Char → Bool} (h : p c) :
    Answers (Scanner.run kind p) c cs (kind, runLength p cs) := by
  have htakes := takes_run kind p (c :: cs)
  rwa [runLength_cons, if_pos h] at htakes

theorem doubled (d : Char) (twice once : TokenKind) :
    Answers (Scanner.doubled d twice once) c cs
      (if cs.head? = some d then (twice, 1) else (once, 0)) := by
  refine Takes.bump ?_
  split
  case isTrue h =>
    obtain ⟨ds, rfl⟩ := List.head?_eq_some_iff.mp h
    exact (takes_bumpIf d ds).answer fun b => if b then twice else once
  case isFalse h => exact (takes_bumpIf_of_ne h).answer fun b => if b then twice else once

theorem lineFeed : Answers (newline '\n') '\n' cs (.newline, 0) :=
  Takes.bump (Takes.pure _)

theorem carriageReturn :
    Answers (newline '\r') '\r' cs (.newline, if cs.head? = some '\n' then 1 else 0) := by
  refine Takes.bump ?_
  dsimp only
  rw [if_pos rfl]
  split
  case isTrue h =>
    obtain ⟨ds, rfl⟩ := List.head?_eq_some_iff.mp h
    exact (takes_bumpIf '\n' ds).answer fun _ => TokenKind.newline
  case isFalse h => exact (takes_bumpIf_of_ne h).answer fun _ => TokenKind.newline

theorem continuation (h : cs.head?.any isLineEnd) :
    Answers Scanner.continuation c cs
      (.whitespace, if ['\r', '\n'].isPrefixOf cs then 2 else 1) := by
  refine Takes.bump ?_
  obtain _ | ⟨d, ds⟩ := cs
  · cases h
  by_cases hd : d = '\r'
  · subst hd
    by_cases hfeed : ds.head? = some '\n'
    · obtain ⟨es, rfl⟩ := List.head?_eq_some_iff.mp hfeed
      refine Takes.bump (n := 1) ?_
      exact (takes_bumpIf '\n' es).answer fun _ => TokenKind.whitespace
    · have hnone : ['\r', '\n'].isPrefixOf ('\r' :: ds) = false := Bool.eq_false_iff.mpr fun h => by
        obtain ⟨es, hes⟩ := List.isPrefixOf_iff_prefix.mp h
        exact hfeed ((List.cons.inj hes).2 ▸ rfl)
      rw [hnone]
      refine Takes.bump (n := 0) ?_
      exact (takes_bumpIf_of_ne hfeed).answer fun _ => TokenKind.whitespace
  · have hnone : ['\r', '\n'].isPrefixOf (d :: ds) = false := Bool.eq_false_iff.mpr fun h =>
      hd (List.cons_prefix_cons.mp (List.isPrefixOf_iff_prefix.mp h)).1.symm
    rw [hnone]
    refine Takes.bump (n := 0) ?_
    dsimp only
    rw [if_neg (fun h => hd (Option.some.inj h))]
    exact Takes.pure _

theorem blockComment (h : cs.head? = some '#') :
    Answers Scanner.blockComment '<' cs (.comment, (reach ['#', '>'] cs.tail).1 + 1) := by
  obtain ⟨ds, rfl⟩ := List.head?_eq_some_iff.mp h
  have htakes := takes_through ['<', '#'] ['#', '>'] ds
  rw [List.length_cons, Nat.add_comm] at htakes
  exact htakes.answer fun _ => TokenKind.comment

theorem hereString (d : Char) :
    Answers (Scanner.hereString d) d cs
      (.string !(reach ['\n', d, '@'] cs).2, (reach ['\n', d, '@'] cs).1) := by
  refine Takes.bump ?_
  have htakes := takes_through [] ['\n', d, '@'] cs
  rw [List.length_nil, Nat.zero_add] at htakes
  exact htakes.answer fun closed => TokenKind.string !closed

end Answers

section Strings

variable {quote c d : Char} {cs : List Char} {b : Bool}

/-- Two characters of a string that go together: a backtick with what it escapes, or a doubled quote. -/
theorem takes_stringRound_pair (h : (quote = '\x22' ∧ c = '\x60') ∨ (c = quote ∧ d = quote)) :
    Takes (stringRound quote b) (c :: d :: cs) (.yield false) 2 := by
  refine Takes.bump (n := 1) ?_
  dsimp only
  split
  case isTrue => exact Takes.bump (Takes.pure _)
  case isFalse hescape =>
    obtain ⟨rfl, rfl⟩ := h.resolve_left hescape
    rw [if_pos rfl]
    exact (takes_bumpIf d cs).bind (k := 0) (Takes.pure _)

/-- A backtick at the end of a script escapes nothing. -/
theorem takes_stringRound_escape (h : quote = '\x22' ∧ c = '\x60') :
    Takes (stringRound quote b) [c] (.yield false) 1 := by
  refine Takes.bump (n := 0) ?_
  dsimp only
  rw [if_pos h]
  exact takes_bump_nil.look (Takes.pure _)

theorem takes_stringRound_close (hescape : ¬(quote = '\x22' ∧ c = '\x60')) (hc : c = quote)
    (hnext : cs.head? ≠ some quote) : Takes (stringRound quote b) (c :: cs) (.done true) 1 := by
  refine Takes.bump (n := 0) ?_
  dsimp only
  rw [if_neg hescape, if_pos hc]
  exact (takes_bumpIf_of_ne hnext).look (Takes.pure _)

theorem takes_stringRound_other (hescape : ¬(quote = '\x22' ∧ c = '\x60')) (hc : c ≠ quote) :
    Takes (stringRound quote b) (c :: cs) (.yield false) 1 := by
  refine Takes.bump (n := 0) ?_
  dsimp only
  rw [if_neg hescape, if_neg hc]
  exact Takes.pure _

theorem takes_stringRound_nil : Takes (stringRound quote b) [] (.done false) 0 := by
  refine takes_bump_nil.look ?_
  exact Takes.pure _

/-- A string is read to its end, round by round. -/
theorem takes_stringRounds (fuel : Nat) (h : rest.length < fuel) :
    Takes (rounds (stringRound quote) fuel b) rest (quotedLength quote rest).2
      (quotedLength quote rest).1 := by
  fun_induction quotedLength quote rest generalizing fuel b with
  | case1 =>
      obtain ⟨fuel, rfl⟩ := Nat.exists_eq_add_of_lt h
      exact takes_stringRound_nil.done
  | case2 c =>
      obtain ⟨fuel, rfl⟩ : ∃ k, fuel = k + 1 + 1 := Nat.exists_eq_add_of_le' (Nat.succ_le_of_lt h)
      by_cases hescape : quote = '\x22' ∧ c = '\x60'
      · rw [decide_eq_false (by rw [hescape.1, hescape.2]; decide)]
        exact (takes_stringRound_escape hescape).yield (k := 0) takes_stringRound_nil.done
      by_cases hc : c = quote
      · rw [decide_eq_true hc]
        exact (takes_stringRound_close hescape hc (by simp)).done
      · rw [decide_eq_false hc]
        exact (takes_stringRound_other hescape hc).yield (k := 0) takes_stringRound_nil.done
  | case3 c d cs hpair n closed heq ih =>
      obtain ⟨fuel, rfl⟩ := Nat.exists_eq_add_of_lt h
      rw [heq] at ih
      rw [Nat.add_comm n]
      exact (takes_stringRound_pair hpair).yield (ih _ (by simp; omega))
  | case4 d cs hpair =>
      obtain ⟨fuel, rfl⟩ := Nat.exists_eq_add_of_lt h
      refine (takes_stringRound_close ?_ rfl ?_).done
      · exact fun h => hpair (.inl h)
      · exact fun h => hpair (.inr ⟨rfl, Option.some.inj h⟩)
  | case5 c d cs hpair hc n closed heq ih =>
      obtain ⟨fuel, rfl⟩ := Nat.exists_eq_add_of_lt h
      rw [heq] at ih
      rw [Nat.add_comm n]
      refine (takes_stringRound_other ?_ hc).yield (ih _ ?_)
      · exact fun h => hpair (.inl h)
      · simp
        omega

end Strings

section Types

variable {c : Char} {cs : List Char} {depth : Nat}

theorem takes_typeRound_end (h : isLineEnd c) :
    Takes (typeRound depth) (c :: cs) (.done 0) 0 := by
  refine takes_peek.look ?_
  dsimp only [List.head?_cons]
  rw [if_pos h]
  exact Takes.pure _

theorem takes_typeRound {a : ForInStep Nat} (hend : ¬isLineEnd c)
    (h : Takes (countBracket depth c) cs a 0) : Takes (typeRound depth) (c :: cs) a 1 := by
  refine takes_peek.look ?_
  dsimp only [List.head?_cons]
  rw [if_neg hend]
  exact Takes.bump h

theorem takes_countBracket_open : Takes (countBracket depth '[') cs (.yield (depth + 1)) 0 :=
  Takes.pure _

/-- The last bracket open is closed. -/
theorem takes_countBracket_last (hpos : 0 < depth) (hlast : depth ≤ 1) :
    Takes (countBracket depth ']') cs (.done 0) 0 := by
  obtain rfl : depth = 1 := by omega
  exact Takes.pure _

theorem takes_countBracket_close (hmore : ¬depth ≤ 1) :
    Takes (countBracket depth ']') cs (.yield (depth - 1)) 0 := by
  obtain ⟨k, rfl⟩ : ∃ k, depth = k + 2 := ⟨depth - 2, by omega⟩
  exact Takes.pure _

theorem takes_countBracket_other (hopen : c ≠ '[') (hclose : c ≠ ']') :
    Takes (countBracket depth c) cs (.yield depth) 0 := by
  unfold countBracket
  rw [if_neg hopen, if_neg hclose]
  exact Takes.pure _

/-- A type literal is read to its end, round by round; as long as it goes on a bracket is open, so no
bracket is closed that is not. -/
theorem takes_typeRounds (hdepth : 0 < depth) (fuel : Nat) (h : rest.length < fuel) :
    Takes (rounds typeRound fuel depth) rest 0 (typeLength depth rest) := by
  induction rest generalizing depth fuel with
  | nil =>
      obtain ⟨fuel, rfl⟩ := Nat.exists_eq_add_of_lt h
      refine Takes.done ?_
      exact takes_peek.look (Takes.pure _)
  | cons c cs ih =>
      obtain ⟨fuel, rfl⟩ := Nat.exists_eq_add_of_lt h
      have hnext {depth' : Nat} (hdepth' : 0 < depth') (hend : ¬isLineEnd c)
          (hround : Takes (countBracket depth c) cs (.yield depth') 0) :
          Takes (rounds typeRound ((c :: cs).length + fuel + 1) depth) (c :: cs) 0
            (typeLength depth' cs + 1) := by
        rw [Nat.add_comm (typeLength _ _)]
        refine (takes_typeRound hend hround).yield (ih hdepth' _ ?_)
        rw [List.length_cons]
        omega
      rw [typeLength]
      split_ifs with hend hopen hclose hlast
      · exact (takes_typeRound_end hend).done
      · exact hnext (Nat.succ_pos depth) hend (hopen ▸ takes_countBracket_open)
      · exact (takes_typeRound hend (hclose ▸ takes_countBracket_last hdepth hlast)).done
      · exact hnext (by omega) hend (hclose ▸ takes_countBracket_close hlast)
      · exact hnext hdepth hend (takes_countBracket_other hopen hclose)

end Types

/-- What stands behind the first `>` of a redirection. -/
theorem takes_arrowTail (cs : List Char) : Takes arrowTail cs () (redirectionTail cs) := by
  unfold redirectionTail
  split
  case h_1 cs => exact (takes_bumpIf '>' cs).bind (k := 0) (Takes.pure _)
  case h_2 d cs =>
    refine (takes_bumpIf_of_ne (by simp)).look ?_
    rw [if_neg Bool.false_ne_true]
    refine takes_peek.look ?_
    refine (takes_peekNth 1).look ?_
    split_ifs with h hd hd
    · exact Takes.bump (Takes.bump (Takes.pure _))
    · exact absurd h.2 hd
    · exact absurd ⟨rfl, hd⟩ h
    · exact Takes.pure _
  case h_3 hdouble hcall =>
    refine (takes_bumpIf_of_ne fun h => ?_).look ?_
    · obtain ⟨ds, rfl⟩ := List.head?_eq_some_iff.mp h
      exact hdouble ds rfl
    rw [if_neg Bool.false_ne_true]
    refine takes_peek.look ?_
    refine (takes_peekNth 1).look ?_
    rw [if_neg fun h => ?_]
    · exact Takes.pure _
    · obtain ⟨ds, rfl⟩ := List.head?_eq_some_iff.mp h.1
      cases ds with
      | nil => cases h.2
      | cons e es => exact hcall e es rfl

theorem reach_cons_of_ne {pattern cs : List Char} {c : Char}
    (h : pattern.isPrefixOf (c :: cs) = false) :
    (reach pattern (c :: cs)).1 = (reach pattern cs).1 + 1 := by
  unfold reach
  rw [lengthThrough?, h]
  cases lengthThrough? pattern cs <;> rfl

namespace Answers

variable {c : Char} {cs : List Char}

theorem string : Answers (Scanner.string c) c cs (scanString c cs) := by
  refine Takes.bump ?_
  have hrounds (fuel : Nat) (h : cs.length < fuel) :
      Takes (rounds (stringRound c) fuel false) cs (quotedLength c cs).2 (quotedLength c cs).1 :=
    takes_stringRounds fuel h
  exact (Takes.repeating hrounds).answer fun closed => TokenKind.string !closed

theorem typeLiteral : Answers Scanner.typeLiteral '[' cs (.typeLiteral, typeLength 1 cs) := by
  have hrounds (fuel : Nat) (h : ('[' :: cs).length < fuel) :
      Takes (rounds typeRound fuel 0) ('[' :: cs) 0 (typeLength 1 cs + 1) := by
    obtain ⟨fuel, rfl⟩ := Nat.exists_eq_add_of_lt h
    rw [Nat.add_comm (typeLength _ _)]
    refine (takes_typeRound (by decide) takes_countBracket_open).yield
      (takes_typeRounds Nat.one_pos _ ?_)
    exact Nat.lt_add_right fuel (Nat.lt_succ_self cs.length)
  exact (Takes.repeating hrounds).answer fun _ => TokenKind.typeLiteral

theorem atSign : Answers Scanner.atSign c cs (scanAt cs) := by
  refine Takes.bump ?_
  refine takes_peek.look ?_
  cases cs with
  | nil => exact Takes.pure _
  | cons d ds =>
      rw [scanAt]
      refine Takes.pair (fun _ => single _) fun _ => ?_
      refine Takes.pair (fun _ => single _) fun _ => ?_
      refine Takes.pair (fun _ => hereString d) fun _ => ?_
      exact Takes.pair (fun _ => takes_run _ _ _) fun _ => Takes.pure _

theorem dollar : Answers Scanner.dollar c cs (scanDollar cs) := by
  refine Takes.bump ?_
  refine takes_peek.look ?_
  cases cs with
  | nil => exact Takes.pure _
  | cons d ds =>
      rw [scanDollar]
      refine Takes.pair (fun _ => single _) fun _ => ?_
      refine Takes.pair (fun h => ?_) fun _ => ?_
      · have htakes := takes_through [] ['\x7d'] (d :: ds)
        rw [List.length_nil, Nat.zero_add, reach_cons_of_ne (by rw [h]; rfl)] at htakes
        exact htakes.answer fun _ => TokenKind.variable
      · refine Takes.pair (fun _ => single _) fun _ => ?_
        exact Takes.pair (fun _ => takes_run _ _ _) fun _ => Takes.pure _

theorem parameter : Answers Scanner.parameter c cs (scanParameter cs) := by
  refine Takes.bump ?_
  dsimp only [scanParameter]
  split
  case isTrue h =>
    obtain ⟨ds, hds⟩ := List.head?_eq_some_iff.mp h
    refine (takes_bumpWhile _ _).bind ?_
    rw [hds]
    exact (takes_bumpIf ':' ds).answer TokenKind.parameter
  case isFalse h =>
    refine (takes_bumpWhile _ _).bind (k := 0) ?_
    exact (takes_bumpIf_of_ne h).answer TokenKind.parameter

/-- A run of characters that is not empty, so the offset is another one behind it. -/
theorem word (h : ¬isWordBreak c) :
    Answers Scanner.word c cs (.word, runLength (fun d => !isWordBreak d) cs) := fun before => by
  have htakes := takes_bumpWhile (fun d => !isWordBreak d) (c :: cs) before
  rw [runLength_cons, if_pos (by simpa using h)] at htakes
  have hmoved : utf8Len (before ++ (c :: cs).take (runLength (fun d => !isWordBreak d) cs + 1)) ≠
      utf8Len before := by
    have := c.utf8Size_pos
    rw [String.utf8Len_append, List.take_succ_cons, String.utf8Len_cons]
    omega
  unfold Scanner.word
  rw [get_bind, bind_of_ok htakes, get_bind]
  dsimp only
  rw [if_neg hmoved]
  rfl

/-- An empty run; the character is taken all the same. -/
theorem lone (h : isWordBreak c) : Answers Scanner.word c cs (.word, 0) := fun before => by
  have htakes := takes_bumpWhile (fun d => !isWordBreak d) (c :: cs) before
  rw [runLength_cons, if_neg (by simpa using h), List.take_zero, List.append_nil] at htakes
  unfold Scanner.word
  rw [get_bind, bind_of_ok htakes, get_bind]
  dsimp only
  rw [if_pos rfl]
  exact Takes.bump (Takes.pure TokenKind.word) before

theorem arrow : Answers redirection '>' cs (.redirection, redirectionTail cs) := by
  refine takes_peek.look ?_
  dsimp only
  rw [if_neg fun h => h.1 rfl]
  refine Takes.bump ?_
  rw [if_pos rfl]
  exact (takes_arrowTail cs).answer fun _ => TokenKind.redirection

theorem inputArrow : Answers redirection '<' cs (.redirection, 0) := by
  refine takes_peek.look ?_
  dsimp only
  rw [if_neg fun h => h.2 rfl]
  exact Takes.bump (Takes.pure _)

theorem stream (hc : c ≠ '>' ∧ c ≠ '<') (h : cs.head? = some '>') :
    Answers redirection c cs (.redirection, redirectionTail cs.tail + 1) := by
  obtain ⟨ds, rfl⟩ := List.head?_eq_some_iff.mp h
  refine takes_peek.look ?_
  dsimp only
  rw [if_pos ⟨fun h => hc.1 (Option.some.inj h), fun h => hc.2 (Option.some.inj h)⟩]
  refine Takes.bump (Takes.bump ?_)
  rw [if_pos rfl]
  exact (takes_arrowTail ds).answer fun _ => TokenKind.redirection

-- One step for each line of `scan`, in its order.
theorem kind (c : Char) (cs : List Char) : Answers (Scanner.kind c) c cs (scan c cs) := by
  have hnext : (c :: cs)[1]? = cs.head? := by cases cs <;> rfl
  unfold scan
  refine (takes_peekNth 1).look ?_
  rw [hnext]
  refine either (fun h => h ▸ lineFeed) (fun h => h ▸ carriageReturn) fun hend => ?_
  refine pair (fun h => continuation h.2) fun _ => ?_
  refine pair (fun h => run _ (by simp [h, isLineEnd, not_or.mp hend])) fun _ => ?_
  refine pair (fun h => run _ (by rw [h]; decide)) fun _ => ?_
  refine pair (fun h => h.1 ▸ blockComment h.2) fun _ => ?_
  iterate 6 refine pair (fun _ => single _) fun _ => ?_
  refine pair (fun _ => doubled _ _ _) fun _ => ?_
  refine pair (fun _ => doubled _ _ _) fun _ => ?_
  refine pair (fun _ => string) fun _ => ?_
  refine pair (fun _ => atSign) fun _ => ?_
  refine pair (fun _ => dollar) fun _ => ?_
  refine pair (fun h => h ▸ typeLiteral) fun _ => ?_
  refine either (fun h => h ▸ arrow) (fun h => h ▸ inputArrow) fun harrow => ?_
  refine pair (fun h => stream (not_or.mp harrow) h.2) fun _ => ?_
  refine pair (fun _ => parameter) fun _ => ?_
  split
  case isTrue h => exact lone h
  case isFalse h => exact word h

end Answers

/-- The token that starts with the next character, from any place of a script. -/
theorem tokenRound_cons (ts : List Token) (before : List Char) (c : Char) (cs : List Char) :
    tokenRound ts (String.ofList (before ++ c :: cs)) (utf8Len before) =
      .ok (.yield (ts ++ [token (utf8Len before) c cs]),
        utf8Len (before ++ c :: cs.take (scan c cs).2)) := by
  have htext := slice_ofList before (c :: cs.take (scan c cs).2) (cs.drop (scan c cs).2)
  rw [List.cons_append, List.take_append_drop] at htext
  unfold tokenRound
  rw [get_bind, bind_of_ok (takes_peek before)]
  dsimp only [List.head?_cons]
  rw [List.take_zero, List.append_nil, bind_of_ok (Answers.kind c cs before), List.take_succ_cons,
    get_bind, bind_of_ok (htext _)]
  rfl

theorem tokenRound_nil (ts : List Token) (before : List Char) :
    tokenRound ts (String.ofList (before ++ [])) (utf8Len before) =
      .ok (.done ts, utf8Len before) := by
  unfold tokenRound
  rw [get_bind, bind_of_ok (takes_peek before), List.take_zero, List.append_nil]
  rfl

/-- Round by round the tokens ahead are read, through the last character. -/
theorem rounds_tokenRound (fuel : Nat) (ts : List Token) (before : List Char)
    (h : rest.length < fuel) :
    rounds tokenRound fuel ts (String.ofList (before ++ rest)) (utf8Len before) =
      .ok (ts ++ tokensFrom 0 (utf8Len before) rest, utf8Len (before ++ rest)) := by
  induction fuel generalizing ts before rest with
  | zero => exact absurd h (Nat.not_lt_zero _)
  | succ fuel ih =>
      rw [rounds]
      cases rest with
      | nil =>
          rw [bind_of_ok (tokenRound_nil ts before), tokensFrom_nil, List.append_nil,
            List.append_nil]
          rfl
      | cons c cs =>
          -- The characters of the token are there, so what is ahead behind it is the rest of the text.
          have htake : (cs.take (scan c cs).2).length = (scan c cs).2 :=
            List.length_take_of_le (Fits.scanned c cs).length_le
          have hbehind := tokensFrom_length_add 0 (utf8Len before + c.utf8Size)
            (cs.take (scan c cs).2) (cs.drop (scan c cs).2)
          rw [htake, Nat.add_zero, List.take_append_drop] at hbehind
          have hlength : (cs.drop (scan c cs).2).length < fuel := by
            rw [List.length_drop]
            exact Nat.lt_of_le_of_lt (Nat.sub_le _ _) (Nat.lt_of_succ_lt_succ h)
          have hrest := ih (ts ++ [token (utf8Len before) c cs])
            (before ++ c :: cs.take (scan c cs).2) hlength
          rw [List.append_assoc, List.cons_append, List.take_append_drop] at hrest
          rw [bind_of_ok (tokenRound_cons ts before c cs)]
          refine hrest.trans ?_
          rw [tokensFrom_zero_cons, hbehind, String.utf8Len_append, String.utf8Len_cons,
            List.append_assoc, List.singleton_append, Nat.add_comm (utf8Len _) c.utf8Size,
            ← Nat.add_assoc]

/-- The run over a script ends at the script's end, with the script's tokens. -/
theorem tokens_eq (source : String) :
    tokens source = .ok (tokenize source, source.utf8ByteSize) := by
  have hlength : source.toList.length < source.utf8ByteSize + 1 := by
    rw [← String.utf8Len_toList]
    exact Nat.lt_succ_of_le (length_le_utf8Len _)
  have h := rounds_tokenRound (source.utf8ByteSize + 1) [] [] hlength
  rwa [List.nil_append, List.nil_append, String.ofList_toList, String.utf8Len_toList] at h

end Scanner

/-- The tokens of a script tile it. The run over its bytes, in which each step may stand inside of a
character, behind the end, or on one place for ever, comes to the end of the script and has found just
these tokens. They reach from the first byte to the last, each starting where the one before it stops and
none empty; their bounds stand between characters, what they say is what the script says there, and what
`Lexer.scan` answers with, which is never more than there is. -/
theorem tokenize_tiles_source (source : String) :
    Scanner.tokens source = .ok (tokenize source, source.utf8ByteSize) ∧
      Tiles 0 (tokenize source) source.utf8ByteSize ∧
      (∀ t ∈ tokenize source,
        String.Pos.Raw.IsValid source ⟨t.start⟩ ∧ String.Pos.Raw.IsValid source ⟨t.stop⟩ ∧
          String.Pos.Raw.extract source ⟨t.start⟩ ⟨t.stop⟩ = t.text ∧
          ∃ before c behind, source.toList = before ++ c :: behind ∧
            t = Lexer.token (String.utf8Len before) c behind ∧
            Lexer.Fits c behind (Lexer.scan c behind) ∧
            t.text.length = (Lexer.scan c behind).2 + 1) ∧
      String.join ((tokenize source).map Token.text) = source := by
  refine ⟨Scanner.tokens_eq source, tiles_tokenize source, fun t ht => ⟨?_, ?_, extract_token ht, ?_⟩,
    join_text_tokenize source⟩
  · simpa using isValid_in_token ht "" t.text (by simp)
  · exact isValid_in_token ht t.text "" (by simp)
  · obtain ⟨before, c, behind, hsource, rfl⟩ := Lexer.exists_of_mem_tokensFrom ht
    have hfits := Lexer.Fits.scanned c behind
    rw [Nat.zero_add]
    refine ⟨before, c, behind, hsource, rfl, hfits, ?_⟩
    rw [← String.length_toList, Lexer.toList_text_token, List.length_cons,
      List.length_take_of_le hfits.length_le]

end ScriptLint
