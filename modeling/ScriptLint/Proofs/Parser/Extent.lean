import ScriptLint.Proofs.Parser.Movement
import ScriptLint.Syntax.Parse.Group

/-!
Where what a parse reads starts and stops. An operand starts with the token ahead, and it stops with the last
token that counts when it has been read, or with the script where a group is not closed: so no token that
counts is passed behind it.
-/

namespace ScriptLint

open ScriptLint.Parser Cursor

/-- What stands at `s` has been read on the way from `c` to `d`, with nothing that counts around it. -/
structure Cursor.Extent (c d : Cursor) (s : Span) : Prop where
  start_eq : s.start = c.offset
  stop_eq : s.stop = d.lastEnd ∨ s.stop = d.size

/-- Whatever group starts at a cursor has its extent. -/
structure Groups.Extents (g : Groups) : Prop where
  block : ∀ c, Gives g.block c fun b d => Extent c d b.span
  subexpression : ∀ c, Gives g.subexpression c fun e d => Extent c d e.span
  hashtable : ∀ c, Gives g.hashtable c fun e d => Extent c d e.span

namespace Parse

variable {g : Groups} {b c d : Cursor} {t : Token} {ts : List Token}

/-- An operand has its extent; one that is missing leaves the cursor where it was. -/
def Extends (c : Cursor) : Option Expression → Cursor → Prop
  | none, d => d = c
  | some e, d => Extent c d e.span

/-- The parts of an operand that starts at `b`. -/
def Parted (b : Cursor) (parts : Array Expression) (d : Cursor) : Prop :=
  ∃ first rest, parts.toList = first :: rest ∧ first.span.start = b.offset ∧
    (rest = [] → Extent b d first.span)

theorem extent_pass (hrest : c.rest = t :: ts) (ht : t.kind.isSpacing = false) :
    Extent c (c.pass t ts) t.span :=
  ⟨(offset_eq_start hrest).symm, .inl (lastEnd_pass ht).symm⟩

theorem advance_extent {kind : TokenKind} (hk : c.kind? = some kind) (hkind : kind.isSpacing = false) :
    Gives advance c fun t d => Extent c d t.span := by
  obtain ⟨t, ts, hrest, rfl⟩ := kind?_eq_some.mp hk
  exact (holds_advance hrest).mpr (extent_pass hrest hkind)

theorem checkClosed_keeps : Gives (checkClosed t) c fun _ d => d.lastEnd = c.lastEnd ∧ d.size = c.size := by
  unfold checkClosed
  split <;> exact ⟨rfl, rfl⟩

theorem primary_extent (hg : g.Extents) : Gives (primary g) c (Extends c) := by
  rw [primary, Gives, holds_get_bind]
  split
  case h_1 hk | h_3 hk | h_4 hk => exact (advance_extent hk rfl).bind fun _ _ hd => hd
  case h_2 hk =>
    refine (advance_extent hk rfl).bind fun t d hd => checkClosed_keeps.bind fun _ e hkept => ?_
    exact ⟨hd.start_eq, by rw [hkept.1, hkept.2]; exact hd.stop_eq⟩
  case h_5 => exact (hg.block c).bind fun _ _ hd => hd
  case h_6 | h_7 | h_8 => exact (hg.subexpression c).bind fun _ _ hd => hd
  case h_9 => exact (hg.hashtable c).bind fun _ _ hd => hd
  case h_10 => rfl

theorem argumentAtom_extent (hg : g.Extents) : Gives (argumentAtom g) c (Extends c) := by
  rw [argumentAtom, Gives, holds_get_bind]
  split
  case h_1 hk | h_2 hk => exact (advance_extent hk rfl).bind fun _ _ hd => hd
  case h_3 => exact primary_extent hg

theorem Parted.single {e : Expression} (h : Extent b d e.span) : Parted b #[e] d :=
  ⟨e, [], rfl, h.start_eq, fun _ => h⟩

theorem Parted.push {parts : Array Expression} {part : Expression} (h : Parted b parts c) :
    Parted b (parts.push part) d := by
  obtain ⟨first, rest, hparts, hstart, -⟩ := h
  exact ⟨first, rest ++ [part], by rw [Array.toList_push, hparts]; rfl, hstart, by simp⟩

theorem joined_extent {parts : Array Expression} (h : Parted b parts c) :
    Gives (joined parts.toList) c (Extends b) := by
  obtain ⟨first, rest, hparts, hstart, hextent⟩ := h
  rw [hparts]
  cases rest with
  | nil => exact hextent rfl
  | cons second rest => exact gives_spanFrom_bind fun _ => ⟨hstart, .inl rfl⟩

theorem adjacentRound_extent (hg : g.Extents) {parts : Array Expression} (h : Parted b parts c) :
    Gives (adjacentRound g parts) c (Kept (Parted b)) := by
  rw [adjacentRound, Gives, holds_get_bind]
  split
  case isTrue =>
    refine (argumentAtom_extent hg).bind fun part? d hd => ?_
    cases part? with
    | none =>
        obtain rfl := hd
        exact h
    | some part => exact h.push
  case isFalse => exact h

theorem adjacent_extent (hg : g.Extents) : Gives (adjacent g) c (Extends c) := by
  refine (argumentAtom_extent hg).bind fun first? d hd => ?_
  cases first? with
  | none => exact hd
  | some first =>
      exact (repeating_keeps (Parted.single hd) fun _ _ h => adjacentRound_extent hg h).bind
        fun _ _ h => joined_extent h

theorem commaAhead_stays : Gives commaAhead c fun ahead d => ahead = false → d = c := by
  rw [commaAhead, Gives, holds_get_bind]
  split
  case isTrue => exact fun h => absurd h (by decide)
  case isFalse => exact fun _ => rfl

theorem argument_extent (hg : g.Extents) : Gives (argument g) c (Extends c) := by
  refine (adjacent_extent hg).bind fun first? d hd => ?_
  cases first? with
  | none => exact hd
  | some first =>
      refine commaAhead_stays.bind fun ahead e he => ?_
      cases ahead with
      | false =>
          obtain rfl := he rfl
          exact hd
      | true =>
          refine gives_bind fun items f => ?_
          exact gives_spanFrom_bind fun _ => ⟨hd.start_eq, .inl rfl⟩

/-- A part with a token of its own in front goes from this token to the last one that counts. -/
theorem behind_token {α β : Type} {m : Token → Parser α} {f : Token → α → Span → β} {span : β → Span}
    (hspan : ∀ t a s, span (f t a s) = s) :
    Gives (do
      let t ← advance
      let a ← m t
      return f t a (← spanFrom t.start)) c fun b d => Extent c d (span b) := by
  refine gives_advance_bind fun t ts hrest => ?_
  refine gives_bind fun a d => ?_
  refine gives_spanFrom_bind fun _ => ?_
  rw [Gives, holds_pure, hspan]
  exact ⟨(offset_eq_start hrest).symm, .inl rfl⟩

theorem redirection_extent : Gives (redirection g) c fun r d => Extent c d r.span :=
  behind_token fun _ _ _ => rfl

theorem parameter_extent : Gives (parameter g) c fun e d => Extent c d e.span :=
  behind_token fun _ _ _ => rfl

theorem expectCloser_extent (closer : Closer) :
    Gives (expectCloser closer) c fun stop d => stop = d.lastEnd ∨ stop = d.size := by
  rw [expectCloser, Gives, holds_get_bind]
  split
  case isTrue hk =>
    have hcounts : (closerKind closer).isSpacing = false := by cases closer <;> rfl
    refine (advance_extent hk hcounts).bind fun t d hd => ?_
    exact hd.stop_eq
  case isFalse => exact .inr rfl

theorem skipGroup_extent : Gives skipGroup c fun s d => Extent c d s := by
  refine gives_current_bind fun o ts hrest => ?_
  rw [Gives, holds_get_bind]
  refine gives_bind fun _ d => ?_
  rw [Gives, holds_get_bind]
  refine gives_span_bind fun _ => ⟨(offset_eq_start hrest).symm, ?_⟩
  dsimp only
  split
  · exact .inl rfl
  · exact .inr rfl

/-- A group goes from its opener to its closer, or to the end of the script. -/
theorem group_extent {α β : Type} {m : Parser α} {f : Token → α → Span → β} {span : β → Span}
    (closer : Closer) (hspan : ∀ t a s, span (f t a s) = s) :
    Gives (do
      let t ← advance
      let body ← nested m
      return f t body (← Parser.span t.start (← expectCloser closer))) c
      fun b d => Extent c d (span b) := by
  refine gives_advance_bind fun t ts hrest => ?_
  refine gives_bind fun body d => ?_
  refine (expectCloser_extent closer).bind fun stop e hstop => gives_span_bind fun _ => ?_
  rw [Gives, holds_pure, hspan]
  exact ⟨(offset_eq_start hrest).symm, hstop⟩

theorem groups_extents (levels : Nat) : (groups levels).Extents := by
  cases levels with
  | zero =>
      refine ⟨fun c => ?_, fun c => ?_, fun c => ?_⟩
      · exact skipGroup_extent.bind fun _ _ hd => hd
      · exact gives_current_bind fun _ _ _ => skipGroup_extent.bind fun _ _ hd => hd
      · exact skipGroup_extent.bind fun _ _ hd => hd
  | succ levels =>
      exact ⟨fun _ => group_extent .brace fun _ _ _ => rfl, fun _ => group_extent .paren fun _ _ _ => rfl,
        fun _ => group_extent .brace fun _ _ _ => rfl⟩

end Parse

end ScriptLint
