import ScriptLint.Proofs.Parser.Origin

/-!
A parse moves on. Its loops are bounded by the bytes ahead and by nothing else: the tokens ahead may grow in
number, as a word is cut in two, and what has been skipped may be taken up again, but a round behind which
another follows has left a byte behind for good. Cutting a word keeps the tokens, those passed and those
ahead, the pieces of the script.
-/

namespace ScriptLint

open ScriptLint.Parser ScriptLint.Parse Cursor

/-- The tokens are the pieces of the script, one behind the other, and none is empty. -/
structure Pieces (source : String) (ts : List Token) : Prop where
  tiles : Tiles 0 ts source.utf8ByteSize
  join_eq : String.join (ts.map Token.text) = source

/-- A token may be cut in two where it is not empty on either side. -/
theorem Pieces.cut {source : String} {before after : List Token} {t : Token} {head tail : String}
    (h : Pieces source (before ++ t :: after)) (htext : t.text = head ++ tail) (hhead : head ≠ "")
    (htail : tail ≠ "") :
    Pieces source (before ++ (t.cut head.utf8ByteSize).1 :: (t.cut head.utf8ByteSize).2 :: after) := by
  rw [Token.cut_eq htext]
  refine ⟨?_, ?_⟩
  · obtain ⟨m, hbefore, hstart, -, hafter⟩ := Tiles.append.mp h.tiles
    rw [Token.stop, htext, String.utf8ByteSize_append, ← Nat.add_assoc] at hafter
    exact Tiles.append.mpr ⟨m, hbefore, hstart, hhead, rfl, htail, hafter⟩
  · rw [← h.join_eq]
    simp [htext, String.append_assoc]

namespace Cursor

/-- A parse of the script may come by the cursor `c`, with the tokens `passed` behind it. -/
inductive Comes (source : String) : (passed : List Token) → Cursor → Prop
  | start : Comes source [] (ofSource source)
  | pass {passed : List Token} {c : Cursor} {t : Token} {ts : List Token} : Comes source passed c →
      c.rest = t :: ts → Comes source (passed ++ [t]) (c.pass t ts)
  /-- Tokens are left behind as if they were not there. -/
  | skip {passed : List Token} {c : Cursor} (p : TokenKind → Bool) : Comes source passed c →
      Comes source (passed ++ c.rest.takeWhile fun t => p t.kind) (c.skip p)
  /-- The token ahead becomes two. -/
  | cut {passed : List Token} {c : Cursor} {t : Token} {ts : List Token} {head tail : String} :
      Comes source passed c → c.rest = t :: ts → t.text = head ++ tail → head ≠ "" → tail ≠ "" →
      Comes source passed
        { c with rest := (t.cut head.utf8ByteSize).1 :: (t.cut head.utf8ByteSize).2 :: ts }
  | report {passed : List Token} {c : Cursor} (problem : Problem) (s : Span) : Comes source passed c →
      Comes source passed (c.report problem s)
  /-- A group is entered or left. -/
  | deep {passed : List Token} {c : Cursor} (depth : Nat) : Comes source passed c →
      Comes source passed { c with depth := depth }

variable {source : String} {passed : List Token} {c : Cursor} {t : Token} {ts : List Token}

theorem Comes.sound (h : Comes source passed c) : c.Sound := by
  induction h with
  | start => exact sound_ofSource source
  | pass _ hrest ih => exact (ih.reaches_pass hrest).sound
  | skip p _ ih => exact (ih.reaches_skip p).sound
  | cut _ hrest htext hhead htail ih => exact (ih.reaches_cut hrest htext hhead htail).sound
  | report problem s _ ih => exact (ih.reaches_report problem s).sound
  | deep _ _ ih => exact ⟨ih.tiles, ih.lastEnd_le⟩

theorem Comes.size_eq (h : Comes source passed c) : c.size = source.utf8ByteSize := by
  induction h with
  | start => rfl
  | pass _ _ ih | skip _ _ ih | cut _ _ _ _ _ ih | report _ _ _ ih | deep _ _ ih => exact ih

theorem Comes.pieces (h : Comes source passed c) : Pieces source (passed ++ c.rest) := by
  induction h with
  | start => exact ⟨tiles_tokenize source, join_text_tokenize source⟩
  | @pass passed c t ts _ hrest ih =>
      rw [hrest] at ih
      rwa [List.append_assoc]
  | @skip passed c p _ ih =>
      rwa [List.append_assoc, Cursor.skip, List.takeWhile_append_dropWhile]
  | @cut passed c t ts head tail h hrest htext hhead htail ih =>
      exact hrest ▸ ih |>.cut htext hhead htail
  | report _ _ _ ih | deep _ _ ih => exact ih

/-- What has been passed stays behind. -/
instance (source : String) (passed : List Token) :
    Lasting fun c => ∃ more, Comes source (passed ++ more) c where
  pass := fun ⟨_, hc⟩ hrest => ⟨_, List.append_assoc .. ▸ hc.pass hrest⟩
  part := fun ⟨_, hc⟩ hrest _ htext hhead htail =>
    ⟨_, List.append_assoc .. ▸ (hc.cut hrest htext hhead htail).pass rfl⟩
  skip := fun _ ⟨_, hc⟩ => ⟨_, List.append_assoc .. ▸ hc.skip _⟩
  report := fun problem s ⟨_, hc⟩ => ⟨_, hc.report problem s⟩
  deep := fun depth ⟨_, hc⟩ => ⟨_, hc.deep depth⟩

end Cursor

namespace Parse

variable {source : String} {passed : List Token} {c : Cursor} {t : Token} {ts : List Token}

/-- Whatever has been read so far, a round of the loop is the last one or passes a byte. So the loop comes to
its end, and to the same one if it is allowed more rounds than there are bytes ahead. -/
structure Advances {α : Type} (body : α → Parser (ForInStep α)) : Prop where
  round : ∀ a c, c.Sound → Ends (body a) c (Round (fun _ _ => True) c)
  ends : ∀ a c, c.Sound → ∃ x, ∀ n, c.remaining < n → rounds body n a c = .ok x

theorem advances_of_round {α : Type} {body : α → Parser (ForInStep α)}
    (h : ∀ a c, c.Sound → Ends (body a) c (Round (fun _ _ => True) c)) : Advances body := by
  refine ⟨h, fun a c hc => ?_⟩
  have hends : Ends (repeating body a) c fun _ _ => True :=
    (repeating_ends hc trivial fun a d hd _ => h a d hd.sound).mono fun _ _ _ => trivial
  obtain ⟨b, d, hrun, -⟩ := ends_iff.mp hends
  exact ⟨_, fun n hn => rounds_of_le hrun hn⟩

/-- The loops of a parse move on, those inside of groups included. -/
structure LoopsAdvance (g : Groups) : Prop where
  statements : ∀ closer, Advances (statementsRound g closer)
  clauses : ∀ keywords, Advances (compoundRound g keywords)
  clauseTypes : Advances clauseTypesRound
  stages : Advances (pipelineRound g)
  arguments : Advances (commandRound g)
  operands : Advances (expressionRound g)
  items : Advances (arrayRound g)
  pieces : Advances (adjacentRound g)
  entries : Advances (hashtableRound g)

theorem loops_advance {g : Groups} (hg : g.Safe) : LoopsAdvance g where
  statements closer := advances_of_round fun found _ hc => statementsRound_ends hg hc closer found
  clauses keywords := advances_of_round fun found _ hc => compoundRound_ends hg hc keywords found
  clauseTypes := advances_of_round fun types _ hc => clauseTypesRound_ends hc types
  stages := advances_of_round fun stages _ hc => pipelineRound_ends hg hc stages
  arguments := advances_of_round fun args _ hc => commandRound_ends hg hc args
  operands := advances_of_round fun _ _ hc =>
    expressionRound_ends hg hc trivial (fun _ => trivial) fun _ => trivial
  items := advances_of_round fun _ _ hc => arrayRound_ends hg hc
  pieces := advances_of_round fun _ _ hc => adjacentRound_ends hg hc trivial fun _ => trivial
  entries := advances_of_round fun found _ hc => hashtableRound_ends hg hc found

/-- A word is cut in front of an equals sign, with something on either side. -/
theorem cutKey_comes (hc : Comes source passed c) (hrest : c.rest = t :: ts) :
    Ends (cutKey t) c fun _ d => Comes source passed d := by
  unfold cutKey
  split
  case h_1 => exact hc
  case h_2 key hkey =>
    obtain ⟨-, tail, htext, hhead, htail⟩ := keyOf?_eq_some hkey
    rw [Ends, Holds, cut_of_append hrest htext]
    exact hc.cut hrest htext hhead htail

/-- An operator is passed with its word or as the first part of it. -/
theorem passOperator_comes (hc : Comes source passed c) (hrest : c.rest = t :: ts) {head tail : String}
    (htext : t.text = head ++ tail) (hhead : head ≠ "") :
    Ends (passOperator head.utf8ByteSize) c fun operator d => Comes source (passed ++ [operator]) d := by
  rw [Ends, holds_passOperator hrest htext]
  split
  case isTrue => exact hc.pass hrest
  case isFalse htail => exact (hc.cut hrest htext hhead htail).pass rfl

/-- Statements are read to their end, and what has been passed on the way is behind. -/
theorem statements_come (levels : Nat) (closer : Option Closer) (hc : Comes source passed c) :
    Ends (statements (groups levels) closer) c fun _ d => ∃ more, Comes source (passed ++ more) d := by
  obtain ⟨body, d, hrun, -⟩ := ends_iff.mp (statements_ends (groups_safe levels) hc.sound closer)
  have hmoves := makes_statements (I := fun c => ∃ more, Comes source (passed ++ more) c)
    (groups_makes levels) closer
  have hstart : ∃ more, Comes source (passed ++ more) c := ⟨[], by rwa [List.append_nil]⟩
  exact ends_iff.mpr ⟨body, d, hrun, (gives_iff.mp (hmoves c hstart) body d hrun).1⟩

end Parse

/-- A word ahead starts with an operator of `n` bytes that a parse passes by itself: one that assigns, or the
equals sign behind the key of an entry. -/
def Cursor.AtOperator (c : Cursor) (n : Nat) : Prop :=
  assignmentAhead? c = some n ∨
    n = 1 ∧ ∃ t ts, c.rest = t :: ts ∧ t.kind = .word ∧ t.text.toList.head? = some '='

theorem Cursor.AtOperator.exists_append {c : Cursor} {n : Nat} (h : c.AtOperator n) :
    ∃ t ts head tail, c.rest = t :: ts ∧ t.text = head ++ tail ∧ head ≠ "" ∧ n = head.utf8ByteSize := by
  obtain h | ⟨rfl, t, ts, hrest, -, hequals⟩ := h
  · obtain ⟨t, ts, head, tail, hrest, -, htext, hhead, hn⟩ := exists_of_assignmentAhead? h
    exact ⟨t, ts, head, tail, hrest, htext, hhead, hn⟩
  · obtain ⟨tail, htext⟩ := exists_behind_equals hequals
    exact ⟨t, ts, "=", _, hrest, htext, by decide, rfl⟩

/-- A parse moves on, and so it comes to its end. Wherever it comes by, the tokens passed and those ahead are
the pieces of the script, also behind the words that it cuts. From there every round of its loops is the last
one or leaves fewer bytes ahead, whatever is wrong with the script, and so the statements of every group, and
those of the script, are read to their end. -/
theorem parse_moves_on (source : String) :
    (∀ passed c, Comes source passed c →
      c.Sound ∧ c.size = source.utf8ByteSize ∧ Pieces source (passed ++ c.rest)) ∧
    (∀ passed c t ts, Comes source passed c → c.rest = t :: ts →
      Ends (cutKey t) c fun _ d => Comes source passed d) ∧
    (∀ passed c n, Comes source passed c → c.AtOperator n →
      Ends (passOperator n) c fun operator d => Comes source (passed ++ [operator]) d) ∧
    (∀ levels, LoopsAdvance (groups levels)) ∧
    (∀ levels closer passed c, Comes source passed c →
      Ends (statements (groups levels) closer) c fun _ d => ∃ more, Comes source (passed ++ more) d) ∧
    ∃ body c passed, Parse.run source = .ok (body, c) ∧ Comes source passed c := by
  refine ⟨fun passed c hc => ⟨hc.sound, hc.size_eq, hc.pieces⟩, fun _ _ _ _ => cutKey_comes,
    fun passed c n hc hn => ?_, fun levels => loops_advance (groups_safe levels),
    fun levels closer _ _ => statements_come levels closer, ?_⟩
  · obtain ⟨t, ts, head, tail, hrest, htext, hhead, rfl⟩ := hn.exists_append
    exact passOperator_comes hc hrest htext hhead
  · obtain ⟨body, c, hrun, passed, hc⟩ := ends_iff.mp (statements_come maxNesting none (@Comes.start source))
    exact ⟨body, c, passed, hrun, hc⟩

end ScriptLint
