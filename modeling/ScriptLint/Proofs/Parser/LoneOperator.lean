import Mathlib.Data.List.TakeWhile
import ScriptLint.Proofs.Parser.Progress

/-!
Stages and statements that are missing. A loop over statements sees from its place that no statement was there,
and reports the token that it stands at. So a step that finds nothing must leave the tokens where they are, blanks
and comments apart. All do but one: an operator that calls a command is passed before it is known whether a
command follows. One that stands alone is lost, and nothing is said of it.
-/

namespace ScriptLint

open ScriptLint.Parser ScriptLint.Parse Cursor

namespace Cursor

/-- On its way from `c` to `d` a parse has passed nothing but blanks and comments, and it has reported
nothing. -/
structure Idles (c d : Cursor) : Prop where
  eq : d = { c with rest := d.rest }
  passed : ∃ ts, c.rest = ts ++ d.rest ∧ ∀ t ∈ ts, t.kind.isTrivia

/-- Behind blanks, an operator that calls a command is ahead of `c`, and `d` is where the command would be. -/
inductive LoneOperator (c : Cursor) : Cursor → Prop
  | intro {t : Token} {ts : List Token} (hrest : c.skipBlanks.rest = t :: ts)
    (hoperator : t.kind = .ampersand ∨ t.kind = .word ∧ sourcing t ts)
    (hnone : (c.skipBlanks.pass t ts).skipBlanks.kind?.any opensOperand = false) :
    LoneOperator c (c.skipBlanks.pass t ts).skipBlanks

/-- Nothing was to be read at `c`, and `d` is what is left. -/
inductive Missing (c d : Cursor) : Prop
  | idle (h : Idles c d) (hend : ∀ k ∈ d.kind?, k.isTerminator)
  | operator (h : LoneOperator c d)

variable {c d e : Cursor} {t : Token} {ts : List Token}

theorem Idles.refl (c : Cursor) : Idles c c := ⟨rfl, [], rfl, nofun⟩

theorem Idles.trans (h : Idles c d) (h' : Idles d e) : Idles c e := by
  obtain ⟨us, hus, htrivia⟩ := h.passed
  obtain ⟨vs, hvs, htrivia'⟩ := h'.passed
  refine ⟨?_, us ++ vs, ?_, List.forall_mem_append.mpr ⟨htrivia, htrivia'⟩⟩
  · rw [h'.eq, h.eq]
  · rw [hus, hvs, List.append_assoc]

theorem idles_skipBlanks (c : Cursor) : Idles c c.skipBlanks := by
  refine ⟨rfl, _, List.takeWhile_append_dropWhile.symm, fun t ht => ?_⟩
  have hblank := List.mem_takeWhile_imp (p := fun t : Token => decide (t.kind = .whitespace)) ht
  rw [of_decide_eq_true hblank]
  rfl

theorem idles_pass (hrest : c.rest = t :: ts) (ht : t.kind.isTrivia) : Idles c (c.pass t ts) := by
  refine ⟨?_, [t], hrest, List.forall_mem_singleton.mpr ht⟩
  rw [pass, if_pos (TokenKind.isSpacing_of_isTrivia _ ht)]

/-- Where something else is ahead, nothing at all has been passed. -/
theorem Idles.eq_of_rest (h : Idles c d) (hrest : c.rest = t :: ts) (ht : ¬t.kind.isTrivia) : d = c := by
  obtain ⟨us, hus, htrivia⟩ := h.passed
  cases us with
  | nil => rw [h.eq, ← List.nil_append d.rest, ← hus]
  | cons u us =>
      obtain rfl : u = t := (List.cons.inj (hus.symm.trans hrest)).1
      exact absurd (htrivia u List.mem_cons_self) ht

end Cursor

namespace Parse

variable {g : Groups} {c d : Cursor} {t : Token} {ts : List Token} {k : TokenKind}

theorem opensOperand_of (htrivia : ¬k.isTrivia) (hend : ¬k.isTerminator)
    (hother : ¬(k = .word ∨ isParameter k ∨ k = .comma ∨ k = .redirection)) : opensOperand k := by
  cases k <;> first | rfl | exact absurd rfl htrivia | exact absurd rfl hend | simp [isParameter] at hother

theorem primary_eq_none (h : c.kind?.any opensOperand = false) :
    primary g c = .ok (none, c) := by
  rw [primary, get_bind_run]
  cases hk : c.kind? with
  | none => rfl
  | some k =>
      rw [hk] at h
      cases k <;> first | rfl | cases h

theorem primary_missing : Gives (primary g) c fun e? d =>
    e? = none → d = c ∧ c.kind?.any opensOperand = false := by
  by_cases h : c.kind?.any opensOperand
  · obtain ⟨k, hk, hopens⟩ : ∃ k, c.kind? = some k ∧ opensOperand k := by
      cases hk : c.kind? <;> simp_all
    refine (primary_of_opensOperand hk hopens).mono fun e? _ he hnone => ?_
    rw [hnone] at he
    cases he
  · have hnone := Bool.eq_false_of_not_eq_true h
    rw [Gives, Holds, primary_eq_none hnone]
    exact fun _ => ⟨rfl, hnone⟩

/-- Nothing is to be said of a step that finds something. -/
theorem gives_of_some {α β : Type} {m : Parser α} {f : α → β} {Q : Cursor → Prop} :
    Gives (m >>= fun a => pure (some (f a))) c fun b? d => b? = none → Q d :=
  gives_bind fun _ _ h => absurd h (Option.some_ne_none _)

/-- An expression without parts is none at all. -/
theorem expression_missing : Gives (expression g) c fun e? d =>
    e? = none → Idles c d ∧ ∀ k ∈ d.kind?, k.isTerminator := by
  refine (gives_repeating (I := fun es d => es = #[] → Idles c d)
    (Q := fun es d => es = #[] → Idles c d ∧ ∀ k ∈ d.kind?, k.isTerminator) (fun _ => .refl c)
    fun es d h => ?_).bind fun es d h => ?_
  · rw [expressionRound, Gives, holds_get_bind]
    split
    case h_1 hrest => exact fun hes => ⟨h hes, by simp [kind?_of_rest_nil hrest]⟩
    case h_2 t ts hrest =>
      split_ifs with htrivia hend hassigns hword
      · exact (holds_advance_bind hrest).mpr fun hes => (h hes).trans (idles_pass hrest htrivia)
      · exact fun hes => ⟨h hes, by simpa [kind?_of_rest hrest] using hend⟩
      · exact fun hes => absurd hassigns.2.1 (by simp [hes])
      · exact gives_bind fun _ _ hes => absurd hes Array.push_ne_empty
      · refine (primary_of_opensOperand (kind?_of_rest hrest) (opensOperand_of htrivia hend hword)).bind
          fun e? _ he => ?_
        obtain ⟨e, rfl⟩ := Option.isSome_iff_exists.mp he
        exact fun hes => absurd hes Array.push_ne_empty
  · unfold joined
    split
    case h_1 hnil => exact fun _ => h (Array.toList_eq_nil_iff.mp hnil)
    case h_2 => exact fun h => absurd h (Option.some_ne_none _)
    case h_3 => exact gives_of_some

theorem calledStage_missing (hrest : c.skipBlanks.rest = t :: ts)
    (hoperator : t.kind = .ampersand ∨ t.kind = .word ∧ sourcing t ts) (operator : CallOperator) :
    Gives (calledStage g operator) c.skipBlanks fun s? d => s? = none → LoneOperator c d := by
  refine (holds_advance_bind hrest).mpr (holds_skipBlanks_bind.mpr (primary_missing.bind fun head? d h => ?_))
  cases head? with
  | none =>
      obtain ⟨rfl, hnone⟩ := h rfl
      exact fun _ => .intro hrest hoperator hnone
  | some head => exact gives_of_some

theorem stage_missing : Gives (stage g) c fun s? d => s? = none → Missing c d := by
  refine holds_skipBlanks_bind.mpr (holds_get_bind.mpr ?_)
  split
  case h_1 hrest => exact fun _ => .idle (idles_skipBlanks c) (by simp [kind?_of_rest_nil hrest])
  case h_2 t ts hrest =>
    split_ifs with hcall hsource
    · exact (calledStage_missing hrest (.inl hcall) _).mono fun _ _ h hnone => .operator (h hnone)
    · exact (calledStage_missing hrest (.inr hsource) _).mono fun _ _ h hnone => .operator (h hnone)
    · exact gives_bind fun _ _ => gives_of_some
    · refine expression_missing.bind fun e? d h hnone => ?_
      obtain ⟨hidle, hend⟩ := h (Option.map_eq_none_iff.mp hnone)
      exact .idle ((idles_skipBlanks c).trans hidle) hend

theorem pipelineStatement_missing :
    Gives (pipelineStatement g) c fun s? d => s? = none → Missing c d := by
  refine stage_missing.bind fun first? d h => ?_
  match first? with
  | none => exact fun _ => h rfl
  | some (.command i) => exact gives_of_some
  | some (.expression target) =>
    refine holds_skipBlanks_bind.mpr (holds_get_bind.mpr ?_)
    split <;> exact gives_of_some

theorem statement_missing : Gives (statement g) c fun s? d => s? = none → Missing c d := by
  rw [statement, Gives, holds_get_bind]
  split
  case h_1 | h_2 | h_3 => exact gives_of_some
  case h_4 => exact pipelineStatement_missing

theorem stage_of_loneOperator (h : LoneOperator c d) : stage g c = .ok (none, d) := by
  cases h with
  | @intro t ts hrest hoperator hnone =>
      have hcalled (operator : CallOperator) : calledStage g operator c.skipBlanks =
          .ok (none, (c.skipBlanks.pass t ts).skipBlanks) := by
        rw [calledStage, bind_run, advance_of_rest hrest]
        dsimp only [Except.bind]
        rw [skipBlanks_bind_run, bind_run, primary_eq_none hnone]
        rfl
      rw [stage, skipBlanks_bind_run, get_bind_run, hrest]
      dsimp only
      rcases hoperator with hcall | hsource
      · rw [if_pos hcall]
        exact hcalled _
      · rw [if_neg (by rw [hsource.1]; decide), if_pos hsource]
        exact hcalled _

/-- No keyword is such an operator. -/
theorem form_of_loneOperator (h : LoneOperator c d) : form c = .pipeline := by
  cases h with
  | @intro t ts hrest hoperator hnone =>
      unfold form
      split
      case h_1 => rfl
      case h_2 u us hahead =>
        by_cases hword : u.kind = .word
        · have hskip : c.skipBlanks = c := skip_of_rest hahead (by simp [hword])
          rw [hskip, hahead] at hrest
          obtain ⟨rfl, rfl⟩ := List.cons.inj hrest
          obtain ⟨-, hsource⟩ := hoperator.resolve_left (by simp [hword])
          have htext : u.text = "." := by
            rw [sourcing, Bool.and_eq_true] at hsource
            exact of_decide_eq_true hsource.1
          simp only [htext, hword, ne_eq, not_true_eq_false, if_false]
          rfl
        · exact if_pos hword

theorem statement_of_loneOperator (h : LoneOperator c d) : statement g c = .ok (none, d) := by
  rw [statement, get_bind_run, form_of_loneOperator h]
  dsimp only
  rw [pipelineStatement, bind_run, stage_of_loneOperator h]
  rfl

theorem offset_lt_of_loneOperator (hc : c.Sound) (h : LoneOperator c d) : c.offset < d.offset := by
  cases h with
  | @intro t ts hrest hoperator hnone =>
      have hskip := hc.reaches_skip (· = .whitespace)
      have hpass := hskip.sound.reaches_pass hrest
      have hbehind := hpass.sound.reaches_skip (· = .whitespace)
      calc c.offset ≤ c.skipBlanks.offset := hskip.offset_le
        _ = t.start := offset_eq_start hrest
        _ < t.stop := hskip.sound.start_lt_stop hrest
        _ = (c.skipBlanks.pass t ts).offset := (hskip.sound.offset_pass hrest).symm
        _ ≤ _ := hbehind.offset_le

/-- An operator that has been passed counts. -/
theorem not_idles_of_loneOperator (hc : c.Sound) (h : LoneOperator c d) : ¬Idles c d := by
  intro hidle
  cases h with
  | @intro t ts hrest hoperator hnone =>
      have hspacing : t.kind.isSpacing = false := by
        rcases hoperator with hcall | hsource
        · rw [hcall]
          rfl
        · rw [hsource.1]
          rfl
      have hlast : c.lastEnd = t.stop := by
        have hpass : (c.skipBlanks.pass t ts).lastEnd = t.stop := lastEnd_pass hspacing
        exact (congrArg lastEnd hidle.eq).symm.trans hpass
      have hskip : Reaches c c.skipBlanks := hc.reaches_skip _
      have hstart := hskip.offset_le
      rw [offset_eq_start hrest] at hstart
      have hstop := hskip.sound.start_lt_stop hrest
      have hfront := hc.lastEnd_le
      omega

/-- A round at a token that starts no statement reports and passes it, unless it is a lone operator. -/
theorem statementsRound_of_missing {closer : Option Closer} {found : Array Statement} (hc : c.Sound)
    (hrest : (c.skip separates).rest = t :: ts) (hcomment : t.kind ≠ .comment)
    (hcloser : closer.map closerKind ≠ some t.kind) (hrun : statement g (c.skip separates) = .ok (none, d)) :
    LoneOperator (c.skip separates) d ∧ statementsRound g closer found c = .ok (.yield found, d) ∨
      t.kind.isTerminator ∧ statementsRound g closer found c =
        .ok (.yield found, ((c.skip separates).pass t ts).report (.unexpectedToken t.text) t.span) := by
  have hround : statementsRound g closer found c =
      (reportIfAt t.start >>= fun _ => pure (.yield found) : Parser (ForInStep (Array Statement))) d := by
    rw [statementsRound, skip_bind_run, get_bind_run, hrest]
    dsimp only
    rw [if_neg hcomment, if_neg hcloser, bind_run, hrun]
    simp [Except.bind]
  have hseparates : ¬t.kind.isTrivia := by
    have hkept := not_of_rest_skip hrest
    cases hk : t.kind <;> simp_all [separates, TokenKind.isTrivia]
  rw [hround, bind_run, reportIfAt, get_bind_run]
  cases gives_iff.mp statement_missing none d hrun rfl with
  | operator h =>
      have hlt := offset_lt_of_loneOperator (hc.reaches_skip separates).sound h
      rw [offset_eq_start hrest] at hlt
      rw [if_neg (Nat.ne_of_gt hlt)]
      exact .inl ⟨h, rfl⟩
  | idle h hend =>
      obtain rfl := h.eq_of_rest hrest hseparates
      rw [if_pos (offset_eq_start hrest), reportUnexpected, bind_run, advance_of_rest hrest]
      exact .inr ⟨hend _ (kind?_of_rest hrest), rfl⟩

end Parse

/-- A stage or a statement that is missing takes nothing with it: wherever a parse comes by, what it leaves behind
there are blanks and comments, and it reports nothing. Operators that call a command are left out of this: one
with no command behind it is passed, although nothing has been read. So a loop over statements reports and passes
each token that starts no statement, but of such an operator it says nothing. -/
theorem missing_passes_nothing (source : String) (passed : List Token) (c : Cursor)
    (hc : Comes source passed c) (levels : Nat) :
    (∀ d, stage (groups levels) c = .ok (none, d) → Missing c d) ∧
    (∀ d, statement (groups levels) c = .ok (none, d) → Missing c d) ∧
    (∀ d, LoneOperator c d → stage (groups levels) c = .ok (none, d) ∧
      statement (groups levels) c = .ok (none, d) ∧ d.faults = c.faults ∧ ¬Idles c d) ∧
    ∀ closer found t ts d, (c.skip separates).rest = t :: ts → t.kind ≠ .comment →
      closer.map closerKind ≠ some t.kind → statement (groups levels) (c.skip separates) = .ok (none, d) →
      LoneOperator (c.skip separates) d ∧
          statementsRound (groups levels) closer found c = .ok (.yield found, d) ∨
        t.kind.isTerminator ∧ statementsRound (groups levels) closer found c =
          .ok (.yield found, ((c.skip separates).pass t ts).report (.unexpectedToken t.text) t.span) := by
  refine ⟨fun d h => gives_iff.mp stage_missing none d h rfl,
    fun d h => gives_iff.mp statement_missing none d h rfl, fun d h => ?_,
    fun _ _ _ _ _ => statementsRound_of_missing hc.sound⟩
  have hfaults : d.faults = c.faults := by cases h; rfl
  exact ⟨stage_of_loneOperator h, statement_of_loneOperator h, hfaults, not_idles_of_loneOperator hc.sound h⟩

theorem missing_passes_nothing_closer :
    Comes ")" [] (.ofSource ")") ∧ Missing (.ofSource ")") (.ofSource ")") ∧
      statementsRound (groups maxNesting) none #[] (.ofSource ")") = .ok (.yield #[],
        { rest := [], lastEnd := 1, size := 1, faults := #[⟨.unexpectedToken ")", ⟨0, 1⟩⟩] }) := by
  obtain ⟨hstage, -, -, hround⟩ := missing_passes_nothing ")" [] (.ofSource ")") .start maxNesting
  refine ⟨.start, hstage _ rfl, ?_⟩
  have hclosed := hround none #[] ⟨.closeParen, ")", 0⟩ [] _ rfl (by decide) (by decide) rfl
  rcases hclosed with ⟨hlone, -⟩ | ⟨-, hrun⟩
  · exact absurd (.refl _) (not_idles_of_loneOperator (sound_ofSource ")") hlone)
  · exact hrun

/-- A lone operator is all of a script: it is passed, and nothing is said. -/
theorem lone_operator_lost :
    (∃ d, stage (groups maxNesting) (.ofSource "&") = .ok (none, d) ∧
      statement (groups maxNesting) (.ofSource "&") = .ok (none, d) ∧ ¬Idles (.ofSource "&") d) ∧
    (parse "&").diagnostics = [] ∧ (parse ". ").diagnostics = [] := by
  have hlone : LoneOperator (.ofSource "&")
      ((ofSource "&").skipBlanks.pass ⟨.ampersand, "&", 0⟩ []).skipBlanks :=
    .intro (by decide +kernel) (.inl rfl) rfl
  refine ⟨⟨_, stage_of_loneOperator hlone, statement_of_loneOperator hlone, ?_⟩, ?_, ?_⟩
  · exact not_idles_of_loneOperator (sound_ofSource "&") hlone
  · decide +kernel
  · decide +kernel

end ScriptLint
