import ScriptLint.Proofs.Parser.Mirror.List

/-!
Scripts that are one stage. Where a stage takes all of a script, the script is one pipeline of this stage.
Two kinds of stages are read here to their end: an operand, and a string that is called.
-/

namespace ScriptLint.Parse

open ScriptLint.Parser Cursor
open Mirror (bind_eq_ok)

variable {g : Groups} {c d : Cursor} {t : Token} {ts : List Token}

/-- A loop of one round. -/
theorem rounds_eq_of_done {α : Type} {body : α → Parser (ForInStep α)} {a b : α} {n : Nat}
    {x : α × Cursor} (h : rounds body n a c = .ok x) (hdone : body a c = .ok (.done b, d)) :
    x = (b, d) := by
  obtain ⟨_, _, _, -, hround, hx⟩ := Mirror.Leads.rounds_eq_ok h
  rw [hdone] at hround
  cases hround
  exact hx

/-- A loop over statements that has come to the end of the script. -/
theorem rounds_of_rest_nil {closer : Option Closer} {n : Nat} {found : Array Statement}
    {x : Array Statement × Cursor} (hrest : c.rest = [])
    (h : rounds (statementsRound g closer) n found c = .ok x) : x = (found, c) :=
  rounds_eq_of_done h (Mirror.statementsRound_of_stops g found (.inl hrest))

theorem pipelineFrom_of_rest_nil {first : Stage} {x : Pipeline × Cursor} (hend : d.rest = [])
    (h : pipelineFrom g first d = .ok x) :
    x = (⟨[first], ⟨first.span.start, max d.lastEnd first.span.start⟩⟩, d) := by
  obtain ⟨stages, f, hloop, h⟩ := bind_eq_ok.mp h
  have hskip : d.skipBlanks = d := skip_of_rest_nil hend
  have hdone : pipelineRound g #[first] d = .ok (.done #[first], d) := by
    rw [pipelineRound, skipBlanks_bind_run, get_bind_run, hskip, kind?, hend]
    rfl
  cases rounds_eq_of_done hloop hdone
  obtain ⟨_, _, hget, h⟩ := bind_eq_ok.mp h
  cases hget
  obtain ⟨s, f, hspan, hreturn⟩ := bind_eq_ok.mp h
  obtain ⟨rfl, rfl⟩ := Mirror.span_eq_ok hspan
  exact (Except.ok.inj hreturn).symm

/-- The statement that a stage is by itself. -/
def alone (first : Stage) (lastEnd : Nat) : Statement :=
  .pipeline ⟨[first], ⟨first.span.start, max lastEnd first.span.start⟩⟩

section

variable {first : Stage} (hend : d.rest = []) (hstage : stage g c = .ok (some first, d))

include hend hstage

theorem pipelineStatement_of_stage {x : Option Statement × Cursor}
    (h : pipelineStatement g c = .ok x) : x = (some (alone first d.lastEnd), d) := by
  rw [pipelineStatement, bind_run, hstage] at h
  cases first with
  | command i =>
      obtain ⟨p, f, hfrom, hreturn⟩ := bind_eq_ok.mp h
      cases pipelineFrom_of_rest_nil hend hfrom
      exact (Except.ok.inj hreturn).symm
  | expression e =>
      have hskip : d.skipBlanks = d := skip_of_rest_nil hend
      have hnone : assignmentAhead? d = none := by rw [assignmentAhead?, hend]
      change (skipBlanks >>= _) d = _ at h
      rw [skipBlanks_bind_run, get_bind_run, hskip, hnone] at h
      obtain ⟨p, f, hfrom, hreturn⟩ := bind_eq_ok.mp h
      cases pipelineFrom_of_rest_nil hend hfrom
      exact (Except.ok.inj hreturn).symm

theorem statements_of_stage {body : List Statement} {f : Cursor} (hrest : c.rest = t :: ts)
    (hword : t.kind ≠ .word) (hcomment : t.kind ≠ .comment) (hseparates : separates t.kind = false)
    (hstop : t.start < d.size) (h : statements g none c = .ok (body, f)) :
    body = [alone first d.lastEnd] ∧ f = d := by
  have hskip : c.skip separates = c := skip_of_rest hrest hseparates
  obtain ⟨n, r, hloop, rfl⟩ := Mirror.statements_eq_ok h
  obtain ⟨m, s, e', rfl, hround, hloop⟩ := Mirror.Leads.rounds_eq_ok hloop
  have hopen : (none : Option Closer).map closerKind ≠ some t.kind := (Option.some_ne_none _).symm
  rw [statementsRound, skip_bind_run, get_bind_run, hskip, hrest] at hround
  dsimp only at hround
  rw [if_neg hcomment, if_neg hopen] at hround
  obtain ⟨s?, e₁, hstatement, hround⟩ := bind_eq_ok.mp hround
  rw [statement_of_not_word hrest hword] at hstatement
  cases pipelineStatement_of_stage hend hstage hstatement
  obtain ⟨_, e₂, hreport, hround⟩ := bind_eq_ok.mp hround
  have hpast : reportIfAt t.start d = .ok ((), d) := by
    have hoffset : d.offset ≠ t.start := by
      rw [offset, hend]
      exact Nat.ne_of_gt hstop
    show (if d.offset = t.start then _ else _ : Parser Unit) d = _
    rw [if_neg hoffset]
    rfl
  rw [hpast] at hreport
  cases hreport
  cases hround
  cases rounds_of_rest_nil hend hloop
  exact ⟨rfl, rfl⟩

end

theorem startsOperand_variable : StartsOperand .variable := ⟨rfl, rfl, rfl, rfl, by decide⟩

theorem primary_of_variable (hrest : c.rest = t :: ts) (ht : t.kind = .variable) :
    primary g c = .ok (some t.variableReference, c.pass t ts) := by
  rw [primary, get_bind_run, kind?_of_rest hrest, ht]
  dsimp only
  rw [bind_run, advance_of_rest hrest]
  rfl

section

variable {e : Expression} (hrest : c.rest = t :: ts) (hk : StartsOperand t.kind) (hend : d.rest = [])
  (hprimary : primary g c = .ok (some e, d))

include hrest hk hend hprimary

theorem expression_of_operand {x : Option Expression × Cursor} (h : expression g c = .ok x) :
    x = (some e, d) := by
  obtain ⟨hword, hcomma, hredirection, -⟩ := hk.ne
  have hround : expressionRound g #[] c = .ok (.yield #[e], d) := by
    rw [expressionRound, get_bind_run, hrest]
    dsimp only
    rw [if_neg (by simp [hk.isTrivia]), if_neg (by simp [hk.isTerminator]), if_neg fun h => hword h.1,
      if_neg (by simp [hword, hk.isParameter, hcomma, hredirection]), bind_run, hprimary]
    rfl
  have hdone : expressionRound g #[e] d = .ok (.done #[e], d) := by
    rw [expressionRound, get_bind_run, hend]
    rfl
  obtain ⟨parts, f, hloop, hjoined⟩ := bind_eq_ok.mp h
  cases Mirror.Leads.eq_of_yield_done hloop hround hdone
  exact (Except.ok.inj hjoined).symm

theorem stage_of_operand (hg : g.Safe) (hc : c.Sound) :
    stage g c = .ok (some (.expression e), d) := by
  obtain ⟨x, f, hrun, -⟩ := ends_iff.mp (stage_ends hg hc)
  obtain ⟨hword, -, -, hcall, -, hblank⟩ := hk.ne
  rw [hrun]
  rw [stage_of_ne hrest hblank hcall hword] at hrun
  obtain ⟨e?, f, hexpression, hreturn⟩ := bind_eq_ok.mp hrun
  cases expression_of_operand hrest hk hend hprimary hexpression
  exact hreturn.symm

end

section

variable {o b : Token} (hrest : c.rest = [o, b, t]) (ho : o.kind = .ampersand)
  (hb : b.kind = .whitespace) (ht : t.kind = .string false)

include hrest ho hb ht

/-- A string that is called, with nothing behind it. -/
theorem stage_of_called (hle : o.start ≤ t.stop) :
    ∃ d, stage g c = .ok (some (.command ⟨some .call, t.stringLiteral, [], [], ⟨o.start, t.stop⟩⟩), d) ∧
      d.rest = [] ∧ d.lastEnd = t.stop ∧ d.size = c.size ∧ d.faults = c.faults := by
  have hskip : c.skipBlanks = c := skip_of_rest hrest (by simp [ho])
  -- the cursor in front of the string, and behind it
  let a := (c.pass o [b, t]).skipBlanks
  let d := a.pass t []
  have ha : a.rest = [t] := by simp [a, Cursor.skipBlanks, Cursor.skip, Cursor.pass, hb, ht]
  have hlast : d.lastEnd = t.stop := if_neg (by rw [ht]; exact Bool.false_ne_true)
  have hprimary : primary g a = .ok (some t.stringLiteral, d) := by
    rw [primary, get_bind_run, kind?_of_rest ha, ht]
    dsimp only
    rw [bind_run, advance_of_rest ha]
    dsimp only [Except.bind]
    rw [checkClosed, if_neg (by simp [ht])]
    rfl
  have hcommand : command g o.start (some .call) t.stringLiteral d =
      .ok (⟨some .call, t.stringLiteral, [], [], ⟨o.start, t.stop⟩⟩, d) := by
    have hmax : max d.lastEnd t.stringLiteral.span.stop = t.stop := by
      rw [hlast]
      exact Nat.max_self _
    have hdone : repeating (commandRound g) {} d = .ok ({}, d) := rfl
    rw [command, bind_run, hdone]
    dsimp only [Except.bind]
    rw [get_bind_run, hmax, bind_run, span_of_le hle]
    rfl
  refine ⟨d, ?_, rfl, hlast, rfl, rfl⟩
  rw [stage, skipBlanks_bind_run, get_bind_run, hskip, hrest]
  dsimp only
  rw [if_pos ho, calledStage, bind_run, advance_of_rest hrest]
  dsimp only [Except.bind]
  rw [skipBlanks_bind_run, bind_run, hprimary]
  dsimp only [Except.bind]
  rw [bind_run, hcommand]
  rfl

end

end ScriptLint.Parse
