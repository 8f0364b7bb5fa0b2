import ScriptLint.Proofs.Parser.Reading.Command
import ScriptLint.Proofs.Parser.Safety.Statement

/-!
Pipelines and statements, by what they read. A statement starts with its keyword or with its first part,
and it stops with its last part or with the last token that counts; a part that is missing is put where
the token in front of it ends.
-/

namespace ScriptLint.Parse

open ScriptLint.Parser Cursor

variable {g : Groups} {b c d : Cursor} {t : Token} {ts : List Token} {kind : TokenKind} {k : Level}

theorem calledStage_reads (hg : g.Read k) (hc : c.Sound) (hk : c.kind? = some kind)
    (haside : kind.isAside) (hspacing : kind.isSpacing = false) (operator : CallOperator) :
    Gives (calledStage g operator) c fun s? d => Reads k c (parts .stage s?) d := by
  obtain ⟨t, ts, hrest, rfl⟩ := kind?_eq_some.mp hk
  obtain ⟨hstart, hlt, hstop⟩ := hc.bounds hrest
  apply (holds_advance_bind hrest).mpr
  rw [holds_skipBlanks_bind]
  have hskip : Reads k (c.pass t ts) [] (c.pass t ts).skipBlanks := reads_skipBlanks
  have hpass : Reads k c [] (c.pass t ts) := reads_aside hrest haside
  have hc' := hskip.sound (hpass.sound hc)
  have hle := (hskip.reaches (hpass.sound hc)).offset_le
  refine ((primary_reads hg hc').and (primary_extent hg.extents)).bind fun head? d ⟨hd, hextent⟩ => ?_
  have hhead := hpass.append (hskip.append hd)
  cases head? with
  | none => exact hhead
  | some head =>
      -- the head stands behind the operator
      have hplace := (hd.between hc' _ List.mem_cons_self).1
      have hlast := ((hskip.append hd).reaches (hpass.sound hc)).lastEnd_le
      rw [lastEnd_pass hspacing] at hlast
      rw [← hstart]
      refine (command_reads hg hc hhead (some operator) ?_ (.inl ?_) hextent.stop_eq).bind fun i e he => he
      · omega
      · exact Nat.lt_of_lt_of_le (by omega) hplace

theorem namedStage_reads (hg : g.Read k) (hc : c.Sound) (hk : c.kind? = some .word) :
    Gives (namedStage g) c fun s? d => Reads k c (parts .stage s?) d := by
  obtain ⟨t, ts, hrest, ht⟩ := kind?_eq_some.mp hk
  obtain ⟨hstart, hlt, -⟩ := hc.bounds hrest
  apply (holds_advance_bind hrest).mpr
  have hhead : Reads k c [.expression t.bareword] (c.pass t ts) :=
    .operand hrest (by rw [Token.operand?, ht])
  have hlast : (c.pass t ts).lastEnd = t.stop := lastEnd_pass (by rw [ht]; rfl)
  rw [← hstart]
  refine (command_reads hg hc hhead none ?_ (.inr ⟨_, _, rfl⟩) (.inl hlast.symm)).bind fun i e he => he
  omega

theorem expressionStage_reads (hg : g.Read k) (hc : c.Sound) :
    Gives (expressionStage g) c fun s? d => Reads k c (parts .stage s?) d := by
  refine (expression_reads hg hc).bind fun e? d hd => ?_
  cases e? with
  | none => exact hd
  | some e => exact hd

theorem stage_reads (hg : g.Read k) (hc : c.Sound) :
    Gives (stage g) c fun s? d => Reads k c (parts .stage s?) d := by
  have hskip : Reads k c [] c.skipBlanks := reads_skipBlanks
  have hc' := hskip.sound hc
  rw [stage, Gives, holds_skipBlanks_bind, holds_get_bind]
  refine Holds.mono (Q := fun s? d => Reads k c.skipBlanks (parts .stage s?) d) ?_
    fun s? d h => hskip.append h
  split
  case h_1 => exact .nil
  case h_2 t ts hrest =>
    have hk := kind?_of_rest hrest
    split_ifs with hcall hsource hnamed
    · rw [hcall] at hk
      exact calledStage_reads hg hc' hk rfl rfl .call
    · rw [hsource.1] at hk
      exact calledStage_reads hg hc' hk rfl rfl .dotSource
    · rw [hnamed.1] at hk
      exact namedStage_reads hg hc' hk
    · exact expressionStage_reads hg hc'

theorem pipelineRound_reads (hg : g.Read k) (hb : b.Sound) {firsts : List Stage}
    {stages : Array Stage} (h : Listed k .stage b firsts stages c) :
    Gives (pipelineRound g stages) c (Kept (Listed k .stage b firsts)) := by
  have hskip := h.on reads_skipBlanks
  rw [pipelineRound, Gives, holds_skipBlanks_bind, holds_get_bind]
  split
  case h_1 hk => exact (advance_aside k hk rfl).bind fun _ d hd => hskip.on hd
  case h_2 hk =>
    refine (advance_aside k hk rfl).bind fun _ d hd => ?_
    rw [holds_skipSpacing_bind]
    have hbar := hskip.on (hd.on reads_skipSpacing)
    refine (stage_reads hg (hbar.sound hb)).bind fun s? e he => ?_
    cases s? with
    -- a bar with nothing behind it is reported where the stage would start
    | none => exact (hbar.on he).on (.passing .lacking)
    | some s => exact hbar.push he
  case h_3 => exact hskip

@[simp] theorem span_stage (s : Stage) : (Part.stage s).span = s.span := by
  cases s <;> rfl

/-- A pipeline starts with its first stage, and the last token that counts is none in front of it. -/
theorem pipelineFrom_reads (hg : g.Read k) (hb : b.Sound) (first : Stage)
    (htakes : Takes b c first.span) (h : Reads k b [.stage first] c) :
    Gives (pipelineFrom g first) c fun p d => Reads k b [.pipeline p] d := by
  suffices hreads : Gives (pipelineFrom g first) c fun p d =>
      p.span.start ≤ d.lastEnd → Reads k b [.pipeline p] d from
    ((pipelineFrom_ends hg.toSafe first htakes).and hreads).mono
      fun p d hd => hd.2 (Nat.le_of_lt hd.1.start_lt)
  refine (repeating_keeps (Listed.single h) fun stages d h => pipelineRound_reads hg hb h).bind
    fun stages d ⟨⟨rest, hrest⟩, hstages⟩ => ?_
  rw [← hrest] at hstages ⊢
  rw [holds_get_bind]
  apply gives_span_bind
  intro _ hle
  have hspan := span_stage first
  refine hstages.ofFirst (p := .pipeline ⟨[first] ++ rest, _⟩) hb rfl ?_ ?_ ?_ id fun _ _ _ => trivial
  · simp [Part.rows, Node.children]
  · rw [hspan]
    exact congrArg _ (Nat.max_eq_left hle)
  · rw [hspan]
    exact hle

theorem pipeline_reads (hg : g.Read k) (hc : c.Sound) :
    Gives (pipeline g) c fun p? d => Reads k c (parts .pipeline p?) d := by
  refine ((stage_ends hg.toSafe hc).and (stage_reads hg hc)).bind fun first? d ⟨htakes, hd⟩ => ?_
  cases first? with
  | none => exact hd
  | some first => exact (pipelineFrom_reads hg hc first htakes hd).bind fun p e he => he

/-- The value of an assignment stands behind its operator, or at its end if there is none. -/
theorem assignedValue_reads (hg : g.Read k) (hc : c.Sound) (hlast : c.lastEnd = c.offset) :
    Gives (assignedValue g c.offset) c fun p d =>
      Reads k c [.pipeline p] d ∧ c.offset ≤ p.span.stop := by
  have hskip : Reads k c [] c.skipSpacing := reads_skipSpacing
  rw [assignedValue, Gives, holds_skipSpacing_bind]
  refine (pipeline_reads hg (hskip.sound hc)).bind fun p? d hd => ?_
  cases p? with
  | none =>
      have hmissing : Reads k c [.pipeline ⟨[], .empty c.offset⟩] c :=
        Reads.nil.ofWay rfl rfl (by rw [hlast]; rfl) (Nat.le_of_eq hlast.symm) id trivial
      exact ⟨hmissing.on (hskip.append hd), Nat.le_refl _⟩
  | some p =>
      have hp := hskip.append hd
      have hplace := hp.between hc _ List.mem_cons_self
      exact ⟨hp, Nat.le_trans hplace.1 hplace.2.1⟩

/-- The cursor stands right behind an operator that has been passed. -/
structure Behind (k : Level) (c : Cursor) (t : Token) (d : Cursor) : Prop where
  reads : Reads k c [] d
  lastEnd_eq : d.lastEnd = d.offset
  stop_eq : t.stop = d.offset

theorem behind_pass (hc : c.Sound) (hrest : c.rest = t :: ts) (ht : t.kind = .word) :
    Behind k c t (c.pass t ts) where
  reads := reads_aside hrest (by rw [ht]; rfl)
  lastEnd_eq := by rw [hc.offset_pass hrest, lastEnd_pass (by rw [ht]; rfl)]
  stop_eq := (hc.offset_pass hrest).symm

theorem passOperator_reads (k : Level) (hc : c.Sound) (hrest : c.rest = t :: ts) (ht : t.kind = .word)
    {head tail : String} (htext : t.text = head ++ tail) (hhead : head ≠ "") :
    Gives (passOperator head.utf8ByteSize) c (Behind k c) := by
  rw [Gives, holds_passOperator hrest htext]
  split
  case isTrue => exact behind_pass hc hrest ht
  case isFalse htail =>
    have hcut := hc.reaches_cut hrest htext hhead htail
    obtain ⟨hreads, hlast, hstop⟩ := behind_pass (k := k) hcut.sound rfl rfl
    exact ⟨.on (.passing (.cut hrest ht htext hhead htail)) hreads, hlast, hstop⟩

theorem assignment_reads (hg : g.Read k) (hb : b.Sound) {target : Expression}
    (h : Reads k b [.expression target] c) {n : Nat} (hn : assignmentAhead? c = some n) :
    Gives (assignment g target n) c fun s d => Reads k b [.statement s] d := by
  obtain ⟨t, ts, head, tail, hrest, ht, htext, hhead, rfl⟩ := exists_of_assignmentAhead? hn
  have hc := h.sound hb
  refine (passOperator_reads k hc hrest ht htext hhead).bind fun operator d hd => ?_
  have hd' := hd.reads.sound hc
  rw [hd.stop_eq]
  refine (assignedValue_reads hg hd' hd.lastEnd_eq).bind fun value e ⟨he, hstop⟩ => ?_
  apply gives_span_bind
  intro _
  obtain ⟨a, hfront, hparts, hstart⟩ := (h.append (hd.reads.append he)).trim hb
  have hlast : Reads k a ([.expression target] ++ [.pipeline value]) e := hparts
  refine hfront.append (hlast.ofLast (hfront.sound hb) ?_ ?_ ?_ (fun _ => ?_) fun _ _ _ => trivial)
  · rfl
  · rfl
  · rw [← hstart]
    exact congrArg _ (Nat.max_eq_left hstop)
  · exact Nat.max_eq_left hstop

theorem pipelineStatement_reads (hg : g.Read k) (hc : c.Sound) :
    Gives (pipelineStatement g) c fun s? d => Reads k c (parts .statement s?) d := by
  have hone {p : Pipeline} {d : Cursor} (h : Reads k c [.pipeline p] d) :
      Reads k c [.statement (.pipeline p)] d :=
    h.ofOne hc rfl rfl rfl (fun _ => trivial) fun _ _ _ => trivial
  refine ((stage_ends hg.toSafe hc).and (stage_reads hg hc)).bind fun first? d ⟨htakes, hd⟩ => ?_
  match first? with
  | none => exact hd
  | some (.command i) =>
    exact (pipelineFrom_reads hg hc (.command i) htakes hd).bind fun p e he => hone he
  | some (.expression target) =>
    have htarget : Reads k c [.expression target] d.skipBlanks := hd.on reads_skipBlanks
    have htakes' : Takes c d.skipBlanks target.span :=
      Takes.trans htakes ((hd.sound hc).reaches_skip _)
    dsimp only
    rw [holds_skipBlanks_bind, holds_get_bind]
    split
    case h_1 n hn => exact (assignment_reads hg hc htarget hn).bind fun s e he => he
    case h_2 =>
      exact (pipelineFrom_reads hg hc (.expression target) htakes' htarget).bind
        fun p e he => hone he

theorem clauseTypesRound_reads (h : Reads k b [] c) (types : Array String) :
    Gives (clauseTypesRound types) c (Kept fun _ d => Reads k b [] d) := by
  have hskip := h.on reads_skipSpacing
  rw [clauseTypesRound, Gives, holds_skipSpacing_bind, holds_get_bind]
  split
  case h_1 hk | h_2 hk | h_3 hk =>
    exact (advance_aside k hk rfl).bind fun _ d hd => hskip.on hd
  case h_4 => exact hskip

theorem block?_reads (hg : g.Read k) (hc : c.Sound) :
    Gives (block? g) c fun body? d => Reads k c (parts .block body?) d := by
  rw [block?, Gives, holds_get_bind]
  split
  case isTrue hk => exact (hg.reads_block hc hk).bind fun body d hd => hd
  case isFalse => exact .nil

theorem parenthesis?_reads (hg : g.Read k) (hc : c.Sound) :
    Gives (parenthesis? g) c fun e? d => Reads k c (parts .expression e?) d := by
  rw [parenthesis?, Gives, holds_get_bind]
  split
  case isTrue hk => exact (hg.reads_subexpression hc hk rfl).bind fun e d hd => hd
  case isFalse => exact .nil

theorem reads_toBrace (k : Level) (c : Cursor) : Reads k c [] (toBrace c) := by
  unfold toBrace
  split
  · exact reads_skipSpacing
  · exact .nil

/-- The parts that a clause is written with. -/
def clauseParts (cl : Clause) : List Part :=
  parts .expression cl.condition ++ parts .block cl.body

/-- A clause with the keyword `t`, from behind the keyword on. -/
theorem clause_reads (hg : g.Read k) (hc : c.Sound) (hrest : c.rest = t :: ts) :
    Gives (clause g) c fun cl d => Reads k (c.pass t ts) (clauseParts cl) d := by
  have hc' := (hc.reaches_pass hrest).sound
  apply (holds_advance_bind hrest).mpr
  -- types and options, of which the tree keeps the texts only
  refine (repeating_keeps (I := fun _ e => Reads k (c.pass t ts) [] e) .nil fun types e he =>
    clauseTypesRound_reads he types).bind fun types e he => ?_
  refine (parenthesis?_reads hg (he.sound hc')).bind fun condition f hf => ?_
  have hbody : Reads k f [] (if condition.isSome then toBrace f else f) := by
    split
    · exact reads_toBrace k f
    · exact .nil
  have hfront := he.append (hf.on hbody)
  rw [holds_modify_bind]
  exact (block?_reads hg (hfront.sound hc')).bind fun body h hh => hfront.append hh

/-- The parts of clauses that have been read from `b` on. -/
def Gathered (k : Level) (b : Cursor) (clauses : Array Clause) (c : Cursor) : Prop :=
  Reads k b (clauses.toList.flatMap clauseParts) c

theorem compoundRound_reads (hg : g.Read k) (hb : b.Sound) (keywords : List String)
    {clauses : Array Clause} (h : Gathered k b clauses c) :
    Gives (compoundRound g keywords clauses) c (Kept (Gathered k b)) := by
  rw [compoundRound, Gives, holds_get_bind]
  split
  case isTrue hkeyword =>
    obtain ⟨t, ts, hrest, ht⟩ := kind?_eq_some.mp (kind?_of_atKeyword hkeyword)
    have hskip := h.on reads_skipSpacing
    have hword := hskip.on (reads_aside hrest (by rw [ht]; rfl))
    rw [holds_set_bind]
    refine (clause_reads hg (hskip.sound hb) hrest).bind fun cl d hd => ?_
    simpa [Kept, Gathered] using hword.append hd
  case isFalse => exact h

theorem map_flatMap_ofClause (clauses : List Clause) :
    (clauses.flatMap Node.ofClause).map .node = clauses.flatMap clauseParts := by
  rw [List.map_flatMap]
  congr
  ext1 ⟨keyword, types, condition, body⟩
  cases condition <;> cases body <;> rfl

theorem compound_reads (hg : g.Read k) (hc : c.Sound) (hrest : c.rest = t :: ts)
    (ht : t.kind = .word) (keyword : String) :
    Gives (compound g keyword) c fun s d => Reads k c [.statement s] d := by
  obtain ⟨hstart, hlt, -⟩ := hc.bounds hrest
  have hpass : Reads k c [] (c.pass t ts) := reads_aside hrest (by rw [ht]; rfl)
  have hc' := hpass.sound hc
  apply (holds_current_bind hrest).mpr
  refine (clause_reads hg hc hrest).bind fun first d hd => ?_
  have hfirst : Gathered k (c.pass t ts) #[first] d := by simpa [Gathered] using hd
  refine (repeating_keeps hfirst fun clauses e he => compoundRound_reads hg hc' _ he).bind
    fun clauses e he => ?_
  have hlast := (Reads.reaches he hc').lastEnd_le
  rw [lastEnd_pass (by rw [ht]; rfl)] at hlast
  rw [holds_get_bind, Nat.max_eq_left (by omega), ← hstart]
  apply gives_span_bind
  intro hle
  refine (hpass.append he).ofWay (p := .statement (.compound keyword clauses.toList _)) rfl ?_ rfl
    hle id trivial
  simp [Part.rows, Node.children, map_flatMap_ofClause]

/-- The body of a function stands where its braces do, or where they are missing. -/
theorem functionBody_reads (hg : g.Read k) (hc : c.Sound) :
    Gives (functionBody g) c fun body d => Reads k c [.block body] d := by
  refine (block?_reads hg hc).bind fun body? d hd => ?_
  cases body? with
  | none => exact (Reads.append hd .bodiless)
  | some body => exact hd

theorem function_reads (hg : g.Read k) (hc : c.Sound) (hrest : c.rest = t :: ts)
    (ht : t.kind = .word) (hname : (c.pass t ts).skipSpacing.kind? = some .word)
    (keyword : String) : Gives (function g keyword) c fun s d => Reads k c [.statement s] d := by
  have hpass : Reads k c [] (c.pass t ts) := reads_aside hrest (by rw [ht]; rfl)
  apply (holds_advance_bind hrest).mpr
  rw [holds_skipSpacing_bind]
  -- the name
  refine (advance_aside k hname rfl).bind fun name d hd => ?_
  rw [holds_skipSpacing_bind]
  have hhead := (hpass.on reads_skipSpacing).on (hd.on reads_skipSpacing)
  -- the parameters and the body
  refine (parenthesis?_reads hg (hhead.sound hc)).bind fun params e he => ?_
  rw [holds_skipSpacing_bind]
  have hparams := hhead.append (he.on reads_skipSpacing)
  refine (functionBody_reads hg (hparams.sound hc)).bind fun body f hf => ?_
  apply gives_span_bind
  intro _
  rw [← offset_eq_start hrest]
  refine (hparams.append hf).ofLast (p := .statement (.function keyword name.text params body _)) hc
    rfl ?_ rfl (fun _ => rfl) fun _ _ _ => trivial
  cases params <;> rfl

theorem flow_reads (hg : g.Read k) (hc : c.Sound) (hrest : c.rest = t :: ts)
    (ht : t.kind = .word) (keyword : String) :
    Gives (flow g keyword) c fun s d => Reads k c [.statement s] d := by
  obtain ⟨hpass, hlast, hstop⟩ := behind_pass (k := k) hc hrest ht
  have hskip : Reads k (c.pass t ts) [] (c.pass t ts).skipBlanks := reads_skipBlanks
  apply (holds_advance_bind hrest).mpr
  rw [holds_skipBlanks_bind]
  refine (pipeline_reads hg (hskip.sound (hpass.sound hc))).bind fun value d hd => ?_
  apply gives_span_bind
  rw [← offset_eq_start hrest]
  intro hle
  cases value with
  | none =>
      rw [Option.map_none, Option.getD_none, hstop, ← hlast] at hle ⊢
      have hflow := hpass.ofWay (p := .statement (.flow keyword none ⟨c.offset, _⟩)) rfl rfl rfl hle
        id trivial
      exact hflow.on (hskip.append hd)
  | some value =>
      have hvalue : Reads k c ([] ++ [.pipeline value]) d := hpass.append (hskip.append hd)
      exact hvalue.ofLast (p := .statement (.flow keyword (some value) _)) hc rfl rfl rfl
        (fun _ => rfl) fun _ _ _ => trivial

theorem statement_reads (hg : g.Read k) (hc : c.Sound) :
    Gives (statement g) c fun s? d => Reads k c (parts .statement s?) d := by
  rw [statement, Gives, holds_get_bind]
  split
  case h_1 keyword h =>
    obtain ⟨t, ts, hrest, ht, hname⟩ := word_of_form h (by simp)
    exact (function_reads hg hc hrest ht (hname keyword rfl) keyword).bind fun s d hd => hd
  case h_2 keyword h =>
    obtain ⟨t, ts, hrest, ht, -⟩ := word_of_form h (by simp)
    exact (compound_reads hg hc hrest ht keyword).bind fun s d hd => hd
  case h_3 keyword h =>
    obtain ⟨t, ts, hrest, ht, -⟩ := word_of_form h (by simp)
    exact (flow_reads hg hc hrest ht keyword).bind fun s d hd => hd
  case h_4 => exact pipelineStatement_reads hg hc

theorem reportIfAt_reads {start : Nat}
    (h : c.offset = start → ∀ kind, c.kind? = some kind → k.Stray kind) :
    Gives (reportIfAt start) c fun _ d => Reads k c [] d := by
  rw [reportIfAt, Gives, holds_get_bind]
  split
  case isTrue hat => exact reportUnexpected_reads (h hat)
  case isFalse => exact .nil

theorem reads_skip_separates : Reads k c [] (c.skip separates) := by
  refine reads_skip fun kind h => ?_
  cases kind <;> first | rfl | exact absurd h nofun

/-- Statements end at their closer; where there is none, they end with the script. -/
def Ended (closer : Option Closer) (c : Cursor) : Prop :=
  c.rest = [] ∨ ∃ cl, closer = some cl ∧ c.kind? = some (closerKind cl)

theorem statementsRound_reads (hg : g.Read k) (hb : b.Sound) {closer : Option Closer}
    (hk : k.closer? = closer) {found : Array Statement} (h : Listed k .statement b [] found c) :
    Gives (statementsRound g closer found) c fun
      | .done found => fun d => Listed k .statement b [] found d ∧ Ended closer d
      | .yield found => Listed k .statement b [] found := by
  have hskip := h.on reads_skip_separates
  have hc := hskip.sound hb
  rw [statementsRound, Gives, holds_skip_bind, holds_get_bind]
  split
  case h_1 hrest => exact ⟨hskip, .inl hrest⟩
  case h_2 t ts hrest =>
    have hkind := kind?_of_rest hrest
    split_ifs with hcomment hcloser
    · apply (holds_advance_bind hrest).mpr
      exact hskip.push (.comment hrest hcomment)
    · obtain ⟨cl, rfl, hcl⟩ := Option.map_eq_some_iff.mp hcloser
      exact ⟨hskip, .inr ⟨cl, rfl, hkind.trans (congrArg some hcl.symm)⟩⟩
    · -- a statement passes an opener, so it is no opener that is left where it was
      refine ((statement_passes hg.toSafe hc hkind).and (statement_reads hg hc)).bind
        fun s? d hboth => ?_
      obtain ⟨hpassed, hd⟩ := hboth
      refine (reportIfAt_reads (k := k) fun hat kind hkind' => ?_).bind fun _ e he =>
        hskip.push? (hd.on he)
      have hoffset := offset_eq_start hrest
      obtain rfl : kind = t.kind := by
        have hsame := hd.kind?_eq hc (hat.trans hoffset.symm)
        exact Option.some.inj (hkind'.symm.trans (hsame.trans hkind))
      refine ⟨hk ▸ hcloser, fun h => ?_⟩
      rcases h with hopener | htrivia
      · have hlt := (hpassed hopener).offset_lt
        omega
      · have hseparates := not_of_rest_skip hrest
        revert htrivia hseparates hcomment
        cases t.kind <;> simp [separates, TokenKind.isTrivia]

theorem statements_reads (hg : g.Read k) (hc : c.Sound) {closer : Option Closer}
    (hk : k.closer? = closer) :
    Gives (statements g closer) c fun body d =>
      Reads k c (body.map .statement) d ∧ Ended closer d := by
  refine (gives_repeating (I := Listed k .statement c [])
    (Q := fun found d => Listed k .statement c [] found d ∧ Ended closer d) .nil
    fun found d h => ?_).bind fun found d hd => ⟨hd.1.2, hd.2⟩
  refine (statementsRound_reads hg hc hk h).mono fun r e hr => ?_
  cases r <;> exact hr

end ScriptLint.Parse
