import ScriptLint.Proofs.Parser.Intact

/-!
The clauses of a compound statement. Behind the first clause every clause is taken whose keyword may follow the
statement's, in whatever order and number they stand in the script, until something else stands there. So the
clauses are those of one statement of the language unless a clause that ends such a statement is followed by
another one, and then another statement has been taken into it.
-/

namespace ScriptLint

open ScriptLint.Parser ScriptLint.Parse Cursor

/-- The keywords of the clauses of a compound statement. -/
def Statement.clauseKeywords? : Statement → Option (List String)
  | .compound _ clauses _ => some (clauses.map Clause.keyword)
  | _ => none

namespace Parse

/-- The keywords of the clauses that may stand in a statement any number of times. -/
def repeatedClauses : String → List String
  | "if" => ["elseif"]
  | "try" => ["catch"]
  | _ => []

/-- The keywords of the clauses with which a statement ends. -/
def finalClauses : String → List String
  | "if" => ["else"]
  | "try" => ["finally"]
  | "do" => ["while", "until"]
  | _ => []

/-- These are the keywords of the clauses behind the first one in a statement of the language. -/
def Lawful (keyword : String) (ks : List String) : Prop :=
  ∃ front last, ks = front ++ last ∧ (∀ k ∈ front, k ∈ repeatedClauses keyword) ∧
    (last = [] ∨ ∃ k ∈ finalClauses keyword, last = [k])

theorem mem_continuations {keyword k : String} :
    k ∈ continuations keyword ↔ k ∈ repeatedClauses keyword ∨ k ∈ finalClauses keyword := by
  unfold continuations repeatedClauses finalClauses
  split <;> simp

theorem not_mem_finalClauses {keyword k : String} (h : k ∈ repeatedClauses keyword) :
    k ∉ finalClauses keyword := by
  unfold repeatedClauses at h
  split at h
  · rw [List.mem_singleton.mp h]
    decide
  · rw [List.mem_singleton.mp h]
    decide
  · cases h

/-- A clause that ends the statement has to be the last one, and that is all. -/
theorem lawful_iff {keyword : String} {ks : List String} (h : ∀ k ∈ ks, k ∈ continuations keyword) :
    Lawful keyword ks ↔ ∀ k ∈ ks.dropLast, k ∉ finalClauses keyword := by
  constructor
  · rintro ⟨front, last, rfl, hfront, rfl | ⟨final, -, rfl⟩⟩ k hk
    · rw [List.append_nil] at hk
      exact not_mem_finalClauses (hfront k ((List.dropLast_sublist _).subset hk))
    · rw [List.dropLast_concat] at hk
      exact not_mem_finalClauses (hfront k hk)
  · intro hfinal
    rcases List.eq_nil_or_concat ks with rfl | ⟨front, k, rfl⟩
    · exact ⟨[], [], rfl, by simp, .inl rfl⟩
    · rw [List.concat_eq_append, List.dropLast_concat] at hfinal
      rw [List.concat_eq_append] at h
      have hfront : ∀ k ∈ front, k ∈ repeatedClauses keyword := fun k' hk' =>
        (mem_continuations.mp (h k' (List.mem_append_left _ hk'))).resolve_right (hfinal k' hk')
      rcases mem_continuations.mp (h k (by simp)) with hrepeated | hlast
      · refine ⟨front ++ [k], [], by simp, ?_, .inl rfl⟩
        exact List.forall_mem_append.mpr ⟨hfront, List.forall_mem_singleton.mpr hrepeated⟩
      · exact ⟨front, [k], List.concat_eq_append, hfront, .inr ⟨k, hlast, rfl⟩⟩

/-- The clauses behind the first one in a compound statement of a script. -/
structure Compounded (source keyword : String) (first : Clause) (rest : List Clause) (s : Span) : Prop where
  mem : keyword ∈ compoundKeywords
  first_eq : first.keyword = keyword
  continue_mem : ∀ k ∈ rest.map Clause.keyword, k ∈ continuations keyword
  spelled : ∃ words : List Token, rest.map Clause.keyword = words.map (fun w => Text.fold w.text) ∧
    (∀ w ∈ words, w ∈ tokenize source ∧ w.kind = .word ∧ s.start ≤ w.start ∧ w.stop ≤ s.stop) ∧
    words.Pairwise fun v w => v.stop ≤ w.start
  ended : ∀ w ∈ tokenize source, w.kind = .word → Text.fold w.text ∈ continuations keyword →
    s.stop ≤ w.start → ∃ u ∈ tokenize source, u.kind.isSpacing = false ∧ s.stop ≤ u.start ∧ u.start < w.start
  lawful_iff : Lawful keyword (rest.map Clause.keyword) ↔
    ∀ k ∈ (rest.map Clause.keyword).dropLast, k ∉ finalClauses keyword

variable {source : String} {g : Groups} {c d : Cursor} {t : Token} {ts : List Token} {levels start : Nat}
  {keywords : List String} {first : Clause} {rest : List Clause}

theorem intact_clauseTypesRound (types : Array String) : Moves (Intact source) (clauseTypesRound types) := by
  refine intact_skipSpacing.bind fun _ => makes_get_bind fun c => ?_
  split
  case h_1 | h_2 | h_3 => exact intact_advance.bind fun _ => makes_pure trivial
  case h_4 => exact makes_pure trivial

theorem intact_parenthesis? (hg : g.Intact source) : Moves (Intact source) (parenthesis? g) := by
  refine makes_get_bind fun c => ?_
  split
  · exact hg.subexpression.bind fun _ => makes_pure trivial
  · exact makes_pure trivial

theorem intact_block? (hg : g.Intact source) : Moves (Intact source) (block? g) := by
  refine makes_get_bind fun c => ?_
  split
  · exact hg.block.bind fun _ => makes_pure trivial
  · exact makes_pure trivial

theorem intact_toBrace (expected : Bool) :
    Moves (Intact source) (modify fun c => if expected then toBrace c else c) := by
  refine moves_modify fun c hc => ?_
  unfold toBrace
  split_ifs
  · exact hc.skipSpacing
  · exact hc
  · exact hc

/-- A clause is told by the word that it starts with. -/
theorem clause_intact (hg : g.Intact source) (hc : c.Along source) (hrest : c.rest = t :: ts) :
    Gives (clause g) c fun cl d => d.Intact source ∧ cl.keyword = Text.fold t.text := by
  refine (holds_advance_bind hrest).mpr ?_
  have hbehind : Makes (Intact source) (do
      let types ← repeating clauseTypesRound #[]
      let condition ← parenthesis? g
      modify fun c => if condition.isSome then toBrace c else c
      let body ← block? g
      return { keyword := Text.fold t.text, types := types.toList, condition, body })
      fun cl : Clause => cl.keyword = Text.fold t.text :=
    (intact_repeating intact_clauseTypesRound _).bind fun types => (intact_parenthesis? hg).bind fun condition =>
      (intact_toBrace condition.isSome).bind fun _ => (intact_block? hg).bind fun body => makes_pure rfl
  exact hbehind _ (hc.intact_pass hrest)

/-- Clauses that have been read, each told by a word of the script behind `start`. -/
structure Taken (source : String) (keywords : List String) (start : Nat) (rest : List Clause) (d : Cursor) :
    Prop where
  intact : d.Intact source
  le_lastEnd : start ≤ d.lastEnd
  mem : ∀ k ∈ rest.map Clause.keyword, k ∈ keywords
  spelled : ∃ words : List Token, rest.map Clause.keyword = words.map (fun w => Text.fold w.text) ∧
    (∀ w ∈ words, w ∈ tokenize source ∧ w.kind = .word ∧ start ≤ w.start ∧ w.stop ≤ d.lastEnd) ∧
    words.Pairwise fun v w => v.stop ≤ w.start

theorem atKeyword_eq_true (h : atKeyword keywords c) :
    ∃ t ts, c.rest = t :: ts ∧ t.kind = .word ∧ Text.fold t.text ∈ keywords := by
  obtain ⟨t, hhead, ht⟩ := Option.any_eq_true _ _ |>.mp h
  obtain ⟨ts, hrest⟩ := List.head?_eq_some_iff.mp hhead
  exact ⟨t, ts, hrest, by simpa using ht⟩

theorem Taken.push {cl : Clause} (h : Taken source keywords start rest c) (hrest : c.skipSpacing.rest = t :: ts)
    (hword : t.kind = .word) (hmem : Text.fold t.text ∈ keywords) (hkeyword : cl.keyword = Text.fold t.text)
    (hintact : d.Intact source) (hd : Reaches (c.skipSpacing.pass t ts) d) :
    Taken source keywords start (rest ++ [cl]) d := by
  have hskip := h.intact.skipSpacing
  have hreaches := hskip.sound.reaches_pass hrest
  have hlast : t.stop ≤ d.lastEnd := by
    have hpass := hd.lastEnd_le
    rw [lastEnd_pass (by rw [hword]; rfl)] at hpass
    exact hpass
  have hfront : c.lastEnd ≤ t.start := offset_eq_start hrest ▸ hskip.sound.lastEnd_le
  obtain ⟨words, hwords, hplaced, hordered⟩ := h.spelled
  have hle : c.lastEnd ≤ d.lastEnd := Nat.le_trans hreaches.lastEnd_le hd.lastEnd_le
  refine ⟨hintact, Nat.le_trans h.le_lastEnd hle, ?_, words ++ [t], ?_, ?_, ?_⟩
  · rw [List.map_append]
    exact List.forall_mem_append.mpr ⟨h.mem, List.forall_mem_singleton.mpr (hkeyword ▸ hmem)⟩
  · rw [List.map_append, List.map_append, hwords]
    simp [hkeyword]
  · refine List.forall_mem_append.mpr ⟨fun w hw => ?_, List.forall_mem_singleton.mpr ?_⟩
    · obtain ⟨hw, hkind, hstart, hstop⟩ := hplaced w hw
      exact ⟨hw, hkind, hstart, Nat.le_trans hstop hle⟩
    · exact ⟨hskip.entire t (hrest ▸ List.mem_cons_self), hword, Nat.le_trans h.le_lastEnd hfront, hlast⟩
  · refine List.pairwise_append.mpr ⟨hordered, List.pairwise_singleton _ _, fun v hv w hw => ?_⟩
    obtain rfl := List.mem_singleton.mp hw
    exact Nat.le_trans (hplaced v hv).2.2.2 hfront

/-- All clauses have been read: none of the keywords comes next. -/
structure TakenAll (source : String) (keywords : List String) (start : Nat) (rest : List Clause) (d : Cursor) :
    Prop extends Taken source keywords start rest d where
  past : atKeyword keywords d.skipSpacing = false

theorem compoundRound_taken {clauses : Array Clause}
    (h : ∃ rest, clauses.toList = first :: rest ∧ Taken source keywords start rest c) :
    Gives (compoundRound (groups levels) keywords clauses) c fun
      | .done clauses => fun d => ∃ rest, clauses.toList = first :: rest ∧ TakenAll source keywords start rest d
      | .yield clauses => fun d => ∃ rest, clauses.toList = first :: rest ∧ Taken source keywords start rest d := by
  obtain ⟨rest, hclauses, h⟩ := h
  rw [compoundRound, Gives, holds_get_bind]
  split
  case isTrue hahead =>
    obtain ⟨t, ts, hrest, hword, hmem⟩ := atKeyword_eq_true hahead
    have hskip := h.intact.skipSpacing
    rw [holds_set_bind]
    refine ((clause_intact (groups_intact levels) hskip.toAlong hrest).and
      (clause_reads (groups_read levels none) hskip.sound hrest)).bind fun cl d hd => ?_
    obtain ⟨⟨hintact, hkeyword⟩, hreads⟩ := hd
    refine ⟨rest ++ [cl], by simp [hclauses], h.push hrest hword hmem hkeyword hintact ?_⟩
    exact hreads.reaches (hskip.sound.reaches_pass hrest).sound
  case isFalse hpast => exact ⟨rest, hclauses, h, by simpa using hpast⟩

theorem compoundRounds_taken {clauses : Array Clause}
    (h : ∃ rest, clauses.toList = first :: rest ∧ Taken source keywords start rest c) :
    Gives (repeating (compoundRound (groups levels) keywords) clauses) c fun clauses d =>
      ∃ rest, clauses.toList = first :: rest ∧ TakenAll source keywords start rest d := by
  refine gives_repeating (I := fun clauses d => ∃ rest, clauses.toList = first :: rest ∧
    Taken source keywords start rest d) h fun clauses d h => (compoundRound_taken h).mono fun r e hr => ?_
  cases r <;> exact hr

/-- A word with one of the keywords that stands behind the clauses has something else in front of it. -/
theorem TakenAll.ended (h : TakenAll source keywords start rest d) {w : Token} (hw : w ∈ tokenize source)
    (hword : w.kind = .word) (hmem : Text.fold w.text ∈ keywords) (hle : d.lastEnd ≤ w.start) :
    ∃ u ∈ tokenize source, u.kind.isSpacing = false ∧ d.lastEnd ≤ u.start ∧ u.start < w.start := by
  have hskip := h.intact.skipSpacing
  have hahead : w ∈ d.skipSpacing.rest := by
    refine hskip.ahead w hw (hskip.toAlong.offset_le (.inl rfl) hw (by rw [hword]; rfl) ?_)
    exact hle
  cases hrest : d.skipSpacing.rest with
  | nil =>
      rw [hrest] at hahead
      cases hahead
  | cons u us =>
      rw [hrest] at hahead
      have hu := hskip.entire u (hrest ▸ List.mem_cons_self)
      have hfront := hskip.sound.lastEnd_le
      rw [offset_eq_start hrest] at hfront
      refine ⟨u, hu, not_of_rest_skip hrest, hfront, ?_⟩
      rcases List.mem_cons.mp hahead with rfl | hbehind
      · -- then the clauses would go on with it
        have hpast := h.past
        rw [atKeyword, hrest] at hpast
        simp [hword, hmem] at hpast
      · have := (hskip.sound.tiles_tail hrest).le_start hbehind
        have := hskip.sound.start_lt_stop hrest
        omega

theorem keyword_of_form {keyword : String} (h : form c = .compound keyword) :
    ∃ t ts, c.rest = t :: ts ∧ t.kind = .word ∧ Text.fold t.text = keyword ∧ keyword ∈ compoundKeywords := by
  unfold form at h
  split at h
  case h_1 => cases h
  case h_2 t ts hrest =>
    dsimp only at h
    split_ifs at h with hword _ hcompound
    cases h
    exact ⟨t, ts, hrest, not_not.mp hword, rfl, hcompound.1⟩

theorem compound_compounded (hc : c.Along source) {keyword : String} (hform : form c = .compound keyword) :
    Gives (compound (groups levels) keyword) c fun s _ => ∃ first rest span,
      s = .compound keyword (first :: rest) span ∧ Compounded source keyword first rest span := by
  obtain ⟨t, ts, hrest, hword, hkeyword, hmem⟩ := keyword_of_form hform
  refine (holds_current_bind hrest).mpr ?_
  refine ((clause_intact (groups_intact levels) hc hrest).and
    (clause_reads (groups_read levels none) hc.sound hrest)).bind fun first d hd => ?_
  obtain ⟨⟨hintact, hfirst⟩, hreads⟩ := hd
  have hlast : t.start ≤ d.lastEnd := by
    have hle := (hreads.reaches (hc.sound.reaches_pass hrest).sound).lastEnd_le
    rw [lastEnd_pass (by rw [hword]; rfl)] at hle
    exact Nat.le_trans (Nat.le_of_lt (hc.sound.start_lt_stop hrest)) hle
  have hnone : Taken source (continuations keyword) t.start [] d :=
    ⟨hintact, hlast, by simp, [], rfl, by simp, .nil⟩
  have hrounds : ∃ rest, #[first].toList = first :: rest ∧ Taken source (continuations keyword) t.start rest d :=
    ⟨[], rfl, hnone⟩
  refine (compoundRounds_taken hrounds).bind fun clauses d h => ?_
  obtain ⟨rest, hclauses, h⟩ := h
  rw [holds_get_bind]
  rw [hclauses, Nat.max_eq_left h.le_lastEnd]
  refine gives_span_bind fun _ => ⟨first, rest, _, rfl, ?_⟩
  exact ⟨hmem, hfirst.trans hkeyword, h.mem, h.spelled, fun w hw hkind hcontinues hle =>
    h.ended hw hkind hcontinues hle, lawful_iff h.mem⟩

/-- A compound statement has the clauses that it should have; others have none. -/
def Clausal (source : String) (s? : Option Statement) : Prop :=
  ∀ keyword clauses span, s? = some (.compound keyword clauses span) →
    ∃ first rest, clauses = first :: rest ∧ Compounded source keyword first rest span

theorem clausal_of_clauseKeywords?_eq_none {s : Statement} (h : s.clauseKeywords? = none) :
    Clausal source (some s) := fun keyword clauses span hs => by
  cases hs
  cases h

theorem pipelineStatement_clausal : Gives (pipelineStatement g) c fun s? _ => Clausal source s? := by
  have hpipeline (first : Stage) (d : Cursor) :
      Gives (do return some (.pipeline (← pipelineFrom g first))) d fun s? _ => Clausal source s? :=
    gives_bind fun p e => clausal_of_clauseKeywords?_eq_none rfl
  refine gives_bind fun first? d => ?_
  match first? with
  | none => exact fun keyword clauses span h => by cases h
  | some (.command i) => exact hpipeline _ d
  | some (.expression target) =>
    dsimp only
    rw [Gives, holds_skipBlanks_bind, holds_get_bind]
    split
    case h_1 n _ =>
      have hassigned : Gives (assignment g target n) d.skipBlanks fun s _ => s.clauseKeywords? = none :=
        gives_bind fun _ _ => gives_bind fun _ _ => gives_span_bind fun _ => rfl
      exact hassigned.bind fun s f hs => clausal_of_clauseKeywords?_eq_none hs
    case h_2 => exact hpipeline _ _

theorem statement_clausal (hc : c.Along source) :
    Gives (statement (groups levels)) c fun s? _ => Clausal source s? := by
  refine gives_statement (fun _ _ _ _ _ _ => clausal_of_clauseKeywords?_eq_none rfl) (fun keyword hform => ?_)
    (fun _ _ _ _ => clausal_of_clauseKeywords?_eq_none rfl) pipelineStatement_clausal
  refine (compound_compounded hc hform).mono fun s d hs keyword' clauses span h => ?_
  obtain ⟨first, rest, span', rfl, hcompounded⟩ := hs
  cases h
  exact ⟨first, rest, rfl, hcompounded⟩

end Parse

/-- In every compound statement of a script the first clause has the keyword of the statement, and behind it
stand clauses whose keywords may follow it, one for each word of the script that comes next with such a keyword.
They are those of one statement of the language unless a clause that ends such a statement has another one
behind it. -/
theorem compounded_parse (source keyword : String) (clauses : List Clause) (span : Span)
    (h : Node.statement (.compound keyword clauses span) ∈ (Node.block (parse source).tree.body).below) :
    ∃ first rest, clauses = first :: rest ∧ Compounded source keyword first rest span := by
  obtain ⟨levels, c, d, hc, hrun⟩ := answered_parse (along_ofSource source) _ h
  exact gives_iff.mp (statement_clausal hc) _ d hrun keyword clauses span rfl

theorem compounded_parse_loops :
    ∃ keyword clauses span, Node.statement (.compound keyword clauses span) ∈
        (Node.block (parse "do { a } while (1)\nwhile (2) { b }").tree.body).below ∧
      ∃ first rest, clauses = first :: rest ∧
        Compounded "do { a } while (1)\nwhile (2) { b }" keyword first rest span := by
  have hexists : ∃ s ∈ (parse "do { a } while (1)\nwhile (2) { b }").tree.body.statements,
      s.clauseKeywords?.isSome := by
    decide +kernel
  obtain ⟨s, hs, hsome⟩ := hexists
  have hbelow : Node.statement s ∈
      (Node.block (parse "do { a } while (1)\nwhile (2) { b }").tree.body).below :=
    Node.mem_below.mpr (.child (List.mem_map_of_mem hs) .refl)
  cases s with
  | compound keyword clauses span => exact ⟨_, _, _, hbelow, compounded_parse _ _ _ _ hbelow⟩
  | _ => cases hsome

/-- A loop behind another one is taken into it: to the first `while` of a `do` belongs the second. -/
theorem loop_taken_into_loop :
    (parse "do { a } while (1)\nwhile (2) { b }").tree.body.statements.map Statement.clauseKeywords? =
        [some ["do", "while", "while"]] ∧ ¬ Lawful "do" ["while", "while"] := by
  refine ⟨by decide +kernel, ?_⟩
  rw [lawful_iff (by decide)]
  decide

end ScriptLint
