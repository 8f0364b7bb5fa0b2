import ScriptLint.Proofs.Parser.Intact
import ScriptLint.Proofs.Syntax.NormalForm

/-!
Trees that have been parsed are in normal form. Each node is what one step of the parse has answered, so it is
enough to look at one step at a time. Of the steps inside it no more is needed than what kind of expression
they answer.
-/

namespace ScriptLint

/-- A single expression, or a sequence of at least two. -/
inductive Expression.Joint : Expression → Prop
  | single {e : Expression} (h : e.isSingle) : e.Joint
  | sequence {parts : List Expression} {s : Span} (hlength : 2 ≤ parts.length)
    (hparts : ∀ e ∈ parts, e.isSingle) : (Expression.sequence parts s).Joint

namespace Expression.Joint

theorem isArray {e : Expression} (h : e.Joint) : e.isArray = false := by
  cases h with
  | single h => exact isArray_of_isSingle h
  | sequence => rfl

theorem shaped {parts : List Expression} {s : Span} (h : (Expression.sequence parts s).Joint) :
    (Node.expression (.sequence parts s)).Shaped := by
  cases h with
  | single h => cases h
  | sequence hlength hparts => exact ⟨hlength, hparts⟩

end Expression.Joint

open ScriptLint.Parser ScriptLint.Parse Cursor

/-- The groups are read as single expressions. -/
structure Groups.Single (g : Groups) : Prop where
  subexpression : ∀ c, Gives g.subexpression c fun e _ => e.isSingle
  hashtable : ∀ c, Gives g.hashtable c fun e _ => e.isSingle

namespace Parse

variable {g : Groups} {c : Cursor}

theorem forall_mem_some {α : Type} {P : α → Prop} {a : α} (h : P a) : ∀ b ∈ some a, P b := by
  rintro _ ⟨⟩
  exact h

theorem groups_single (levels : Nat) : (groups levels).Single := by
  cases levels with
  | zero =>
      refine ⟨fun c => ?_, fun c => ?_⟩
      · exact gives_bind fun _ _ => gives_bind fun _ _ => rfl
      · exact gives_bind fun _ _ => rfl
  | succ levels =>
      refine ⟨fun c => ?_, fun c => ?_⟩
      · iterate 4 refine gives_bind fun _ _ => ?_
        rfl
      · iterate 4 refine gives_bind fun _ _ => ?_
        rfl

theorem primary_single (hg : g.Single) : Gives (primary g) c fun e? _ => ∀ e ∈ e?, e.isSingle := by
  rw [primary, Gives, holds_get_bind]
  split
  case h_1 | h_3 | h_4 => exact gives_bind fun _ _ => forall_mem_some rfl
  case h_2 => exact gives_bind fun _ _ => gives_bind fun _ _ => forall_mem_some rfl
  case h_5 => exact gives_bind fun _ _ => forall_mem_some rfl
  case h_6 | h_7 | h_8 => exact (hg.subexpression c).bind fun _ _ h => forall_mem_some h
  case h_9 => exact (hg.hashtable c).bind fun _ _ h => forall_mem_some h
  case h_10 => exact fun _ h => absurd h (Option.not_mem_none _)

theorem argumentAtom_single (hg : g.Single) :
    Gives (argumentAtom g) c fun e? _ => ∀ e ∈ e?, e.isSingle := by
  rw [argumentAtom, Gives, holds_get_bind]
  split
  case h_1 | h_2 => exact gives_bind fun _ _ => forall_mem_some rfl
  case h_3 => exact primary_single hg

/-- What has been read of a sequence. -/
def Singles (parts : List Expression) : Prop := ∀ e ∈ parts, e.isSingle

theorem singles_append {parts : List Expression} (h : Singles parts) (e : Expression) (he : e.isSingle) :
    Singles (parts ++ [e]) :=
  List.forall_mem_append.mpr ⟨h, List.forall_mem_singleton.mpr he⟩

theorem joined_joint {parts : List Expression} (h : Singles parts) :
    Gives (joined parts) c fun e? _ => ∀ e ∈ e?, e.Joint := by
  unfold joined
  split
  case h_1 => exact fun _ h => absurd h (Option.not_mem_none _)
  case h_2 => exact forall_mem_some (.single (h _ List.mem_cons_self))
  case h_3 => exact gives_bind fun _ _ => forall_mem_some (.sequence (by simp) h)

/-- A loop over expressions that reads one more or none. -/
theorem more_keeps {P : List Expression → Prop} {Q : Expression → Prop} {es : Array Expression}
    {m : Parser (Option Expression)} (h : P es.toList) (hm : Gives m c fun e? _ => ∀ e ∈ e?, Q e)
    (hpush : ∀ e, Q e → P (es.toList ++ [e])) :
    Gives (do
      match ← m with
      | some e => return .yield (es.push e)
      | none => return .done es) c (Kept fun es _ => P es.toList) := by
  refine Holds.bind hm fun e? _ he => ?_
  cases e? with
  | none => exact h
  | some e =>
      refine holds_pure.mpr ?_
      rw [Kept, Array.toList_push]
      exact hpush e (he e rfl)

theorem adjacent_joint (hg : g.Single) : Gives (adjacent g) c fun e? _ => ∀ e ∈ e?, e.Joint := by
  refine (argumentAtom_single hg).bind fun first? d hfirst => ?_
  cases first? with
  | none => exact nofun
  | some first =>
      refine Holds.bind (repeating_keeps (I := fun es _ => Singles es.toList) ?_
        fun es d h => ?_) fun es _ h => joined_joint h
      · exact List.forall_mem_singleton.mpr (hfirst first rfl)
      · rw [adjacentRound, Gives, holds_get_bind]
        split
        · exact more_keeps h (argumentAtom_single hg) (singles_append h)
        · exact h

theorem expression_joint (hg : g.Single) : Gives (expression g) c fun e? _ => ∀ e ∈ e?, e.Joint := by
  refine Holds.bind (repeating_keeps (I := fun es _ => Singles es.toList) nofun
    fun es d h => ?_) fun es _ h => joined_joint h
  rw [expressionRound, Gives, holds_get_bind]
  split
  case h_1 => exact h
  case h_2 =>
    split_ifs
    · exact gives_bind fun _ _ => h
    · exact h
    · exact h
    · refine gives_bind fun t _ => holds_pure.mpr ?_
      rw [Kept, Array.toList_push]
      exact singles_append h t.bareword rfl
    · exact more_keeps h (primary_single hg) (singles_append h)

/-- What has been read of an array. -/
def Items (items : List Expression) : Prop := items ≠ [] ∧ ∀ e ∈ items, e.isArray = false

theorem arrayRound_items (hg : g.Single) {items : Array Expression} (h : Items items.toList) :
    Gives (arrayRound g items) c (Kept fun items _ => Items items.toList) := by
  refine gives_bind fun ahead d => ?_
  cases ahead with
  | false => exact h
  | true =>
      refine gives_bind fun _ _ => gives_bind fun _ _ => more_keeps h (adjacent_joint hg) fun e he => ?_
      exact ⟨by simp, List.forall_mem_append.mpr ⟨h.2, List.forall_mem_singleton.mpr he.isArray⟩⟩

theorem argument_shaped (hg : g.Single) : Gives (argument g) c fun e? _ =>
    ∀ items s, e? = some (.array items s) → (Node.expression (.array items s)).Shaped := by
  refine (adjacent_joint hg).bind fun first? _ hfirst => ?_
  cases first? with
  | none => exact nofun
  | some first =>
      have hplain := (hfirst first rfl).isArray
      refine gives_bind fun ahead _ => ?_
      cases ahead with
      | false =>
          rintro _ _ ⟨⟩
          cases hplain
      | true =>
          refine Holds.bind (repeating_keeps (I := fun items _ => Items items.toList) ?_
            fun items _ h => arrayRound_items hg h) fun items _ h => gives_bind fun _ _ => ?_
          · exact ⟨by simp, List.forall_mem_singleton.mpr hplain⟩
          · rintro _ _ ⟨⟩
            exact h

theorem pipelineFrom_ne_nil {first : Stage} : Gives (pipelineFrom g first) c fun p _ => p.stages ≠ [] := by
  refine Holds.bind (repeating_keeps (I := fun stages _ => stages.toList ≠ []) (by simp)
    fun stages d h => ?_) fun stages _ h => gives_bind fun _ _ => gives_bind fun _ _ => holds_pure.mpr h
  refine gives_bind fun _ d => ?_
  rw [Gives, holds_get_bind]
  split
  case h_1 => exact gives_bind fun _ _ => h
  case h_2 =>
    refine gives_bind fun _ _ => gives_bind fun _ _ => gives_bind fun s? _ => ?_
    cases s? with
    | none => exact gives_bind fun _ _ => gives_bind fun _ _ => h
    | some s => exact holds_pure.mpr (by simp [Kept])
  case h_3 => exact h

theorem pipeline_ne_nil : Gives (pipeline g) c fun p? _ => ∀ p ∈ p?, p.stages ≠ [] := by
  refine gives_bind fun first? _ => ?_
  cases first? with
  | none => exact nofun
  | some first => exact pipelineFrom_ne_nil.bind fun _ _ h => forall_mem_some h

theorem assignedValue_isValue {stop : Nat} : Gives (assignedValue g stop) c fun p _ => p.IsValue := by
  refine gives_bind fun _ _ => pipeline_ne_nil.bind fun p? _ hp => ?_
  cases p? with
  | none => exact fun _ => rfl
  | some p => exact fun h => absurd h (hp p rfl)

theorem entryValue_isValue {key : Expression} {found : Array Entry} (h : ∀ e ∈ found.toList, e.value.IsValue) :
    Gives (entryValue g key found) c fun found _ => ∀ e ∈ found.toList, e.value.IsValue := by
  refine gives_bind fun _ d => ?_
  rw [Gives, holds_get_bind]
  split
  case h_1 => exact h
  case h_2 =>
    split_ifs
    · refine gives_bind fun _ _ => assignedValue_isValue.bind fun value _ hvalue => holds_pure.mpr ?_
      rw [Array.toList_push]
      exact List.forall_mem_append.mpr ⟨h, List.forall_mem_singleton.mpr hvalue⟩
    · exact h
    · exact gives_bind fun _ _ => h

theorem entries_isValue : Gives (entries g) c fun es _ => ∀ e ∈ es, e.value.IsValue := by
  refine Holds.bind (repeating_keeps (I := fun found _ => ∀ e ∈ found.toList, e.value.IsValue) nofun
    fun found d h => ?_) fun _ _ h => holds_pure.mpr h
  refine gives_bind fun _ d => ?_
  rw [Gives, holds_get_bind]
  split
  case h_1 => exact h
  case h_2 =>
    split_ifs
    · exact h
    · refine gives_bind fun _ _ => gives_bind fun key? _ => ?_
      cases key? with
      | none => exact gives_bind fun _ _ => h
      | some key => exact (entryValue_isValue h).bind fun _ _ h => h

theorem hashtable_shaped (levels : Nat) :
    Gives (groups levels).hashtable c fun e _ => (Node.expression e).Shaped := by
  cases levels with
  | zero => exact gives_bind fun s _ => show ∀ e ∈ ([] : List Entry), e.value.IsValue from nofun
  | succ levels =>
      refine gives_bind fun t _ => ?_
      refine Holds.bind (Q := fun es _ => ∀ e ∈ es, e.value.IsValue) (gives_nested ?_) fun es _ h => ?_
      · exact entries_isValue.mono fun _ _ h _ _ => h
      · exact gives_bind fun _ _ => gives_bind fun _ _ => h

theorem pipelineStatement_shaped :
    Gives (pipelineStatement g) c fun s? _ => ∀ s ∈ s?, (Node.statement s).Shaped := by
  refine gives_bind fun first? d => ?_
  match first? with
  | none => exact nofun
  | some (.command i) => exact pipelineFrom_ne_nil.bind fun _ _ h => forall_mem_some h
  | some (.expression target) =>
    refine gives_bind fun _ d => ?_
    rw [Gives, holds_get_bind]
    split
    case h_1 =>
      refine Holds.bind (Q := fun s _ => (Node.statement s).Shaped) ?_ fun _ _ h => forall_mem_some h
      refine gives_bind fun _ _ => assignedValue_isValue.bind fun value _ hvalue => ?_
      exact gives_span_bind fun _ => hvalue
    case h_2 => exact pipelineFrom_ne_nil.bind fun _ _ h => forall_mem_some h

theorem flow_shaped {keyword : String} :
    Gives (flow g keyword) c fun s _ => (Node.statement s).Shaped := by
  refine gives_bind fun _ _ => gives_bind fun _ _ => pipeline_ne_nil.bind fun value? _ hvalue => ?_
  refine gives_span_bind fun _ => ?_
  cases value? with
  | none => trivial
  | some value => exact hvalue value rfl

/-- Statements with a body hold no pipeline themselves. -/
theorem statement_shaped : Gives (statement g) c fun s? _ => ∀ s ∈ s?, (Node.statement s).Shaped := by
  have hfunction (keyword : String) : Gives (function g keyword) c fun s _ => (Node.statement s).Shaped := by
    iterate 7 refine gives_bind fun _ _ => ?_
    exact gives_span_bind fun _ => trivial
  have hcompound (keyword : String) : Gives (compound g keyword) c fun s _ => (Node.statement s).Shaped := by
    iterate 4 refine gives_bind fun _ _ => ?_
    exact gives_span_bind fun _ => trivial
  rw [statement, Gives, holds_get_bind]
  split
  case h_1 keyword _ => exact (hfunction keyword).bind fun _ _ h => forall_mem_some h
  case h_2 keyword _ => exact (hcompound keyword).bind fun _ _ h => forall_mem_some h
  case h_3 => exact flow_shaped.bind fun _ _ h => forall_mem_some h
  case h_4 => exact pipelineStatement_shaped

variable {I : Cursor → Prop} [Lasting I] {levels : Nat}

theorem makes_argumentIf_none (expected : Bool) :
    Makes I (argumentIf (groups levels) expected) fun e? => expected = false → e? = none := by
  unfold argumentIf
  split
  case isTrue h =>
    exact moves_skipBlanks.bind fun _ => (makes_argument (groups_makes levels)).mono fun _ _ hfalse => by
      rw [hfalse] at h
      cases h
  case isFalse => exact makes_pure fun _ => rfl

/-- A redirection that merges streams has no target. -/
theorem makes_redirection_none : Makes I (redirection (groups levels)) fun r =>
    '&' ∈ r.operator.toList → r.target = none :=
  moves_advance.bind fun _ => (makes_argumentIf_none _).bind fun _ htarget =>
    (moves_spanFrom _).bind fun _ => makes_pure fun h => htarget (decide_eq_false (not_not_intro h))

/-- A parameter ahead is one of the script, so it has a name. -/
theorem parameter_isNamed {source : String} {t : Token} {ts : List Token} (hc : c.Along source)
    (hrest : c.rest = t :: ts) (ht : isParameter t.kind) :
    Gives (parameter (groups levels)) c fun e d => d.Along source ∧ e.IsNamed := by
  obtain ⟨colon, hkind⟩ := isParameter_iff.mp ht
  obtain ⟨w, hw, -, hword | rfl⟩ := hc.stems t (hrest ▸ List.mem_cons_self)
  · rw [hkind] at hword
    cases hword
  refine (holds_advance_bind hrest).mpr ?_
  refine (makes_argumentIf (groups_makes levels) _ _ (hc.pass hrest)).bind fun argument d hd => ?_
  exact gives_spanFrom_bind fun _ => ⟨hd.1, parameterName_ne_empty_of_mem hw hkind⟩

/-- What has been read behind the name of a command. -/
structure Orderly (args : Arguments) : Prop where
  elements : ∀ e ∈ args.elements.toList, e.IsNamed
  redirections : ∀ r ∈ args.redirections.toList, '&' ∈ r.operator.toList → r.target = none

theorem orderly_empty : Orderly {} := ⟨by simp, by simp⟩

theorem Orderly.push {args : Arguments} (h : Orderly args) {e : Element} (he : e.IsNamed) :
    Orderly { args with elements := args.elements.push e } := by
  refine ⟨?_, h.redirections⟩
  rw [Array.toList_push]
  exact List.forall_mem_append.mpr ⟨h.elements, List.forall_mem_singleton.mpr he⟩

theorem makes_commandRound_orderly {source : String} {args : Arguments} (h : Orderly args) :
    Makes (Along source) (commandRound (groups levels) args) (Answer Orderly) := by
  intro c hc
  rw [commandRound, Gives, holds_get_bind]
  split
  case h_1 => exact ⟨hc, h⟩
  case h_2 t ts hrest =>
    split_ifs with htrivia hends hredirection hparameter hdashes
    · exact (holds_advance_bind hrest).mpr ⟨hc.pass hrest, h⟩
    · exact ⟨hc, h⟩
    · refine (makes_redirection_none c hc).bind fun r d hd => ⟨hd.1, h.elements, ?_⟩
      rw [Array.toList_push]
      exact List.forall_mem_append.mpr ⟨h.redirections, List.forall_mem_singleton.mpr hd.2⟩
    · exact (parameter_isNamed hc hrest hparameter.1).bind fun e d hd => ⟨hd.1, h.push hd.2⟩
    · exact (holds_advance_bind hrest).mpr ⟨hc.pass hrest, h.elements, h.redirections⟩
    · refine (makes_argument (groups_makes levels) c hc).bind fun value? d hd => ?_
      cases value? with
      | none => exact ⟨hd.1, h⟩
      | some value => exact ⟨hd.1, h.push trivial⟩

theorem command_shaped {source : String} {start : Nat} {operator : Option CallOperator} {head : Expression}
    (hc : c.Along source) (hhead : operator = none → head.IsCommandWord) :
    Gives (command (groups levels) start operator head) c fun i _ => i.Shaped := by
  refine Holds.bind (makes_repeating orderly_empty
    (fun _ h => makes_commandRound_orderly h) c hc) fun args _ h => ?_
  exact gives_bind fun _ _ => gives_bind fun _ _ => ⟨hhead, h.2.elements, h.2.redirections⟩

theorem isCommandWord_bareword {t : Token} (h : isOperand t.text = false) : t.bareword.IsCommandWord := by
  obtain ⟨hnumber, hassigns⟩ := Bool.or_eq_false_iff.mp h
  rw [Literal.assignmentLength?, Option.isSome_map, Option.isSome_eq_false_iff, Option.isNone_iff_eq_none,
    List.find?_eq_none] at hassigns
  refine ⟨t.text, t.span, rfl, hnumber, fun operator hmem => ?_⟩
  exact fun hprefix => hassigns operator hmem (List.isPrefixOf_iff_prefix.mpr hprefix)

theorem stage_shaped {source : String} (hc : c.Along source) :
    Gives (stage (groups levels)) c fun s? _ => ∀ i, s? = some (.command i) → i.Shaped := by
  refine stage_commands hc fun hd _ _ hhead _ => command_shaped hd.toAlong fun hnone => ?_
  obtain ⟨t, rfl, hoperand⟩ := hhead hnone
  exact isCommandWord_bareword hoperand

/-- What has been answered as what it is is shaped. -/
theorem shaped_of_answered {source : String} {n : Node} (h : n.Answered (Along source)) : n.Shaped := by
  match n with
  | .expression (.sequence parts s) =>
    obtain ⟨levels, c, d, -, hrun⟩ | ⟨levels, c, d, -, hrun⟩ := h
    · exact (gives_iff.mp (adjacent_joint (groups_single levels)) _ d hrun _ rfl).shaped
    · exact (gives_iff.mp (expression_joint (groups_single levels)) _ d hrun _ rfl).shaped
  | .expression (.array items s) =>
    obtain ⟨levels, c, d, -, hrun⟩ := h
    exact gives_iff.mp (argument_shaped (groups_single levels)) _ d hrun _ _ rfl
  | .expression (.hashtable entries s) =>
    obtain ⟨levels, c, d, -, hrun⟩ := h
    exact gives_iff.mp (hashtable_shaped levels) _ d hrun
  | .statement (.trivia ..) | .statement (.function ..) | .statement (.compound ..) => trivial
  | .statement (.pipeline p) | .statement (.assignment ..) | .statement (.flow ..) =>
    obtain ⟨levels, c, d, -, hrun⟩ := h
    exact gives_iff.mp statement_shaped _ d hrun _ rfl
  | .invocation i =>
    obtain ⟨levels, c, d, hc, hrun⟩ := h
    exact gives_iff.mp (stage_shaped hc) _ d hrun i rfl
  | .block _ | .pipeline _ | .expression (.bareword ..) | .expression (.stringLiteral ..)
  | .expression (.variable ..) | .expression (.typeLiteral ..) | .expression (.scriptBlock _)
  | .expression (.subexpression ..) => trivial

end Parse

/-- An assignment without a value. -/
def Statement.lacksValue : Statement → Bool
  | .assignment _ _ value _ => value.stages.isEmpty
  | _ => false

/-- Trees that have been parsed are in normal form. A pipeline without stages is met in place of a value only,
and no byte is in it. -/
theorem parse_normal (source : String) : ∀ n ∈ (Node.block (parse source).tree.body).below,
    n.Shaped ∧ ∀ p, .pipeline p ∈ n.children → p.stages = [] → n.hasValues ∧ p.span.start = p.span.stop := by
  intro n hn
  have hshaped := shaped_of_answered (answered_parse (along_ofSource source) n hn)
  exact ⟨hshaped, fun _ => hshaped.missing⟩

theorem parse_normal_missing_value :
    ∃ n p, n ∈ (Node.block (parse "$a = ; b").tree.body).below ∧ .pipeline p ∈ n.children ∧ p.stages = [] ∧
      n.Shaped ∧ n.hasValues ∧ p.span.start = p.span.stop := by
  have hexists : ∃ s ∈ (parse "$a = ; b").tree.body.statements, s.lacksValue := by decide +kernel
  obtain ⟨s, hs, hlacks⟩ := hexists
  have hbelow : Node.statement s ∈ (Node.block (parse "$a = ; b").tree.body).below :=
    Node.mem_below.mpr (.child (List.mem_map_of_mem hs) .refl)
  cases s with
  | assignment target operator value span =>
      have hchild : .pipeline value ∈ (Node.statement (.assignment target operator value span)).children := by
        simp [Node.children]
      have hnone := List.isEmpty_iff.mp hlacks
      obtain ⟨hshaped, hmissing⟩ := parse_normal _ _ hbelow
      exact ⟨_, value, hbelow, hchild, hnone, hshaped, hmissing value hchild hnone⟩
  | _ => cases hlacks

end ScriptLint
