import Mathlib.Tactic.SplitIfs
import ScriptLint.Proofs.Diagnostic.Template
import ScriptLint.Proofs.Rule.Binding
import ScriptLint.Rule.CmdletUse

/-!
What the rule on cmdlets reports. The verdict on a call is told by what its name stands for and by the
places of its elements, without the pairing of parameters and arguments that the rule goes through; the
reports are the warnings for the calls of that kind, each once and in their order.
-/

namespace ScriptLint

/-- The name stands for the command: its alias does, or nothing is known of an alias and the name itself
does. An alias whose target is unknown, or at fault, counts for nothing. -/
def Provider.StandsFor (p : Provider) (name : String) (c : Command) : Prop :=
  (∃ target, p.alias? name = some target ∧ p.metadata target = .ok (some c)) ∨
    (∀ target, p.alias? name = some target → ∀ d, p.metadata target ≠ .ok (some d)) ∧
      p.metadata name = .ok (some c)

/-- The command asks for the parameter in each of its parameter sets. -/
def Command.Requires (c : Command) (q : Parameter) : Prop :=
  q ∈ c.parameters ∧ c.parameterSetCount ≤ q.mandatory.count true

/-- The call names the cmdlet `c` and gives it none of the parameters that it always asks for, neither by
name nor, perhaps, by position. -/
structure Invocation.Misuses (p : Provider) (i : Invocation) (name : String) (c : Command) : Prop where
  named : i.commandName? = some name
  resolved : p.StandsFor name c
  cmdlet : c.kind = .cmdlet
  required : ∃ q, c.Requires q
  taken : AllTaken (some c) i.elements
  unnamed : ∀ other argument span, Element.parameter other argument span ∈ i.elements →
    ∀ q, c.Requires q → Text.fold q.name ≠ Text.fold other

theorem Provider.resolveDirectly_eq_resolved_iff {p : Provider} {name : String}
    {earlier : Option MetadataFault} {c : Command} :
    p.resolveDirectly name earlier = .resolved c ↔ p.metadata name = .ok (some c) := by
  unfold resolveDirectly
  split
  case h_1 command h => simp [h]
  case h_2 h => cases earlier <;> simp [h]
  case h_3 fault h => simp [h]

theorem Provider.resolve_eq_resolved_iff {p : Provider} {name : String} {c : Command} :
    p.resolve name = .resolved c ↔ p.StandsFor name c := by
  unfold resolve StandsFor
  split
  case h_1 halias => simp [halias, resolveDirectly_eq_resolved_iff]
  case h_2 target halias =>
    split
    case h_1 d htarget => simp [halias, htarget]
    case h_2 htarget => simp [halias, htarget, resolveDirectly_eq_resolved_iff]
    case h_3 fault htarget => simp [halias, htarget, resolveDirectly_eq_resolved_iff]

namespace MandatorySet

theorem isRequired_iff {c : Command} {q : Parameter} :
    isRequired c q = true ↔ c.parameterSetCount ≤ q.mandatory.count true := by
  have hcount : q.mandatory.count true ≤ q.mandatory.length := List.count_le_length
  rw [isRequired, Bool.and_eq_true, decide_eq_true_eq, decide_eq_true_eq]
  exact ⟨And.right, fun h => ⟨Nat.le_trans h hcount, h⟩⟩

theorem mem_names_ofCommand {c : Command} {name : String} :
    name ∈ (ofCommand c).names ↔ ∃ q, c.Requires q ∧ q.name = name := by
  simp only [ofCommand, List.mem_map, List.mem_filter, isRequired_iff, Command.Requires]

theorem isEmpty_ofCommand {c : Command} :
    (ofCommand c).isEmpty = false ↔ ∃ q, c.Requires q := by
  unfold isEmpty
  rw [List.isEmpty_eq_false_iff_exists_mem]
  constructor
  · rintro ⟨name, hname⟩
    obtain ⟨q, hq, _⟩ := mem_names_ofCommand.mp hname
    exact ⟨q, hq⟩
  · rintro ⟨q, hq⟩
    exact ⟨q.name, mem_names_ofCommand.mpr ⟨q, hq, rfl⟩⟩

theorem contains_ofCommand {c : Command} {name : String} :
    (ofCommand c).contains name = true ↔ ∃ q, c.Requires q ∧ Text.fold q.name = Text.fold name := by
  unfold contains
  rw [List.any_eq_true]
  constructor
  · rintro ⟨other, hother, hsame⟩
    obtain ⟨q, hq, rfl⟩ := mem_names_ofCommand.mp hother
    exact ⟨q, hq, Text.sameName_iff.mp hsame⟩
  · rintro ⟨q, hq, hsame⟩
    exact ⟨q.name, mem_names_ofCommand.mpr ⟨q, hq, rfl⟩, Text.sameName_iff.mpr hsame⟩

end MandatorySet

namespace CmdletUse

variable {p : Provider} {i : Invocation}

/-- One of the names of the parameters is that of a required one. -/
theorem any_contains_namedParameters {c : Command} :
    (i.namedParameters (some c)).any (MandatorySet.ofCommand c).contains = false ↔
      ∀ other argument span, Element.parameter other argument span ∈ i.elements →
        ∀ q, c.Requires q → Text.fold q.name ≠ Text.fold other := by
  rw [i.namedParameters_eq, List.any_eq_false]
  constructor
  · intro h other argument span hmem q hq hsame
    have hname := List.mem_filterMap.mpr
      ⟨_, hmem, (rfl : Element.parameterName? (.parameter other argument span) = some other)⟩
    exact h other hname (MandatorySet.contains_ofCommand.mpr ⟨q, hq, hsame⟩)
  · intro h other hname hcontains
    obtain ⟨e, hmem, he⟩ := List.mem_filterMap.mp hname
    obtain ⟨q, hq, hsame⟩ := MandatorySet.contains_ofCommand.mp hcontains
    cases e with
    | parameter name argument span =>
        obtain rfl := Option.some.inj he
        exact h name argument span hmem q hq hsame
    | argument value => exact absurd he nofun

/-- What keeps the rule from a report is the first of four reasons; without any, there is one. -/
theorem checkResolved_eq_nonConformant_iff {name command resolved : String} {c : Command} :
    checkResolved i name c = .nonConformant command resolved ↔
      c.kind.carriesParameterMetadata = true ∧ (MandatorySet.ofCommand c).isEmpty = false ∧
        i.bindsByPosition (some c) = false ∧
        (i.namedParameters (some c)).any (MandatorySet.ofCommand c).contains = false ∧
        name = command ∧ c.name = resolved := by
  unfold checkResolved
  dsimp only
  cases c.kind.carriesParameterMetadata <;> cases (MandatorySet.ofCommand c).isEmpty <;>
    cases i.bindsByPosition (some c) <;>
    cases (i.namedParameters (some c)).any (MandatorySet.ofCommand c).contains <;> simp

theorem misuses_iff {name : String} {c : Command} :
    i.Misuses p name c ↔ i.commandName? = some name ∧ p.StandsFor name c ∧
      c.kind.carriesParameterMetadata = true ∧ (MandatorySet.ofCommand c).isEmpty = false ∧
        i.bindsByPosition (some c) = false ∧
        (i.namedParameters (some c)).any (MandatorySet.ofCommand c).contains = false := by
  unfold Invocation.bindsByPosition Invocation.bindings CommandKind.carriesParameterMetadata
  rw [MandatorySet.isEmpty_ofCommand, any_isPositional_bind_iff, any_contains_namedParameters,
    decide_eq_true_eq]
  constructor
  · rintro ⟨hname, hresolved, hkind, hrequired, htaken, hunnamed⟩
    exact ⟨hname, hresolved, hkind, hrequired, htaken, hunnamed⟩
  · rintro ⟨hname, hresolved, hkind, hrequired, htaken, hunnamed⟩
    exact ⟨hname, hresolved, hkind, hrequired, htaken, hunnamed⟩

/-- A call does not conform if it misuses the cmdlet that its name stands for, and only then. -/
theorem check_eq_nonConformant_iff {name resolved : String} :
    check p i = .nonConformant name resolved ↔ ∃ c, i.Misuses p name c ∧ c.name = resolved := by
  simp only [misuses_iff]
  unfold check
  split
  case h_1 hname => simp [hname]
  case h_2 other hname =>
    split
    case h_1 c hresolve =>
      rw [checkResolved_eq_nonConformant_iff]
      have hstands {d : Command} : p.StandsFor other d ↔ c = d := by
        rw [← Provider.resolve_eq_resolved_iff, hresolve, Resolution.resolved.injEq]
      constructor
      · rintro ⟨hkind, hrequired, hbound, hnamed, rfl, rfl⟩
        exact ⟨c, ⟨hname, hstands.mpr rfl, hkind, hrequired, hbound, hnamed⟩, rfl⟩
      · rintro ⟨d, ⟨hname', hd, hkind, hrequired, hbound, hnamed⟩, rfl⟩
        obtain rfl := Option.some.inj (hname.symm.trans hname')
        obtain rfl := hstands.mp hd
        exact ⟨hkind, hrequired, hbound, hnamed, rfl, rfl⟩
    -- a name that stands for nothing, or a fault
    case h_2 hresolve | h_3 hresolve =>
      refine iff_of_false nofun ?_
      rintro ⟨d, ⟨hname', hd, -⟩, -⟩
      obtain rfl := Option.some.inj (hname.symm.trans hname')
      exact absurd (hresolve.symm.trans (Provider.resolve_eq_resolved_iff.mpr hd)) nofun

theorem context_eq (name resolved : String) :
    context name resolved = if Text.fold resolved = Text.fold name then .ofList [("command", name)]
      else .ofList [("command", name), ("resolved", resolved)] := by
  unfold context
  by_cases h : Text.fold resolved = Text.fold name
  · rw [if_pos h, if_pos (Text.sameName_iff.mpr h)]
    rfl
  · rw [if_neg h, if_neg (mt Text.sameName_iff.mp h)]
    rfl

theorem find?_context (name resolved : String) :
    (context name resolved).find? "command" = some name := by
  unfold context
  dsimp only
  split
  · exact Dictionary.find?_single _ _
  · rw [Dictionary.find?_insert, if_neg (by decide), Dictionary.find?_single]

theorem message_context (name resolved : String) :
    Check.cmdletUse.message (context name resolved) = "Cmdlet '" ++ name ++
      "' may be used incorrectly. Please check that all mandatory parameters are supplied." := by
  have htemplate : Check.cmdletUse.identity.template = "Cmdlet '" ++ "\x7b" ++ "command" ++ "\x7d" ++
      "' may be used incorrectly. Please check that all mandatory parameters are supplied." := by
    decide +kernel
  rw [Check.message, htemplate]
  exact Template.fill_one _ _ _ (by decide +kernel) (by decide +kernel) (by decide +kernel)
    (find?_context name resolved)

/-- The warning on a call of `name`, as a reader gets it; `resolved` is the own name of the command. -/
def misuseWarning (i : Invocation) (name resolved file : String) : Diagnostic where
  rule := "PSUseCmdletCorrectly"
  severity := .warning
  message := "Cmdlet '" ++ name ++
    "' may be used incorrectly. Please check that all mandatory parameters are supplied."
  span := some i.span
  file := some file
  context := some (if Text.fold resolved = Text.fold name then .ofList [("command", name)]
    else .ofList [("command", name), ("resolved", resolved)])

theorem warning_eq (name resolved file : String) :
    warning i name resolved file = misuseWarning i name resolved file := by
  rw [misuseWarning, ← context_eq, ← message_context]
  rfl

/-- The reports on a list of calls: a warning for each that misuses a cmdlet, in the order of the calls,
and none for the others. -/
inductive Reports (p : Provider) (file : String) : List Invocation → List Diagnostic → Prop
  | nil : Reports p file [] []
  | flagged {i : Invocation} {name : String} {c : Command} {is : List Invocation}
      {ds : List Diagnostic} : i.Misuses p name c → Reports p file is ds →
      Reports p file (i :: is) (misuseWarning i name c.name file :: ds)
  | passed {i : Invocation} {is : List Invocation} {ds : List Diagnostic} :
      (∀ name c, ¬ i.Misuses p name c) → Reports p file is ds → Reports p file (i :: is) ds

theorem reports_filterMap (p : Provider) (file : String) (is : List Invocation) :
    Reports p file is (is.filterMap (warning? p file)) := by
  induction is with
  | nil => exact .nil
  | cons i is ih =>
      rw [List.filterMap_cons]
      cases hcheck : check p i with
      | nonConformant name resolved =>
          obtain ⟨c, hmisuses, rfl⟩ := check_eq_nonConformant_iff.mp hcheck
          simp only [warning?, hcheck, warning_eq]
          exact .flagged hmisuses ih
      | conformant reason =>
          simp only [warning?, hcheck]
          refine .passed (fun name c hmisuses => ?_) ih
          have hflagged := check_eq_nonConformant_iff.mpr ⟨c, hmisuses, rfl⟩
          rw [hcheck] at hflagged
          cases hflagged

/-- The rule reports exactly the calls that misuse a cmdlet, among those that a walk through the tree
finds, and in the order in which it finds them. -/
theorem analyze_reports_misuses (p : Provider) (t : Tree) (file : String) :
    Reports p file (Walker.ofTree t).toList (analyze p t file) :=
  reports_filterMap p file (Walker.ofTree t).toList

end CmdletUse

end ScriptLint
