import ScriptLint.Proofs.Rule.CmdletUse
import ScriptLint.Proofs.Rule.Pairing

/-!
What keeps the rule on cmdlets silent. The rule says nothing about a call if an argument binds by its position,
or if a parameter is named that the command always asks for. More elements behind those of the call take
neither away, and neither do more switches among the parameters of the command, as a switch takes no argument.
-/

namespace ScriptLint

def Verdict.isConformant : Verdict → Bool
  | .conformant _ => true
  | .nonConformant _ _ => false

/-- The call with more elements behind its own. -/
def Invocation.append (i : Invocation) (es : List Element) : Invocation :=
  { i with elements := i.elements ++ es }

/-- The command with the parameters at the chosen places made switches. -/
def Command.withSwitches (c : Command) (chosen : Nat → Bool) : Command :=
  { c with parameters := c.parameters.mapIdx fun k q => { q with isSwitch := q.isSwitch || chosen k } }

/-- The provider that answers with such commands; the parameters are chosen for each name that it is asked. -/
def Provider.withSwitches (p : Provider) (chosen : String → Nat → Bool) : Provider where
  alias? := p.alias?
  metadata name := (p.metadata name).map (Option.map (·.withSwitches (chosen name)))

section Binding

variable {command command' : Option Command} {e : Element} {es : List Element} {k : Nat} {value : Expression}

/-- Where there are more switches, fewer parameters take what stands behind them. -/
theorem Element.Takes.mono (h : ∀ name, isSwitch command name → isSwitch command' name)
    (he : e.Takes command') : e.Takes command := by
  obtain ⟨name, span, rfl, hno⟩ := he
  rw [takes_iff]
  rw [← isSwitch_eq_false_iff] at hno
  exact eq_false_of_ne_true fun hswitch => Bool.false_ne_true (hno.symm.trans (h name hswitch))

theorem startsAt_positional_mono (h : ∀ name, isSwitch command name → isSwitch command' name)
    (hk : Binding.StartsAt (bind command es) k (.positional value)) :
    Binding.StartsAt (bind command' es) k (.positional value) := by
  rw [startsAt_bind_iff] at hk ⊢
  cases hk with
  | positional hvalue hfree => exact .positional hvalue fun j e hj he htakes => hfree j e hj he (htakes.mono h)

theorem AllTaken.mono (h : ∀ name, isSwitch command name → isSwitch command' name)
    (hall : AllTaken command' es) : AllTaken command es := by
  intro k value hk
  obtain ⟨j, e, hj, he, htakes⟩ := hall k value hk
  exact ⟨j, e, hj, he, htakes.mono h⟩

theorem AllTaken.of_append {rest : List Element} (h : AllTaken command (es ++ rest)) : AllTaken command es := by
  intro k value hk
  have hlt := (List.getElem?_eq_some_iff.mp hk).1
  obtain ⟨j, e, rfl, he, htakes⟩ := h k value (by rwa [List.getElem?_append_left hlt])
  refine ⟨j, e, rfl, ?_, htakes⟩
  rwa [List.getElem?_append_left (by omega)] at he

end Binding

section Switches

variable (c : Command) (chosen : Nat → Bool)

theorem isSwitch_withSwitches (name : String) (h : isSwitch (some c) name) :
    isSwitch (some (c.withSwitches chosen)) name := by
  obtain ⟨commandName, kind, count, qs⟩ := c
  simp only [isSwitch, Option.any_some, Command.parameter?, Command.withSwitches] at h ⊢
  -- a place in the rest of the parameters is one further in the whole list
  induction qs generalizing chosen with
  | nil => exact h
  | cons q qs ih =>
      rw [List.mapIdx_cons, List.find?_cons]
      rw [List.find?_cons] at h
      cases hq : Text.sameName q.name name with
      | true =>
          simp only [hq, Option.any_some] at h ⊢
          rw [h, Bool.true_or]
      | false =>
          simp only [hq] at h ⊢
          exact ih (fun k => chosen (k + 1)) h

/-- What a command asks for does not depend on which of its parameters are switches. -/
theorem requires_withSwitches_iff (name : String) :
    (∃ q, (c.withSwitches chosen).Requires q ∧ q.name = name) ↔ ∃ q, c.Requires q ∧ q.name = name := by
  constructor
  · rintro ⟨q, ⟨hmem, hcount⟩, rfl⟩
    obtain ⟨k, hk, rfl⟩ := List.mem_mapIdx.mp hmem
    exact ⟨c.parameters[k], ⟨List.getElem_mem hk, hcount⟩, rfl⟩
  · rintro ⟨q, ⟨hmem, hcount⟩, rfl⟩
    obtain ⟨k, hk, rfl⟩ := List.mem_iff_getElem.mp hmem
    exact ⟨_, ⟨List.mem_mapIdx.mpr ⟨k, hk, rfl⟩, hcount⟩, rfl⟩

end Switches

namespace Provider

variable {p : Provider} {chosen : String → Nat → Bool} {name : String}

theorem metadata_withSwitches_iff {c : Command} :
    (p.withSwitches chosen).metadata name = .ok (some c) ↔
      ∃ d, p.metadata name = .ok (some d) ∧ d.withSwitches (chosen name) = c := by
  simp only [withSwitches]
  cases p.metadata name with
  | error fault => simp [Except.map]
  | ok answer => cases answer <;> simp [Except.map]

theorem StandsFor.of_withSwitches {c : Command} (h : (p.withSwitches chosen).StandsFor name c) :
    ∃ d switches, p.StandsFor name d ∧ d.withSwitches switches = c := by
  rcases h with ⟨target, halias, hmeta⟩ | ⟨hnone, hmeta⟩
  · obtain ⟨d, hd, rfl⟩ := metadata_withSwitches_iff.mp hmeta
    exact ⟨d, chosen target, .inl ⟨target, halias, hd⟩, rfl⟩
  · obtain ⟨d, hd, rfl⟩ := metadata_withSwitches_iff.mp hmeta
    refine ⟨d, chosen name, .inr ⟨fun target halias d' hd' => ?_, hd⟩, rfl⟩
    exact hnone target halias _ (metadata_withSwitches_iff.mpr ⟨d', hd', rfl⟩)

end Provider

namespace Invocation.Misuses

variable {p : Provider} {i : Invocation} {name : String} {c : Command}

theorem of_append {es : List Element} (h : (i.append es).Misuses p name c) : i.Misuses p name c where
  named := h.named
  resolved := h.resolved
  cmdlet := h.cmdlet
  required := h.required
  taken := h.taken.of_append
  unnamed other argument span hmem := h.unnamed other argument span (List.mem_append_left es hmem)

theorem of_withSwitches {chosen : String → Nat → Bool} (h : i.Misuses (p.withSwitches chosen) name c) :
    ∃ d, i.Misuses p name d := by
  obtain ⟨d, switches, hd, rfl⟩ := h.resolved.of_withSwitches
  refine ⟨d, ?_⟩
  constructor
  case named => exact h.named
  case resolved => exact hd
  case cmdlet => exact h.cmdlet
  case required =>
    obtain ⟨q, hq⟩ := h.required
    obtain ⟨q', hq', -⟩ := (requires_withSwitches_iff d switches q.name).mp ⟨q, hq, rfl⟩
    exact ⟨q', hq'⟩
  case taken => exact h.taken.mono (isSwitch_withSwitches d switches)
  case unnamed =>
    intro other argument span hmem q hq
    obtain ⟨q', hq', hname⟩ := (requires_withSwitches_iff d switches q.name).mpr ⟨q, hq, rfl⟩
    exact hname ▸ h.unnamed other argument span hmem q' hq'

end Invocation.Misuses

namespace CmdletUse

theorem isConformant_check_iff {p : Provider} {i : Invocation} :
    (check p i).isConformant ↔ ∀ name c, ¬ i.Misuses p name c := by
  constructor
  · intro h name c hmisuses
    rw [check_eq_nonConformant_iff.mpr ⟨c, hmisuses, rfl⟩] at h
    exact Bool.false_ne_true h
  · intro h
    cases hcheck : check p i with
    | conformant reason => rfl
    | nonConformant name resolved =>
        obtain ⟨c, hmisuses, -⟩ := check_eq_nonConformant_iff.mp hcheck
        exact absurd hmisuses (h name c)

/-- What keeps the verdict on a call a silent one: more elements at its end, and more switches among the
parameters of the commands. -/
structure KeepsSilent (p : Provider) (i : Invocation) : Prop where
  appended (es : List Element) : (check p i).isConformant → (check p (i.append es)).isConformant
  switched (chosen : String → Nat → Bool) :
    (check p i).isConformant → (check (p.withSwitches chosen) i).isConformant
  -- what binds by its position goes on doing so, and the names stay
  positional (c : Command) (chosen : Nat → Bool) (k : Nat) (value : Expression) :
    Binding.StartsAt (i.bindings (some c)) k (.positional value) →
      Binding.StartsAt (i.bindings (some (c.withSwitches chosen))) k (.positional value)
  named (c : Command) (chosen : Nat → Bool) :
    i.namedParameters (some (c.withSwitches chosen)) = i.namedParameters (some c)
  known (command : Option Command) (k : Nat) (value : Expression) :
    Binding.StartsAt (i.bindings none) k (.positional value) →
      Binding.StartsAt (i.bindings command) k (.positional value)

/-- Neither more elements nor more switches end the silence on a call. -/
theorem check_keeps_silent (p : Provider) (i : Invocation) : KeepsSilent p i := by
  constructor
  case appended =>
    intro es hsilent
    rw [isConformant_check_iff] at hsilent ⊢
    exact fun name c hmisuses => hsilent name c hmisuses.of_append
  case switched =>
    intro chosen hsilent
    rw [isConformant_check_iff] at hsilent ⊢
    intro name c hmisuses
    obtain ⟨d, hd⟩ := hmisuses.of_withSwitches
    exact hsilent name d hd
  case positional =>
    intro c chosen k value
    exact startsAt_positional_mono (isSwitch_withSwitches c chosen)
  case named =>
    intro c chosen
    rw [i.namedParameters_eq, i.namedParameters_eq]
  case known =>
    intro command k value
    -- without a command there are no switches at all
    exact startsAt_positional_mono fun name hswitch => absurd hswitch Bool.false_ne_true

end CmdletUse

end ScriptLint
