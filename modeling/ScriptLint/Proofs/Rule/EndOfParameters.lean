import ScriptLint.Proofs.Parser.EndOfParameters
import ScriptLint.Proofs.Rule.CmdletUse

/-!
What binds behind the end of the parameters. The elements of a call do not tell where the word `--` stood, so a
parameter right in front of it takes the first argument behind it. All other arguments behind the word bind
by their position.
-/

namespace ScriptLint

/-- How the arguments behind the word `t` bind, `front` being the elements in front of it. -/
structure Invocation.BindsBehind (i : Invocation) (t : Token) (front : List Element)
    (values : List Expression) : Prop extends i.SplitAt t front values where
  positional : ∀ command, (∀ e ∈ front.getLast?, ¬ e.Takes command) →
    i.bindings command = bind command front ++ values.map .positional
  taken : ∀ command name span, front.getLast? = some (.parameter name none span) →
    (Element.parameter name none span).Takes command → ∀ value rest, values = value :: rest →
    i.bindings command =
      bind command front.dropLast ++ .named name span (.following value) :: rest.map .positional
  reported : ∀ p name resolved, CmdletUse.check p i = .nonConformant name resolved →
    values = [] ∨ ∃ value c e, values = [value] ∧ p.StandsFor name c ∧ front.getLast? = some e ∧
      e.Takes (some c)

namespace Invocation.SplitAt

variable {i : Invocation} {t : Token} {front : List Element} {values : List Expression}
  {command : Option Command}

theorem bindings_of_not_takes (h : i.SplitAt t front values)
    (hlast : ∀ e ∈ front.getLast?, ¬ e.Takes command) :
    i.bindings command = bind command front ++ values.map .positional := by
  rw [bindings, h.elements_eq, bind_append fun e he _ _ => hlast e he, bind_arguments]

theorem bindings_of_takes {name : String} {span : Span} {value : Expression} {rest : List Expression}
    (h : i.SplitAt t front (value :: rest)) (hlast : front.getLast? = some (.parameter name none span))
    (htakes : (Element.parameter name none span).Takes command) :
    i.bindings command =
      bind command front.dropLast ++ .named name span (.following value) :: rest.map .positional := by
  obtain ⟨others, rfl⟩ := List.getLast?_eq_some_iff.mp hlast
  -- a parameter stands in front of the argument, so nothing else can take it
  have hparameter : ∀ e ∈ others.getLast?, ∀ v, (Element.parameter name none span ::
      (value :: rest).map Element.argument).head? = some (.argument v) → ¬ e.Takes command := nofun
  rw [bindings, h.elements_eq, List.append_assoc, List.singleton_append, bind_append hparameter,
    List.map_cons, bind_of_takes htakes, bind_arguments, List.dropLast_concat]

/-- A call is reported only if nothing behind the word binds by its position. -/
theorem of_nonConformant (h : i.SplitAt t front values) {p : Provider} {name resolved : String}
    (hcheck : CmdletUse.check p i = .nonConformant name resolved) :
    values = [] ∨ ∃ value c e, values = [value] ∧ p.StandsFor name c ∧ front.getLast? = some e ∧
      e.Takes (some c) := by
  obtain ⟨c, hmisuses, -⟩ := CmdletUse.check_eq_nonConformant_iff.mp hcheck
  have hnone : (i.bindings (some c)).any Binding.isPositional = false :=
    any_isPositional_bind_iff.mpr hmisuses.taken
  by_cases hlast : ∃ e ∈ front.getLast?, e.Takes (some c)
  · obtain ⟨e, he, htakes⟩ := hlast
    obtain ⟨parameter, span, rfl, -⟩ := id htakes
    cases values with
    | nil => exact .inl rfl
    | cons value rest =>
        rw [h.bindings_of_takes he htakes] at hnone
        have hrest : rest = [] := by
          cases rest with
          | nil => rfl
          | cons value' rest => simp [Binding.isPositional] at hnone
        exact .inr ⟨value, c, _, by rw [hrest], hmisuses.resolved, he, htakes⟩
  · rw [h.bindings_of_not_takes fun e he htakes => hlast ⟨e, he, htakes⟩] at hnone
    cases values with
    | nil => exact .inl rfl
    | cons value rest => simp [Binding.isPositional] at hnone

end Invocation.SplitAt

/-- The elements of a call behind a word that ends its parameters are arguments. With any command, or none,
they bind by their position, but for the first of them where the last element in front of the word is a
parameter that takes it; so a call that is reported has no argument behind the word, or only one that is
taken in this way. -/
theorem bindings_behind_end_of_parameters (source : String) (i : Invocation)
    (hi : i ∈ (parse source).tree.calls) (t : Token) (ht : t ∈ tokenize source)
    (h : i.EndsParameters t) : ∃ front values, i.BindsBehind t front values := by
  obtain ⟨front, values, hsplit⟩ := splitAt_of_endsParameters hi ht h
  refine ⟨front, values, hsplit, ?_, ?_, ?_⟩
  · exact fun command => hsplit.bindings_of_not_takes
  · rintro command name span hlast htakes value rest rfl
    exact hsplit.bindings_of_takes hlast htakes
  · exact fun p name resolved => hsplit.of_nonConformant

theorem bindings_behind_end_of_parameters_call :
    ∃ i ∈ (parse "Copy-Item -Path -- a b").tree.calls, ∃ t ∈ tokenize "Copy-Item -Path -- a b",
      i.EndsParameters t ∧ ∃ front values, i.BindsBehind t front values := by
  have hexists : ∃ i ∈ (parse "Copy-Item -Path -- a b").tree.calls,
      ∃ t ∈ tokenize "Copy-Item -Path -- a b", i.EndsParameters t := by
    decide +kernel
  obtain ⟨i, hi, t, ht, h⟩ := hexists
  exact ⟨i, hi, t, ht, h, bindings_behind_end_of_parameters _ i hi t ht h⟩

/-- In `Get-Item -Path -- foo` the argument `foo` stands behind the end of the parameters, and the parameter
in front of it takes it: nothing binds by its position. -/
theorem parameter_takes_behind_end_of_parameters :
    ∃ i ∈ (parse "Get-Item -Path -- foo").tree.calls, ∃ t ∈ tokenize "Get-Item -Path -- foo",
      i.EndsParameters t ∧ (∃ e ∈ i.elements, t.stop ≤ e.span.start) ∧
        ∀ b ∈ i.bindings none, b.isPositional = false := by
  decide +kernel

end ScriptLint
