import ScriptLint.Rule.Binding

/-!
Bindings, told by the places of the elements. An argument is taken by the parameter right before it, or by
none: it binds by its position then. A parameter is never lost.
-/

namespace ScriptLint

/-- The parameter takes the argument behind it: it has none yet, and its name is not that of a switch. -/
def Element.Takes (command : Option Command) (e : Element) : Prop :=
  ∃ name span, e = .parameter name none span ∧
    ∀ c ∈ command, ∀ q ∈ c.parameter? name, q.isSwitch = false

/-- Every argument among the elements stands right behind a parameter that takes it. -/
def AllTaken (command : Option Command) (es : List Element) : Prop :=
  ∀ k value, es[k]? = some (.argument value) →
    ∃ j e, k = j + 1 ∧ es[j]? = some e ∧ e.Takes command

def Element.parameterName? : Element → Option String
  | .parameter name _ _ => some name
  | .argument _ => none

variable {command : Option Command} {e : Element} {es : List Element}

theorem isSwitch_eq_false_iff {name : String} :
    isSwitch command name = false ↔ ∀ c ∈ command, ∀ q ∈ c.parameter? name, q.isSwitch = false := by
  cases command with
  | none => exact iff_of_true rfl nofun
  | some c => cases h : c.parameter? name <;> simp [isSwitch, h]

theorem Element.not_takes_argument {value : Expression} : ¬(Element.argument value).Takes command := by
  rintro ⟨_, _, heq, -⟩
  cases heq

theorem Element.not_takes_inline {name : String} {value : Expression} {span : Span} :
    ¬(Element.parameter name (some value) span).Takes command := by
  rintro ⟨_, _, heq, -⟩
  cases heq

theorem allTaken_nil : AllTaken command [] :=
  fun _ _ h => absurd h nofun

theorem not_allTaken_argument {value : Expression} : ¬ AllTaken command (.argument value :: es) := by
  intro h
  obtain ⟨j, _, hj, _⟩ := h 0 value rfl
  exact absurd hj nofun

/-- A parameter that takes nothing from behind it. -/
theorem allTaken_cons (hparameter : e.parameterName?.isSome)
    (he : ∀ value, es[0]? = some (.argument value) → ¬ e.Takes command) :
    AllTaken command (e :: es) ↔ AllTaken command es := by
  constructor
  · intro h k value hk
    obtain ⟨j, d, hj, hd, htakes⟩ := h (k + 1) value hk
    obtain rfl := Nat.succ.inj hj
    cases k with
    | zero =>
        obtain rfl := Option.some.inj hd
        exact absurd htakes (he value hk)
    | succ k => exact ⟨k, d, rfl, hd, htakes⟩
  · intro h k value hk
    cases k with
    | zero =>
        obtain rfl := Option.some.inj hk
        exact absurd hparameter nofun
    | succ k =>
        obtain ⟨j, d, rfl, hd, htakes⟩ := h k value hk
        exact ⟨j + 1, d, rfl, hd, htakes⟩

/-- A parameter that takes the argument behind it. -/
theorem allTaken_cons_argument {value : Expression} (he : e.Takes command) :
    AllTaken command (e :: .argument value :: es) ↔ AllTaken command es := by
  constructor
  · intro h k value' hk
    obtain ⟨j, d, hj, hd, htakes⟩ := h (k + 2) value' hk
    obtain rfl := Nat.succ.inj hj
    cases k with
    | zero =>
        obtain rfl := Option.some.inj hd
        exact absurd htakes Element.not_takes_argument
    | succ k => exact ⟨k, d, rfl, hd, htakes⟩
  · intro h k value' hk
    match k with
    | 0 =>
      obtain ⟨_, _, rfl, _⟩ := he
      exact absurd hk nofun
    | 1 => exact ⟨0, e, rfl, rfl, he⟩
    | k + 2 =>
      obtain ⟨j, d, rfl, hd, htakes⟩ := h k value' hk
      exact ⟨j + 2, d, rfl, hd, htakes⟩

/-- No argument binds by its position if each is taken. -/
theorem any_isPositional_bind_iff :
    (bind command es).any Binding.isPositional = false ↔ AllTaken command es := by
  fun_induction bind command es with
  | case1 => exact iff_of_true rfl allTaken_nil
  | case2 value rest ih => exact iff_of_false nofun not_allTaken_argument
  | case3 name value span rest ih =>
      rw [allTaken_cons rfl, ← ih]
      · rfl
      · exact fun _ _ => Element.not_takes_inline
  -- a switch takes nothing: the argument behind it binds by its position
  | case4 name span value rest hswitch ih =>
      rw [allTaken_cons rfl, ← ih]
      · rfl
      · rintro _ _ ⟨_, _, heq, hno⟩
        obtain ⟨rfl, -⟩ := Element.parameter.inj heq
        exact absurd (hswitch.symm.trans (isSwitch_eq_false_iff.mpr hno)) nofun
  | case5 name span value rest hswitch ih =>
      have hno := isSwitch_eq_false_iff.mp (eq_false_of_ne_true hswitch)
      rw [allTaken_cons_argument ⟨name, span, rfl, hno⟩, ← ih]
      rfl
  | case6 name span rest hnext ih =>
      rw [allTaken_cons rfl, ← ih]
      · rfl
      · intro value hvalue
        cases rest with
        | nil => exact absurd hvalue nofun
        | cons e rest =>
            obtain rfl := Option.some.inj hvalue
            exact (hnext value rest rfl).elim

/-- Whether some argument binds by its position depends on no more than what the elements are and what they
take. -/
theorem any_isPositional_bind_map {f : Element → Element}
    (hargument : ∀ e, (f e).parameterName? = none ↔ e.parameterName? = none)
    (htakes : ∀ e, (f e).Takes command ↔ e.Takes command) (es : List Element) :
    (bind command (es.map f)).any Binding.isPositional = (bind command es).any Binding.isPositional := by
  have hisArgument (e : Element) : e.parameterName? = none ↔ ∃ value, e = .argument value := by
    cases e <;> simp [Element.parameterName?]
  have hiff : AllTaken command (es.map f) ↔ AllTaken command es := by
    unfold AllTaken
    simp only [List.getElem?_map, Option.map_eq_some_iff]
    constructor
    · intro h k value hk
      obtain ⟨value', hvalue'⟩ := (hisArgument _).mp ((hargument (.argument value)).mpr rfl)
      obtain ⟨j, _, hj, ⟨e, he, rfl⟩, htaken⟩ := h k value' ⟨_, hk, hvalue'⟩
      exact ⟨j, e, hj, he, (htakes e).mp htaken⟩
    · rintro h k value ⟨e, hk, he⟩
      obtain ⟨value', rfl⟩ := (hisArgument e).mp ((hargument e).mp (by rw [he]; rfl))
      obtain ⟨j, e, hj, he, htaken⟩ := h k value' hk
      exact ⟨j, f e, hj, ⟨e, he, rfl⟩, (htakes e).mpr htaken⟩
  rw [← any_isPositional_bind_iff, ← any_isPositional_bind_iff] at hiff
  rw [Bool.eq_iff_iff]
  simpa only [Bool.not_eq_false] using not_congr hiff

theorem bind_arguments (values : List Expression) :
    bind command (values.map .argument) = values.map .positional := by
  induction values with
  | nil => rfl
  | cons value values ih => exact congrArg (Binding.positional value :: ·) ih

theorem takes_iff {name : String} {span : Span} :
    (Element.parameter name none span).Takes command ↔ isSwitch command name = false := by
  rw [isSwitch_eq_false_iff]
  constructor
  · rintro ⟨_, _, heq, hno⟩
    cases heq
    exact hno
  · exact fun hno => ⟨name, span, rfl, hno⟩

theorem bind_of_takes {name : String} {span : Span} {value : Expression}
    (h : (Element.parameter name none span).Takes command) :
    bind command (.parameter name none span :: .argument value :: es) =
      .named name span (.following value) :: bind command es := by
  rw [bind, takes_iff.mp h]
  rfl

theorem bind_of_not_takes {name : String} {span : Span}
    (h : ∀ value, es.head? = some (.argument value) → ¬ (Element.parameter name none span).Takes command) :
    bind command (.parameter name none span :: es) = .named name span .none :: bind command es := by
  match es with
  | [] => rfl
  | .parameter _ _ _ :: _ =>
    rw [bind]
    exact nofun
  | .argument value :: _ =>
    have hswitch : isSwitch command name = true := by simpa [takes_iff] using h value rfl
    conv => lhs; rw [bind, if_pos hswitch]

/-- Of what stands in front only the last element may reach to what stands behind. -/
theorem bind_append {rest : List Element}
    (h : ∀ e ∈ es.getLast?, ∀ value, rest.head? = some (.argument value) → ¬ e.Takes command) :
    bind command (es ++ rest) = bind command es ++ bind command rest := by
  have htail {e : Element} {es : List Element}
      (h : ∀ d ∈ (e :: es).getLast?, ∀ value, rest.head? = some (.argument value) → ¬ d.Takes command) :
      ∀ d ∈ es.getLast?, ∀ value, rest.head? = some (.argument value) → ¬ d.Takes command :=
    fun d hd => h d (by rw [List.getLast?_cons, Option.mem_def.mp hd]; rfl)
  fun_induction bind command es with
  | case1 => rfl
  | case2 value es ih => exact congrArg (Binding.positional value :: ·) (ih (htail h))
  | case3 name value span es ih =>
      exact congrArg (Binding.named name span (.inline value) :: ·) (ih (htail h))
  | case4 name span value es hswitch ih =>
      rw [List.cons_append, bind_of_not_takes fun _ _ => by simp [takes_iff, hswitch], ih (htail h)]
      rfl
  | case5 name span value es hswitch ih =>
      have htakes : (Element.parameter name none span).Takes command :=
        takes_iff.mpr (eq_false_of_ne_true hswitch)
      rw [List.cons_append, List.cons_append, bind_of_takes htakes, ih (htail (htail h))]
      rfl
  | case6 name span es hnext ih =>
      rw [List.cons_append, bind_of_not_takes fun value hvalue => ?_, ih (htail h)]
      · rfl
      · cases es with
        | nil => exact h _ rfl value hvalue
        | cons e es =>
            cases Option.some.inj hvalue
            exact (hnext value es rfl).elim

/-- The parameters keep their names and their order. -/
theorem filterMap_name?_bind :
    (bind command es).filterMap Binding.name? = es.filterMap Element.parameterName? := by
  fun_induction bind command es with
  | case1 => rfl
  | case2 value rest ih => exact ih
  | case3 name value span rest ih => exact congrArg (name :: ·) ih
  | case4 name span value rest hswitch ih => exact congrArg (name :: ·) ih
  | case5 name span value rest hswitch ih => exact congrArg (name :: ·) ih
  | case6 name span rest hnext ih => exact congrArg (name :: ·) ih

theorem Invocation.namedParameters_eq (i : Invocation) (command : Option Command) :
    i.namedParameters command = i.elements.filterMap Element.parameterName? := filterMap_name?_bind

/-- Of a command, a binding depends only on which parameters are switches. -/
theorem bind_eq_of_isSwitch_eq {command' : Option Command}
    (h : ∀ name, isSwitch command name = isSwitch command' name) (es : List Element) :
    bind command es = bind command' es := by
  fun_induction bind command es with
  | case1 => rfl
  | case2 value rest ih => rw [ih, bind]
  | case3 name value span rest ih => rw [ih, bind]
  | case4 name span value rest hswitch ih =>
      conv => rhs; rw [bind, ← h, if_pos hswitch]
      rw [ih]
  | case5 name span value rest hswitch ih =>
      conv => rhs; rw [bind, ← h, if_neg hswitch]
      rw [ih]
  | case6 name span rest hnext ih =>
      rw [ih, eq_comm, bind]
      exact hnext

end ScriptLint
