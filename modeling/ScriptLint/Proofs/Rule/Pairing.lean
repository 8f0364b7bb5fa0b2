import Mathlib.Logic.ExistsUnique
import ScriptLint.Proofs.Rule.Binding

/-!
Bindings by their places. The elements of the bindings, put one behind the other, are the elements of the call,
so each element belongs to one binding and each binding has its place among the elements. What a binding is
follows from the element at its place and from the ones next to it; what stands further away has no part in it.
-/

namespace ScriptLint

namespace Binding

/-- Among some bindings `b` starts at a place: so many elements belong to the bindings in front of it. -/
inductive StartsAt : List Binding → Nat → Binding → Prop
  | head {b : Binding} {bs : List Binding} : StartsAt (b :: bs) 0 b
  | tail {a b : Binding} {bs : List Binding} {k : Nat} : StartsAt bs k b →
      StartsAt (a :: bs) (a.elements.length + k) b

/-- The element at the place `n` is one of those that belong to `b`, which starts at `k`. -/
def Covers (b : Binding) (k n : Nat) : Prop := k ≤ n ∧ n < k + b.elements.length

variable {b : Binding} {bs : List Binding} {k n : Nat}

theorem not_startsAt_nil : ¬StartsAt [] k b := nofun

theorem exists_covers (h : n < (bs.flatMap elements).length) : ∃ k b, StartsAt bs k b ∧ b.Covers k n := by
  induction bs generalizing n with
  | nil => exact absurd h (Nat.not_lt_zero n)
  | cons a bs ih =>
      rw [List.flatMap_cons, List.length_append] at h
      by_cases hn : n < a.elements.length
      · exact ⟨0, a, .head, Nat.zero_le n, by rwa [Nat.zero_add]⟩
      · obtain ⟨k, b, hb, hle, hlt⟩ := ih (n := n - a.elements.length) (by omega)
        exact ⟨_, b, .tail hb, by omega, by omega⟩

theorem StartsAt.eq_of_covers {k' : Nat} {b' : Binding} (h : StartsAt bs k b) (h' : StartsAt bs k' b')
    (hn : b.Covers k n) (hn' : b'.Covers k' n) : k = k' ∧ b = b' := by
  obtain ⟨hle, hlt⟩ := hn
  obtain ⟨hle', hlt'⟩ := hn'
  induction h generalizing k' n with
  | head =>
      cases h' with
      | head => exact ⟨rfl, rfl⟩
      | tail h' => omega
  | @tail a b bs k h ih =>
      cases h' with
      | head => omega
      | tail h' =>
          obtain ⟨rfl, rfl⟩ := ih (n := n - a.elements.length) h' (by omega) (by omega) (by omega) (by omega)
          exact ⟨rfl, rfl⟩

/-- Every element belongs to one of the bindings, and to no other one. -/
theorem existsUnique_covers (h : n < (bs.flatMap elements).length) :
    ∃! p : Nat × Binding, StartsAt bs p.1 p.2 ∧ p.2.Covers p.1 n := by
  obtain ⟨k, b, hb, hn⟩ := exists_covers h
  refine ⟨(k, b), ⟨hb, hn⟩, fun p hp => ?_⟩
  obtain ⟨hk, hb'⟩ := hp.1.eq_of_covers hb hp.2 hn
  exact Prod.ext hk hb'

end Binding

/-- The binding that starts with the element at a place, by what stands next to it. -/
inductive Binds (command : Option Command) (es : List Element) : Nat → Binding → Prop
  /-- An argument that the element in front of it does not take. -/
  | positional {k : Nat} {value : Expression} : es[k]? = some (.argument value) →
      (∀ j e, k = j + 1 → es[j]? = some e → ¬e.Takes command) → Binds command es k (.positional value)
  | inline {k : Nat} {name : String} {span : Span} {value : Expression} :
      es[k]? = some (.parameter name (some value) span) → Binds command es k (.named name span (.inline value))
  /-- A parameter that takes the argument right behind it. -/
  | following {k : Nat} {name : String} {span : Span} {value : Expression} :
      es[k]? = some (.parameter name none span) → (Element.parameter name none span).Takes command →
      es[k + 1]? = some (.argument value) → Binds command es k (.named name span (.following value))
  /-- A parameter that takes nothing. -/
  | bare {k : Nat} {name : String} {span : Span} : es[k]? = some (.parameter name none span) →
      (∀ value, es[k + 1]? = some (.argument value) → ¬(Element.parameter name none span).Takes command) →
      Binds command es k (.named name span .none)

variable {command : Option Command} {e : Element} {es : List Element} {k : Nat} {b : Binding}

theorem flatMap_elements_bind (command : Option Command) (es : List Element) :
    (bind command es).flatMap Binding.elements = es := by
  fun_induction bind command es with
  | case1 => rfl
  | case2 value rest ih => exact congrArg (Element.argument value :: ·) ih
  | case3 name value span rest ih => exact congrArg (Element.parameter name (some value) span :: ·) ih
  | case4 name span value rest hswitch ih => exact congrArg (Element.parameter name none span :: ·) ih
  | case5 name span value rest hswitch ih =>
      exact congrArg (Element.parameter name none span :: .argument value :: ·) ih
  | case6 name span rest hnext ih => exact congrArg (Element.parameter name none span :: ·) ih

namespace Binds

theorem lt_length (h : Binds command es k b) : k < es.length := by
  cases h with
  | positional hk | inline hk | following hk | bare hk => exact (List.getElem?_eq_some_iff.mp hk).1

theorem unique {b' : Binding} (h : Binds command es k b) (h' : Binds command es k b') : b = b' := by
  -- of two kinds, one asks for another element, or denies what the other says is taken
  cases h <;> cases h' <;> simp_all

/-- An element in front changes nothing, but for an argument right behind it that it takes. -/
theorem behind (h : Binds command es k b)
    (he : k = 0 → ∀ value, es.head? = some (.argument value) → ¬e.Takes command) :
    Binds command (e :: es) (k + 1) b := by
  cases h with
  | positional hk hfree =>
      refine .positional hk fun j d hj hd => ?_
      obtain rfl := Nat.succ.inj hj
      cases k with
      | zero =>
          obtain rfl := Option.some.inj hd
          exact he rfl _ (List.head?_eq_getElem?.trans hk)
      | succ j => exact hfree j d rfl hd
  | inline hk => exact .inline hk
  | following hk htakes hnext => exact .following hk htakes hnext
  | bare hk hnext => exact .bare hk hnext

/-- The first of some bindings, or one behind it. -/
theorem of_cons {a : Binding} {bs : List Binding} (h : Binding.StartsAt (a :: bs) k b)
    (hfirst : Binds command es 0 a)
    (hbehind : ∀ j, Binding.StartsAt bs j b → Binds command es (j + a.elements.length) b) :
    Binds command es k b := by
  cases h with
  | head => exact hfirst
  | tail h =>
      rw [Nat.add_comm]
      exact hbehind _ h

theorem of_startsAt (h : Binding.StartsAt (bind command es) k b) : Binds command es k b := by
  fun_induction bind command es generalizing k b with
  | case1 => exact absurd h Binding.not_startsAt_nil
  | case2 value rest ih =>
      exact of_cons h (.positional rfl fun j _ hj => absurd hj (Nat.zero_ne_add_one j)) fun j hj =>
        (ih hj).behind fun _ _ _ => Element.not_takes_argument
  | case3 name value span rest ih =>
      exact of_cons h (.inline rfl) fun j hj => (ih hj).behind fun _ _ _ => Element.not_takes_inline
  | case4 name span value rest hswitch ih =>
      have hno : ¬(Element.parameter name none span).Takes command := by simp [takes_iff, hswitch]
      exact of_cons h (.bare rfl fun _ _ => hno) fun j hj => (ih hj).behind fun _ _ _ => hno
  | case5 name span value rest hswitch ih =>
      have htakes : (Element.parameter name none span).Takes command :=
        takes_iff.mpr (eq_false_of_ne_true hswitch)
      exact of_cons h (.following rfl htakes rfl) fun j hj =>
        ((ih hj).behind fun _ _ _ => Element.not_takes_argument).behind fun h => absurd h (Nat.succ_ne_zero j)
  -- no argument stands right behind the parameter
  | case6 name span rest hnext ih =>
      have hno (value : Expression) : rest.head? ≠ some (.argument value) := by
        intro hvalue
        obtain ⟨rest', rfl⟩ := List.head?_eq_some_iff.mp hvalue
        exact hnext value rest' rfl
      refine of_cons h (.bare rfl fun value hvalue => ?_) fun j hj =>
        (ih hj).behind fun _ value hvalue => (hno value hvalue).elim
      exact (hno value (List.head?_eq_getElem?.trans hvalue)).elim

/-- An element that belongs to a binding is the first of it, or the argument that the first takes. -/
theorem eq_or_taken {n : Nat} (h : Binds command es k b) (hn : b.Covers k n) :
    n = k ∨ ∃ e value, n = k + 1 ∧ es[k]? = some e ∧ e.Takes command ∧ es[n]? = some (.argument value) := by
  obtain ⟨hle, hlt⟩ := hn
  cases h with
  | positional | inline | bare => exact .inl (Nat.le_antisymm (Nat.le_of_lt_succ hlt) hle)
  | following hk htakes hnext =>
      rcases Nat.eq_or_lt_of_le hle with rfl | hlt'
      · exact .inl rfl
      · obtain rfl : n = k + 1 := Nat.le_antisymm (Nat.le_of_lt_succ hlt) hlt'
        exact .inr ⟨_, _, rfl, hk, htakes, hnext⟩

/-- No binding starts with an argument that is taken. -/
theorem not_takes {value : Expression} (h : Binds command es (k + 1) b)
    (hvalue : es[k + 1]? = some (.argument value)) (he : es[k]? = some e) : ¬e.Takes command := by
  cases h with
  | positional _ hfree => exact hfree k e rfl he
  | inline hk | following hk | bare hk => cases hk.symm.trans hvalue

end Binds

/-- The bindings that start somewhere are those that the elements make there. -/
theorem startsAt_bind_iff : Binding.StartsAt (bind command es) k b ↔ Binds command es k b := by
  refine ⟨Binds.of_startsAt, fun h => ?_⟩
  -- the element belongs to some binding, which can only be this one
  have hk : k < ((bind command es).flatMap Binding.elements).length := by
    rw [flatMap_elements_bind]
    exact h.lt_length
  obtain ⟨j, d, hd, hcovers⟩ := Binding.exists_covers hk
  rcases (Binds.of_startsAt hd).eq_or_taken hcovers with rfl | ⟨e, value, rfl, he, htakes, hvalue⟩
  · rwa [h.unique (Binds.of_startsAt hd)]
  · exact absurd htakes (h.not_takes hvalue he)

/-- How the elements of a call are paired, with what is known of its command. -/
structure Invocation.Paired (i : Invocation) (command : Option Command) : Prop where
  /-- The bindings give the elements back. -/
  elements_eq : (i.bindings command).flatMap Binding.elements = i.elements
  /-- Each element belongs to one binding; so an argument is the value of one parameter at most. -/
  belongs : ∀ k < i.elements.length,
    ∃! p : Nat × Binding, Binding.StartsAt (i.bindings command) p.1 p.2 ∧ p.2.Covers p.1 k
  /-- A parameter has a value from behind it if it takes one, and not otherwise. -/
  binds_iff : ∀ k b, Binding.StartsAt (i.bindings command) k b ↔ Binds command i.elements k b
  /-- The names are those of all parameters in their order. -/
  names_eq : i.namedParameters command = i.elements.filterMap Element.parameterName?

/-- Pairing loses nothing and invents nothing, whatever is known of the command. -/
theorem elements_paired (i : Invocation) (command : Option Command) : i.Paired command where
  elements_eq := flatMap_elements_bind command i.elements
  belongs := fun k hk => Binding.existsUnique_covers (by rwa [Invocation.bindings, flatMap_elements_bind])
  binds_iff := fun _ _ => startsAt_bind_iff
  names_eq := i.namedParameters_eq command

end ScriptLint
