import Mathlib.Data.List.Perm.Subperm
import ScriptLint.Proofs.Catalog.Validity
import ScriptLint.Proofs.Rule.CmdletUse

/-!
What it means for the parameter sets of a command that a parameter counts as mandatory. The rule only
counts declarations; the catalog makes sure that they name sets of their command. Together the two are
enough unless a set is counted twice.
-/

namespace ScriptLint

/-- The declaration holds in the parameter set. The set without a name is `none`. -/
def Declaration.AppliesTo (d : Declaration) (set : Option String) : Prop :=
  d.set = none ∨ d.set.map Text.fold = set.map Text.fold

/-- The parameter is mandatory in the parameter set. -/
def ParameterEntry.MandatoryIn (p : ParameterEntry) (set : Option String) : Prop :=
  ∃ d ∈ p.declarations, d.mandatory = true ∧ d.AppliesTo set

/-- The sets that the mandatory declarations of the parameter name, without regard to case. -/
def ParameterEntry.mandatorySets (p : ParameterEntry) : List String :=
  (p.declarations.filter (·.mandatory)).filterMap fun d => d.set.map Text.fold

/-- One of the mandatory declarations of the parameter is for all the sets, or no two of them are for the
same one. -/
def ParameterEntry.CountsOnce (p : ParameterEntry) : Prop :=
  (∃ d ∈ p.declarations, d.mandatory = true ∧ d.set = none) ∨ p.mandatorySets.Nodup

/-- The parameter sets of the command. -/
def CommandEntry.sets (c : CommandEntry) : List (Option String) :=
  if c.parameterSets = [] then [none] else c.parameterSets.map some

namespace ParameterEntry

theorem mem_mandatorySets {p : ParameterEntry} {name : String} :
    name ∈ p.mandatorySets ↔
      ∃ d ∈ p.declarations, d.mandatory = true ∧ d.set.map Text.fold = some name := by
  simp only [mandatorySets, List.mem_filterMap, List.mem_filter, and_assoc]

/-- Without a mandatory declaration for all the sets, each mandatory declaration names one. -/
theorem length_mandatorySets {p : ParameterEntry}
    (h : ∀ d ∈ p.declarations, d.mandatory = true → d.set ≠ none) :
    p.mandatorySets.length = (p.declarations.map (·.mandatory)).count true := by
  unfold mandatorySets
  revert h
  induction p.declarations with
  | nil => exact fun _ => rfl
  | cons d ds ih =>
      intro h
      obtain ⟨hd, hds⟩ := List.forall_mem_cons.mp h
      rw [List.filter_cons, List.map_cons, List.count_cons]
      by_cases hmandatory : d.mandatory = true
      · obtain ⟨set, hset⟩ := Option.ne_none_iff_exists'.mp (hd hmandatory)
        rw [if_pos hmandatory, List.filterMap_cons_some (by rw [hset]; rfl), List.length_cons, ih hds,
          if_pos (beq_iff_eq.mpr hmandatory)]
      · rw [if_neg hmandatory, ih hds, if_neg (mt beq_iff_eq.mp hmandatory), Nat.add_zero]

end ParameterEntry

namespace CommandEntry

variable {c : CommandEntry} {p : ParameterEntry}

/-- The declarations of one parameter are told apart by the sets they name; so many of them leave none
of the declared sets out. -/
theorem WellFormed.mandatoryIn (hc : c.WellFormed) (hp : p ∈ c.parameters)
    (hcount : c.setCount ≤ (p.declarations.map (·.mandatory)).count true)
    (honce : p.CountsOnce) : ∀ set ∈ c.sets, p.MandatoryIn set := by
  by_cases hall : ∃ d ∈ p.declarations, d.mandatory = true ∧ d.set = none
  · obtain ⟨d, hd, hmandatory, hset⟩ := hall
    exact fun set _ => ⟨d, hd, hmandatory, .inl hset⟩
  have hnodup := honce.resolve_left hall
  have hsome : ∀ d ∈ p.declarations, d.mandatory = true → d.set ≠ none :=
    fun d hd hmandatory hset => hall ⟨d, hd, hmandatory, hset⟩
  rw [← ParameterEntry.length_mandatorySets hsome] at hcount
  have hsubset : p.mandatorySets ⊆ c.parameterSets.map Text.fold := by
    intro name hname
    obtain ⟨d, hd, -, hfold⟩ := ParameterEntry.mem_mandatorySets.mp hname
    obtain ⟨set, hset, rfl⟩ := Option.map_eq_some_iff.mp hfold
    exact hc.declared p hp d hd set hset
  have hperm : p.mandatorySets.Perm (c.parameterSets.map Text.fold) := by
    refine (hnodup.subperm hsubset).perm_of_length_le ?_
    rw [List.length_map]
    exact Nat.le_trans (Nat.le_max_left _ _) hcount
  -- the set without a name is there only where nothing can be named
  have hsets : c.parameterSets ≠ [] := by
    intro hnil
    have hone : 1 ≤ p.mandatorySets.length := Nat.le_trans (Nat.le_max_right _ _) hcount
    rw [hperm.length_eq, hnil] at hone
    exact absurd hone (by decide)
  intro set hset
  rw [sets, if_neg hsets] at hset
  obtain ⟨s, hs, rfl⟩ := List.mem_map.mp hset
  obtain ⟨d, hd, hmandatory, hname⟩ :=
    ParameterEntry.mem_mandatorySets.mp (hperm.mem_iff.mpr (List.mem_map_of_mem hs))
  exact ⟨d, hd, hmandatory, .inr hname⟩

theorem mem_names_command {name : String} : name ∈ (MandatorySet.ofCommand c.command).names ↔
    ∃ p ∈ c.parameters,
      c.setCount ≤ (p.declarations.map (·.mandatory)).count true ∧ p.name = name := by
  rw [MandatorySet.mem_names_ofCommand]
  constructor
  · rintro ⟨q, ⟨hq, hcount⟩, rfl⟩
    obtain ⟨p, hp, rfl⟩ := List.mem_map.mp hq
    exact ⟨p, hp, hcount, rfl⟩
  · rintro ⟨p, hp, hcount, rfl⟩
    exact ⟨_, ⟨List.mem_map_of_mem hp, hcount⟩, rfl⟩

end CommandEntry

/-- A command of a catalog counts as mandatory only what is mandatory in each of its parameter sets,
unless two mandatory declarations of the parameter are for one set. -/
theorem mandatory_in_every_set {d : Document} {catalog : Catalog}
    (h : Catalog.ofDocument d = .ok catalog) {c : CommandEntry} (hc : c ∈ d.commands)
    {p : ParameterEntry} (hp : p ∈ c.parameters)
    (hname : p.name ∈ (MandatorySet.ofCommand c.command).names) (honce : p.CountsOnce) :
    ∀ set ∈ c.sets, p.MandatoryIn set := by
  have hwell := Catalog.wellFormed_of_ofDocument h c hc
  obtain ⟨q, hq, hcount, hsame⟩ := CommandEntry.mem_names_command.mp hname
  obtain rfl : q = p := by
    exact List.inj_on_of_nodup_map hwell.distinct hq hp (congrArg Text.fold hsame)
  exact hwell.mandatoryIn hq hcount honce

/-- A name that is mandatory in both sets of its command, once without regard to case. -/
theorem mandatory_in_every_set_newName :
    let rename : CommandEntry := {
      name := "Rename-Item", kind := .cmdlet, parameterSets := ["ByPath", "ByLiteralPath"]
      parameters := [
        { name := "Path", declarations := [{ set := some "ByPath", mandatory := true }] },
        { name := "NewName", declarations := [
          { set := some "bypath", mandatory := true, position := some 1 },
          { set := some "ByLiteralPath", mandatory := true }] }] }
    let newName : ParameterEntry := { name := "NewName", declarations := [
      { set := some "bypath", mandatory := true, position := some 1 },
      { set := some "ByLiteralPath", mandatory := true }] }
    newName ∈ rename.parameters ∧ newName.name ∈ (MandatorySet.ofCommand rename.command).names ∧
      ∀ set ∈ rename.sets, newName.MandatoryIn set := by
  intro rename newName
  have hname : newName.name ∈ (MandatorySet.ofCommand rename.command).names := by decide +kernel
  have hload : (Catalog.ofDocument { version := "1.0.0", commands := [rename] }).isOk = true := by
    decide +kernel
  cases hcatalog : Catalog.ofDocument { version := "1.0.0", commands := [rename] } with
  | error e => rw [hcatalog] at hload; cases hload
  | ok catalog =>
      have hmem : newName ∈ rename.parameters := by decide +kernel
      exact ⟨hmem, hname, mandatory_in_every_set hcatalog List.mem_cons_self hmem hname
        (.inr (by decide +kernel))⟩

/-- Two mandatory declarations for one of the two sets count for both; the other set stays without. -/
theorem counted_twice_in_one_set :
    let item : ParameterEntry := { name := "Item", declarations := [
      { set := some "A", mandatory := true }, { set := some "A", mandatory := true }] }
    let get : CommandEntry :=
      { name := "Get-Foo", kind := .cmdlet, parameterSets := ["A", "B"], parameters := [item] }
    (Catalog.ofDocument { version := "1.0.0", commands := [get] }).isOk = true ∧
      item.name ∈ (MandatorySet.ofCommand get.command).names ∧
        some "B" ∈ get.sets ∧ ¬ item.MandatoryIn (some "B") := by
  refine ⟨by decide +kernel, by decide +kernel, by decide +kernel, ?_⟩
  rintro ⟨d, hd, -, happlies⟩
  obtain rfl : d = { set := some "A", mandatory := true } := by simpa using hd
  rcases happlies with hnone | hsame
  · cases hnone
  · exact absurd hsame (by decide +kernel)

end ScriptLint
