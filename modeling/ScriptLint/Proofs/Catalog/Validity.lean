import Mathlib.Data.List.Nodup
import Mathlib.Data.List.TakeWhile
import Mathlib.Tactic.SplitIfs
import ScriptLint.Catalog.Index

/-!
Which documents become catalogs, and what the others are refused for. What is wrong with a document is
listed in the order in which it is met: its version, then each command by its name, its parameters and
the commands before it, then the aliases. A document is valid if nothing is on the list, and the first
entry is what it is refused for.
-/

namespace ScriptLint

/-- What a catalog asks of a command: the declarations name sets that it has, and no two of its
parameters share a name. -/
structure CommandEntry.WellFormed (c : CommandEntry) : Prop where
  declared : ∀ p ∈ c.parameters, ∀ d ∈ p.declarations, ∀ set, d.set = some set →
    Text.fold set ∈ c.parameterSets.map Text.fold
  distinct : (c.parameters.map fun p => Text.fold p.name).Nodup

/-- What a catalog asks of a command besides: neither it nor a parameter of it goes without a name. -/
structure CommandEntry.Valid (c : CommandEntry) : Prop extends c.WellFormed where
  named : Text.allBlank c.name = false
  parametersNamed : ∀ p ∈ c.parameters, Text.allBlank p.name = false

structure Document.Valid (d : Document) : Prop where
  version : Catalog.major d.version = ['1']
  commands : ∀ c ∈ d.commands, c.Valid
  commandsDistinct : (d.commands.map fun c => Text.fold c.name).Nodup
  aliasesNamed : ∀ a ∈ d.aliases.entries, Text.allBlank a.1 = false ∧ Text.allBlank a.2 = false
  aliasesDistinct : (d.aliases.entries.map fun a => Text.fold a.1).Nodup

namespace Catalog

/-- The error, if there is reason for it. -/
def errorIf (p : Prop) [Decidable p] (e : CatalogError) : List CatalogError :=
  if p then [e] else []

def versionErrors (version : String) : List CatalogError :=
  errorIf (Text.allBlank version) .emptyVersion ++
    errorIf (major version ≠ ['1']) (.incompatibleVersion version)

/-- A declaration for a parameter set that the command does not have. -/
def setErrors (c : CommandEntry) (p : ParameterEntry) (d : Declaration) : List CatalogError :=
  match d.set with
  | none => []
  | some set =>
    errorIf (Text.fold set ∉ c.parameterSets.map Text.fold) (.unknownParameterSet c.name p.name set)

/-- What is wrong with the `j`th parameter of the `i`th command. -/
def parameterErrors (i : Nat) (c : CommandEntry) (p : ParameterEntry) (j : Nat) : List CatalogError :=
  errorIf (Text.allBlank p.name) (.emptyParameterName i j) ++
    errorIf (Text.fold p.name ∈ (c.parameters.take j).map fun q => Text.fold q.name)
      (.duplicateParameter i j c.name p.name) ++
    p.declarations.flatMap (setErrors c p)

/-- What is wrong with the `i`th command. -/
def commandErrors (d : Document) (c : CommandEntry) (i : Nat) : List CatalogError :=
  errorIf (Text.allBlank c.name) (.emptyCommandName i) ++
    c.parameters.zipIdx.flatMap (fun q => parameterErrors i c q.1 q.2) ++
    errorIf (Text.fold c.name ∈ (d.commands.take i).map fun b => Text.fold b.name)
      (.duplicateCommand c.name)

/-- What is wrong with the `k`th alias. -/
def aliasErrors (d : Document) (a : String × String) (k : Nat) : List CatalogError :=
  errorIf (Text.allBlank a.1) .emptyAlias ++ errorIf (Text.allBlank a.2) (.emptyTarget a.1) ++
    errorIf (Text.fold a.1 ∈ (d.aliases.entries.take k).map fun b => Text.fold b.1)
      (.duplicateAlias a.1)

/-- All that is wrong with a document, in the order in which it is met. -/
def errors (d : Document) : List CatalogError :=
  versionErrors d.version ++ d.commands.zipIdx.flatMap (fun c => commandErrors d c.1 c.2) ++
    d.aliases.entries.zipIdx.flatMap fun a => aliasErrors d a.1 a.2

/-- Refuses for the first of the errors. -/
def refuse : List CatalogError → Except CatalogError Unit
  | [] => .ok ()
  | e :: _ => .error e

theorem refuse_append (es fs : List CatalogError) :
    refuse (es ++ fs) = refuse es >>= fun _ => refuse fs := by
  cases es <;> rfl

theorem refuse_errorIf (p : Prop) [Decidable p] (e : CatalogError) :
    refuse (errorIf p e) = if p then throw e else pure () := by
  unfold errorIf
  split_ifs <;> rfl

theorem errorIf_eq_nil {p : Prop} [Decidable p] {e : CatalogError} : errorIf p e = [] ↔ ¬ p := by
  unfold errorIf
  split_ifs with h <;> simp [h]

section Checks

variable (i : Nat) (c : CommandEntry)

theorem major_eq_nil_of_allBlank {version : String} (h : Text.allBlank version = true) :
    major version = [] := by
  have hall : version.toList.dropWhile Text.isBlank = [] :=
    List.dropWhile_eq_nil_iff.mpr (List.all_eq_true.mp h)
  rw [major, Text.trim, hall]
  rfl

theorem checkVersion_eq (version : String) :
    checkVersion version = refuse (versionErrors version) := by
  have hformat : major formatVersion = ['1'] := by decide
  rw [versionErrors, refuse_append, refuse_errorIf, refuse_errorIf, checkVersion, hformat]
  by_cases hblank : Text.allBlank version = true
  · rw [if_pos hblank, if_pos hblank]
    rfl
  rw [if_neg hblank, if_neg hblank]
  by_cases hmajor : major version = ['1']
  · rw [if_pos hmajor, if_neg (not_not.mpr hmajor)]
    rfl
  · rw [if_neg hmajor, if_pos hmajor]
    rfl

theorem any_sameName_iff {set : String} {sets : List String} :
    sets.any (Text.sameName · set) = true ↔ Text.fold set ∈ sets.map Text.fold := by
  rw [List.any_eq_true, List.mem_map]
  exact exists_congr fun s => and_congr_right fun _ => Text.sameName_iff

theorem checkSets_eq (p : ParameterEntry) (ds : List Declaration) :
    checkSets c p ds = refuse (ds.flatMap (setErrors c p)) := by
  induction ds with
  | nil => rfl
  | cons d ds ih =>
      rw [checkSets, List.flatMap_cons, refuse_append, ih, setErrors]
      cases d.set with
      | none => rfl
      | some set =>
          dsimp only
          rw [refuse_errorIf]
          by_cases h : Text.fold set ∈ c.parameterSets.map Text.fold
          · rw [if_pos (any_sameName_iff.mpr h), if_neg (not_not.mpr h)]
            rfl
          · rw [if_neg (mt any_sameName_iff.mp h), if_pos h]
            rfl

/-- A check that goes along a list, with the names of what it has passed, is told by what is wrong at
each place. -/
theorem along_eq {α : Type} (name : α → String) {all : List α}
    (check : Nat → List String → List α → Except CatalogError Unit)
    {wrong : α → Nat → List CatalogError}
    (hnil : ∀ j seen, check j seen [] = .ok ())
    (hcons : ∀ j seen a rest, (∀ n, n ∈ seen ↔ n ∈ (all.take j).map fun b => Text.fold (name b)) →
      check j seen (a :: rest) =
        refuse (wrong a j) >>= fun _ => check (j + 1) (Text.fold (name a) :: seen) rest) :
    check 0 [] all = refuse (all.zipIdx.flatMap fun q => wrong q.1 q.2) := by
  suffices h : ∀ rest before, before ++ rest = all → ∀ seen,
      (∀ n, n ∈ seen ↔ n ∈ before.map fun b => Text.fold (name b)) →
        check before.length seen rest =
          refuse ((rest.zipIdx before.length).flatMap fun q => wrong q.1 q.2) from
    h all [] rfl [] fun _ => .rfl
  intro rest
  induction rest with
  | nil => exact fun before _ seen _ => hnil before.length seen
  | cons a rest ih =>
      intro before hall seen hseen
      have hbefore : all.take before.length = before := by rw [← hall, List.take_left]
      have hnext : ∀ n, n ∈ Text.fold (name a) :: seen ↔
          n ∈ (before ++ [a]).map fun b => Text.fold (name b) := by
        intro n
        rw [List.map_append, List.mem_append, List.mem_cons, hseen, List.map_singleton,
          List.mem_singleton, or_comm]
      have hrest := ih (before ++ [a]) (by rw [List.append_assoc, List.singleton_append, hall]) _ hnext
      rw [List.length_append, List.length_singleton] at hrest
      rw [hcons _ _ _ _ (by rwa [hbefore]), hrest, List.zipIdx_cons, List.flatMap_cons, refuse_append]

theorem checkParameters_eq :
    checkParameters i c 0 [] c.parameters =
      refuse (c.parameters.zipIdx.flatMap fun q => parameterErrors i c q.1 q.2) := by
  refine along_eq (·.name) (checkParameters i c) (fun _ _ => rfl) fun j seen p rest hseen => ?_
  rw [checkParameters, parameterErrors, refuse_append, refuse_append, refuse_errorIf, refuse_errorIf,
    checkSets_eq]
  simp only [hseen, bind_assoc]
  split_ifs <;> rfl

theorem checkCommands_eq (d : Document) :
    checkCommands 0 [] d.commands =
      refuse (d.commands.zipIdx.flatMap fun q => commandErrors d q.1 q.2) := by
  refine along_eq (·.name) checkCommands (fun _ _ => rfl) fun i seen c rest hseen => ?_
  rw [checkCommands, commandErrors, refuse_append, refuse_append, refuse_errorIf, refuse_errorIf,
    checkParameters_eq]
  simp only [hseen, bind_assoc]
  split_ifs <;> rfl

theorem checkAliases_eq (d : Document) :
    checkAliases [] d.aliases.entries =
      refuse (d.aliases.entries.zipIdx.flatMap fun q => aliasErrors d q.1 q.2) := by
  refine along_eq (·.1) (fun _ => checkAliases) (fun _ _ => rfl) fun k seen a rest hseen => ?_
  rw [checkAliases, aliasErrors, refuse_append, refuse_append, refuse_errorIf, refuse_errorIf,
    refuse_errorIf]
  simp only [hseen, bind_assoc]
  split_ifs <;> rfl

end Checks

/-- The catalog that a document describes. -/
def described (d : Document) : Catalog where
  version := d.version
  commands := d.commands.map fun c => (Text.fold c.name, c.command)
  aliases := d.aliases.entries.map fun (name, target) => (Text.fold name, target)

theorem ofDocument_eq (d : Document) : ofDocument d = (refuse (errors d)).map fun _ => described d := by
  rw [ofDocument, checkVersion_eq, checkCommands_eq, checkAliases_eq, errors, refuse_append,
    refuse_append]
  cases refuse (versionErrors d.version) with
  | error e => rfl
  | ok u =>
      cases refuse (d.commands.zipIdx.flatMap fun c => commandErrors d c.1 c.2) with
      | error e => rfl
      | ok u => cases refuse (d.aliases.entries.zipIdx.flatMap fun a => aliasErrors d a.1 a.2) <;> rfl

theorem ofDocument_eq_ok_iff {d : Document} {catalog : Catalog} :
    ofDocument d = .ok catalog ↔ errors d = [] ∧ catalog = described d := by
  rw [ofDocument_eq]
  cases errors d <;> simp [refuse, Except.map, eq_comm]

theorem ofDocument_eq_error_iff {d : Document} {e : CatalogError} :
    ofDocument d = .error e ↔ (errors d).head? = some e := by
  rw [ofDocument_eq]
  cases errors d <;> simp [refuse, Except.map]

section Empty

/-- At each place of the list something holds of what stands there, and it has no name from in front of
it: it holds of all the list, and no name comes twice. -/
theorem forall_zipIdx_iff {α β : Type} {P : α → Prop} {name : α → β} {l : List α} :
    (∀ q ∈ l.zipIdx, P q.1 ∧ name q.1 ∉ (l.take q.2).map name) ↔
      (∀ a ∈ l, P a) ∧ (l.map name).Nodup := by
  rw [List.nodup_iff_pairwise_ne, List.pairwise_map, List.pairwise_iff_getElem]
  constructor
  · intro h
    have hplace : ∀ j (hj : j < l.length), P l[j] ∧ name l[j] ∉ (l.take j).map name := fun j hj =>
      h (l[j], j) (List.mem_zipIdx_iff_getElem?.mpr (List.getElem?_eq_getElem hj))
    refine ⟨fun a ha => ?_, fun i j hi hj hij heq => (hplace j hj).2 ?_⟩
    · obtain ⟨j, hj, rfl⟩ := List.getElem_of_mem ha
      exact (hplace j hj).1
    · rw [← heq]
      exact List.mem_map_of_mem (List.mem_take_iff_getElem.mpr ⟨i, by omega, rfl⟩)
  · rintro ⟨hall, hdistinct⟩ q hq
    obtain ⟨hj, hlast⟩ := List.mem_zipIdx' hq
    refine ⟨hall _ (hlast ▸ List.getElem_mem hj), fun hmem => ?_⟩
    obtain ⟨b, hb, heq⟩ := List.mem_map.mp hmem
    obtain ⟨i, hi, rfl⟩ := List.mem_take_iff_getElem.mp hb
    exact hdistinct i q.2 (by omega) hj (by omega) (heq.trans (congrArg name hlast))

theorem versionErrors_eq_nil_iff {version : String} :
    versionErrors version = [] ↔ major version = ['1'] := by
  rw [versionErrors, List.append_eq_nil_iff, errorIf_eq_nil, errorIf_eq_nil, not_not]
  refine and_iff_right_of_imp fun h hblank => ?_
  rw [major_eq_nil_of_allBlank hblank] at h
  cases h

theorem setErrors_eq_nil_iff {c : CommandEntry} {p : ParameterEntry} {d : Declaration} :
    setErrors c p d = [] ↔
      ∀ set, d.set = some set → Text.fold set ∈ c.parameterSets.map Text.fold := by
  rw [setErrors]
  cases d.set with
  | none => exact iff_of_true rfl nofun
  | some set =>
      rw [errorIf_eq_nil, not_not]
      exact ⟨fun h _ heq => Option.some.inj heq ▸ h, fun h => h set rfl⟩

theorem parameterErrors_eq_nil_iff {i j : Nat} {c : CommandEntry} {p : ParameterEntry} :
    parameterErrors i c p j = [] ↔
      (Text.allBlank p.name = false ∧ ∀ d ∈ p.declarations, ∀ set, d.set = some set →
        Text.fold set ∈ c.parameterSets.map Text.fold) ∧
      Text.fold p.name ∉ (c.parameters.take j).map fun q => Text.fold q.name := by
  simp only [parameterErrors, List.append_eq_nil_iff, errorIf_eq_nil, List.flatMap_eq_nil_iff,
    setErrors_eq_nil_iff, Bool.not_eq_true]
  exact and_right_comm

theorem forall_parameterErrors_iff {i : Nat} {c : CommandEntry} :
    (∀ q ∈ c.parameters.zipIdx, parameterErrors i c q.1 q.2 = []) ↔
      (∀ p ∈ c.parameters, Text.allBlank p.name = false) ∧ c.WellFormed := by
  rw [forall₂_congr fun q _ => parameterErrors_eq_nil_iff, forall_zipIdx_iff
    (P := fun p : ParameterEntry => Text.allBlank p.name = false ∧ ∀ d ∈ p.declarations, ∀ set,
      d.set = some set → Text.fold set ∈ c.parameterSets.map Text.fold)]
  exact ⟨fun h => ⟨fun p hp => (h.1 p hp).1, fun p hp => (h.1 p hp).2, h.2⟩,
    fun h => ⟨fun p hp => ⟨h.1 p hp, h.2.declared p hp⟩, h.2.distinct⟩⟩

theorem commandErrors_eq_nil_iff {d : Document} {c : CommandEntry} {i : Nat} :
    commandErrors d c i = [] ↔
      c.Valid ∧ Text.fold c.name ∉ (d.commands.take i).map fun b => Text.fold b.name := by
  simp only [commandErrors, List.append_eq_nil_iff, errorIf_eq_nil, List.flatMap_eq_nil_iff,
    forall_parameterErrors_iff, Bool.not_eq_true]
  exact and_congr_left' ⟨fun h => ⟨h.2.2, h.1, h.2.1⟩, fun h => ⟨h.named, h.parametersNamed, h.1⟩⟩

theorem aliasErrors_eq_nil_iff {d : Document} {a : String × String} {k : Nat} :
    aliasErrors d a k = [] ↔ (Text.allBlank a.1 = false ∧ Text.allBlank a.2 = false) ∧
      Text.fold a.1 ∉ (d.aliases.entries.take k).map fun b => Text.fold b.1 := by
  simp only [aliasErrors, List.append_eq_nil_iff, errorIf_eq_nil, Bool.not_eq_true]

theorem errors_eq_nil_iff {d : Document} : errors d = [] ↔ d.Valid := by
  rw [errors, List.append_eq_nil_iff, List.append_eq_nil_iff, versionErrors_eq_nil_iff,
    List.flatMap_eq_nil_iff, List.flatMap_eq_nil_iff,
    forall₂_congr fun q _ => commandErrors_eq_nil_iff, forall₂_congr fun q _ => aliasErrors_eq_nil_iff,
    forall_zipIdx_iff (P := CommandEntry.Valid), forall_zipIdx_iff
      (P := fun a : String × String => Text.allBlank a.1 = false ∧ Text.allBlank a.2 = false)]
  exact ⟨fun ⟨⟨hversion, hcommands, hdistinct⟩, hnamed, haliases⟩ =>
      ⟨hversion, hcommands, hdistinct, hnamed, haliases⟩,
    fun h => ⟨⟨h.version, h.commands, h.commandsDistinct⟩, h.aliasesNamed, h.aliasesDistinct⟩⟩

end Empty

/-- A document has to be in order to become a catalog. -/
theorem wellFormed_of_ofDocument {d : Document} {catalog : Catalog}
    (h : ofDocument d = .ok catalog) : ∀ c ∈ d.commands, c.WellFormed :=
  fun c hc => ((errors_eq_nil_iff.mp (ofDocument_eq_ok_iff.mp h).1).commands c hc).toWellFormed

end Catalog

/-- The valid documents become catalogs, and every other one is refused for the first thing that is
wrong with it. -/
theorem accepts_exactly_valid (d : Document) :
    ((∃ catalog, Catalog.ofDocument d = .ok catalog) ↔ d.Valid) ∧
      ∀ e, Catalog.ofDocument d = .error e ↔ (Catalog.errors d).head? = some e := by
  refine ⟨?_, fun e => Catalog.ofDocument_eq_error_iff⟩
  simp only [Catalog.ofDocument_eq_ok_iff, exists_and_left, exists_eq, and_true]
  exact Catalog.errors_eq_nil_iff

end ScriptLint
