import Mathlib.Data.Finset.Basic
import Mathlib.Data.Finset.Dedup
import ScriptLint.Lint

/-!
The rules that a selection picks from a registry. A name that no rule has is an error, found before any rule
runs. Otherwise the selection keeps rules by name, without regard to case and to how often a name is listed,
and leaves them in their order. To include some names and to exclude them splits a registry in two.
-/

namespace ScriptLint

/-- The third list merges the first two, each of which keeps its order. -/
inductive Merges {α : Type*} : List α → List α → List α → Prop
  | nil : Merges [] [] []
  | left {a : α} {as bs cs : List α} : Merges as bs cs → Merges (a :: as) bs (a :: cs)
  | right {b : α} {as bs cs : List α} : Merges as bs cs → Merges as (b :: bs) (b :: cs)

theorem merges_filter {α : Type*} (p : α → Prop) [DecidablePred p] (as : List α) :
    Merges (as.filter p) (as.filter (¬ p ·)) as := by
  induction as with
  | nil => exact .nil
  | cons a as ih =>
      by_cases ha : p a
      · rw [List.filter_cons_of_pos (by simpa using ha), List.filter_cons_of_neg (by simpa using ha)]
        exact ih.left
      · rw [List.filter_cons_of_neg (by simpa using ha), List.filter_cons_of_pos (by simpa using ha)]
        exact ih.right

namespace Merges

variable {α β : Type*} {as bs cs : List α}

theorem append_left (h : Merges as bs cs) (ds : List α) : Merges (ds ++ as) bs (ds ++ cs) := by
  induction ds with
  | nil => exact h
  | cons d ds ih => exact ih.left

theorem append_right (h : Merges as bs cs) (ds : List α) : Merges as (ds ++ bs) (ds ++ cs) := by
  induction ds with
  | nil => exact h
  | cons d ds ih => exact ih.right

theorem flatMap (h : Merges as bs cs) (f : α → List β) : Merges (as.flatMap f) (bs.flatMap f) (cs.flatMap f) := by
  induction h with
  | nil => exact .nil
  | left _ ih => exact ih.append_left _
  | right _ ih => exact ih.append_right _

end Merges

/-- One of the names is that of the rule, whatever the case of its letters. -/
def Rule.IsListed (r : Rule) (names : List String) : Prop :=
  ∃ name ∈ names, Text.fold name = Text.fold r.name

namespace Selection

/-- The rule is included and not excluded; to include nothing is to include everything. -/
def Wants (s : Selection) (r : Rule) : Prop :=
  (s.included = [] ∨ r.IsListed s.included) ∧ ¬ r.IsListed s.excluded

theorem lists_iff {names : List String} {r : Rule} : lists names r = true ↔ r.IsListed names := by
  simp only [lists, List.any_eq_true, Text.sameName_iff, Rule.IsListed]

instance (r : Rule) (names : List String) : Decidable (r.IsListed names) :=
  decidable_of_iff _ lists_iff

theorem admits_iff {s : Selection} {r : Rule} : s.admits r = true ↔ s.Wants r := by
  simp only [admits, Wants, ← lists_iff, Bool.and_eq_true, Bool.or_eq_true, List.isEmpty_iff,
    Bool.not_eq_true', Bool.not_eq_true]

instance (s : Selection) (r : Rule) : Decidable (s.Wants r) :=
  decidable_of_iff _ admits_iff

/-- Both selections list the same names, whatever the case of their letters. -/
structure SameNames (s s' : Selection) : Prop where
  included : (s.included.map Text.fold).toFinset = (s'.included.map Text.fold).toFinset
  excluded : (s.excluded.map Text.fold).toFinset = (s'.excluded.map Text.fold).toFinset

theorem SameNames.symm {s s' : Selection} (h : s.SameNames s') : s'.SameNames s :=
  ⟨h.included.symm, h.excluded.symm⟩

end Selection

theorem Rule.isListed_iff (r : Rule) {names : List String} :
    r.IsListed names ↔ Text.fold r.name ∈ (names.map Text.fold).toFinset := by
  simp only [IsListed, List.mem_toFinset, List.mem_map]

theorem Selection.SameNames.wants_iff {s s' : Selection} (h : s.SameNames s') (r : Rule) :
    s.Wants r ↔ s'.Wants r := by
  have hempty (names : List String) : names = [] ↔ (names.map Text.fold).toFinset = ∅ := by
    rw [List.toFinset_eq_empty_iff, List.map_eq_nil_iff]
  rw [Wants, Wants, hempty, hempty s'.included, r.isListed_iff, r.isListed_iff, r.isListed_iff,
    r.isListed_iff, h.included, h.excluded]

theorem lintWith_of_run {g : Registry} {s : Selection} {source file : String} {found : List Diagnostic}
    (h : g.run (parse source).tree file s = .ok found) :
    lintWith source g s file = .ok (.ofParsed (parse source) file found) := by
  rw [lintWith, h]
  rfl

theorem lintWith_of_run_error {g : Registry} {s : Selection} {source file : String} {e : UnknownRule}
    (h : g.run (parse source).tree file s = .error e) : lintWith source g s file = .error e := by
  rw [lintWith, h]
  rfl

namespace Registry

variable {rules : List Rule}

/-- What registering the rules one by one leads to. -/
def ofRules (rules : List Rule) : Registry := rules.foldl register empty

theorem foldl_register (g : Registry) (rules : List Rule) : (rules.foldl register g).rules = g.rules ++ rules := by
  induction rules generalizing g with
  | nil => exact (List.append_nil _).symm
  | cons r rules ih =>
      rw [List.foldl_cons, ih, register, List.append_assoc]
      rfl

@[simp] theorem rules_ofRules (rules : List Rule) : (ofRules rules).rules = rules :=
  foldl_register empty rules

/-- Some rule has the name, whatever the case of its letters. -/
def Known (rules : List Rule) (name : String) : Prop :=
  ∃ r ∈ rules, Text.fold r.name = Text.fold name

theorem isNone_get?_iff {g : Registry} {name : String} : (g.get? name).isNone = true ↔ ¬ Known g.rules name := by
  rw [Option.isNone_iff_eq_none, get?, List.find?_eq_none, Known]
  simp only [Text.sameName_iff]
  push Not
  rfl

/-- The first of the names that no rule has. -/
def FirstUnknown (rules : List Rule) (names : List String) (name : String) : Prop :=
  ∃ before after, names = before ++ name :: after ∧ (∀ n ∈ before, Known rules n) ∧ ¬ Known rules name

theorem find?_unknown_iff {g : Registry} {names : List String} {name : String} :
    names.find? (fun n => (g.get? n).isNone) = some name ↔ FirstUnknown g.rules names name := by
  have hknown (n : String) : (!(g.get? n).isNone) = true ↔ Known g.rules n := by
    rw [Bool.not_eq_true', ← Bool.not_eq_true, isNone_get?_iff, Classical.not_not]
  rw [List.find?_eq_some_iff_append, FirstUnknown, isNone_get?_iff, and_comm]
  simp only [hknown, exists_and_right, ← and_assoc]

theorem select_error_iff {g : Registry} {s : Selection} {e : UnknownRule} :
    g.select s = .error e ↔ FirstUnknown g.rules (s.included ++ s.excluded) e.name := by
  rw [← find?_unknown_iff, select]
  cases (s.included ++ s.excluded).find? fun n => (g.get? n).isNone with
  | none => simp
  | some name =>
      obtain ⟨name'⟩ := e
      simp

theorem select_ok_iff {g : Registry} {s : Selection} {picked : List Rule} :
    g.select s = .ok picked ↔
      (∀ name ∈ s.included ++ s.excluded, Known g.rules name) ∧ picked = g.rules.filter (s.Wants ·) := by
  have hadmits : g.rules.filter s.admits = g.rules.filter (s.Wants ·) :=
    List.filter_congr fun r _ => by rw [Bool.eq_iff_iff, Selection.admits_iff, decide_eq_true_iff]
  have hnone : (s.included ++ s.excluded).find? (fun n => (g.get? n).isNone) = none ↔
      ∀ name ∈ s.included ++ s.excluded, Known g.rules name := by
    simp only [List.find?_eq_none, isNone_get?_iff, Classical.not_not]
  rw [← hnone, ← hadmits, select]
  cases (s.included ++ s.excluded).find? fun n => (g.get? n).isNone with
  | none => simp [eq_comm]
  | some name => simp

theorem all_known_iff {s : Selection} :
    (∀ name ∈ s.included ++ s.excluded, Known rules name) ↔
      ∀ name ∈ (s.included.map Text.fold).toFinset ∪ (s.excluded.map Text.fold).toFinset,
        ∃ r ∈ rules, Text.fold r.name = name := by
  simp only [List.mem_append, Finset.mem_union, List.mem_toFinset, List.mem_map, Known]
  constructor
  · rintro h _ (⟨name, hname, rfl⟩ | ⟨name, hname, rfl⟩)
    · exact h name (.inl hname)
    · exact h name (.inr hname)
  · rintro h name (hname | hname)
    · exact h _ (.inl ⟨name, hname, rfl⟩)
    · exact h _ (.inr ⟨name, hname, rfl⟩)

/-- How often a name is listed, in which place and in which case does not matter. -/
theorem select_ok_of_sameNames {g : Registry} {s s' : Selection} {picked : List Rule} (h : s.SameNames s')
    (hs : g.select s = .ok picked) : g.select s' = .ok picked := by
  rw [select_ok_iff] at hs ⊢
  obtain ⟨hknown, rfl⟩ := hs
  refine ⟨?_, List.filter_congr fun r _ => by rw [decide_eq_decide, h.wants_iff]⟩
  rw [all_known_iff] at hknown ⊢
  rwa [← h.included, ← h.excluded]

theorem run_of_select {g : Registry} {s : Selection} {picked : List Rule} (h : g.select s = .ok picked)
    (t : Tree) (file : String) : g.run t file s = .ok (picked.flatMap (·.analyze t file)) := by
  rw [run, h]
  rfl

theorem run_of_select_error {g : Registry} {s : Selection} {e : UnknownRule} (h : g.select s = .error e)
    (t : Tree) (file : String) : g.run t file s = .error e := by
  rw [run, h]
  rfl

/-- To name nothing picks every rule. -/
theorem select_empty (g : Registry) : g.select {} = .ok g.rules := by
  have hlisted (r : Rule) : ¬ r.IsListed [] := fun ⟨_, h, _⟩ => List.not_mem_nil h
  rw [select_ok_iff]
  refine ⟨fun _ h => absurd h List.not_mem_nil, (List.filter_eq_self.mpr fun r _ => ?_).symm⟩
  exact decide_eq_true ⟨.inl rfl, hlisted r⟩

theorem run_empty {g : Registry} (t : Tree) (file : String) : g.run t file {} = .ok (g.runAll t file) :=
  run_of_select (select_empty g) t file

theorem select_included {g : Registry} {names : List String} (hne : names ≠ [])
    (h : ∀ name ∈ names, Known g.rules name) :
    g.select { included := names } = .ok (g.rules.filter (·.IsListed names)) := by
  rw [select_ok_iff, List.append_nil]
  refine ⟨h, List.filter_congr fun r _ => ?_⟩
  rw [decide_eq_decide]
  exact ⟨fun hr => ⟨.inr hr, fun ⟨_, h, _⟩ => List.not_mem_nil h⟩, fun hr => hr.1.resolve_left hne⟩

theorem select_excluded {g : Registry} {names : List String} (h : ∀ name ∈ names, Known g.rules name) :
    g.select { excluded := names } = .ok (g.rules.filter (¬ ·.IsListed names)) := by
  rw [select_ok_iff, List.nil_append]
  refine ⟨h, List.filter_congr fun r _ => ?_⟩
  rw [decide_eq_decide]
  exact ⟨fun hr => ⟨.inl rfl, hr⟩, And.right⟩

/-- What a selection leads to, for any rules registered one after the other: the first name that no rule has
is an error, and no rule runs; otherwise the rules wanted run in their order. The same names, in whatever case
and however often, pick the same rules. To include some names and to exclude them splits the rules and what
they find in two, and to name none is to run everything, as linting does with the rules of the library. -/
theorem selection_picks_by_name (rules : List Rule) :
    (∀ s name, (ofRules rules).select s = .error ⟨name⟩ ↔
      FirstUnknown rules (s.included ++ s.excluded) name) ∧
    (∀ s e, (ofRules rules).select s = .error e →
      (∀ t file, (ofRules rules).run t file s = .error e) ∧
        ∀ source file, lintWith source (ofRules rules) s file = .error e) ∧
    (∀ s picked, (ofRules rules).select s = .ok picked ↔
      (∀ name ∈ s.included ++ s.excluded, Known rules name) ∧ picked = rules.filter (s.Wants ·)) ∧
    (∀ s picked, (ofRules rules).select s = .ok picked →
      (∀ t file, (ofRules rules).run t file s = .ok (picked.flatMap (·.analyze t file))) ∧
        ∀ source file, lintWith source (ofRules rules) s file =
          .ok (.ofParsed (parse source) file (picked.flatMap (·.analyze (parse source).tree file)))) ∧
    (∀ s s' : Selection, s.SameNames s' → ∀ picked,
      (ofRules rules).select s = .ok picked ↔ (ofRules rules).select s' = .ok picked) ∧
    (∀ names, names ≠ [] → (∀ name ∈ names, Known rules name) → ∃ listed others,
      Merges listed others rules ∧ (∀ r ∈ listed, r.IsListed names) ∧ (∀ r ∈ others, ¬ r.IsListed names) ∧
      (∀ t file, (ofRules rules).run t file { included := names } = .ok (listed.flatMap (·.analyze t file))) ∧
      (∀ t file, (ofRules rules).run t file { excluded := names } = .ok (others.flatMap (·.analyze t file))) ∧
      ∀ t file, (ofRules rules).runAll t file = rules.flatMap (·.analyze t file) ∧
        Merges (listed.flatMap (·.analyze t file)) (others.flatMap (·.analyze t file))
          ((ofRules rules).runAll t file)) ∧
    (∀ t file, (ofRules rules).run t file {} = .ok ((ofRules rules).runAll t file)) ∧
    ∀ source p file, lintWith source (.builtin p) {} file = .ok (lint source p file) := by
  refine ⟨fun s name => ?_, fun s e h => ?_, fun s picked => ?_, fun s picked h => ?_,
    fun s s' h picked => ?_, fun names hne hknown => ?_, run_empty,
    fun source p file => lintWith_of_run (run_empty _ file)⟩
  · rw [select_error_iff, rules_ofRules]
  · exact ⟨run_of_select_error h, fun source file => lintWith_of_run_error (run_of_select_error h _ file)⟩
  · rw [select_ok_iff, rules_ofRules]
  · exact ⟨run_of_select h, fun source file => lintWith_of_run (run_of_select h _ file)⟩
  · exact ⟨select_ok_of_sameNames h, select_ok_of_sameNames h.symm⟩
  · have hall (t : Tree) (file : String) : (ofRules rules).runAll t file = rules.flatMap (·.analyze t file) := by
      rw [runAll, analyzeAll, rules_ofRules]
    have hmerges := merges_filter (·.IsListed names) rules
    refine ⟨rules.filter (·.IsListed names), rules.filter (¬ ·.IsListed names), hmerges, fun r hr => ?_,
      fun r hr => ?_, run_of_select ?_, run_of_select ?_, fun t file => ⟨hall t file, ?_⟩⟩
    · exact of_decide_eq_true (List.mem_filter.mp hr).2
    · exact of_decide_eq_true (List.mem_filter.mp hr).2
    · rw [select_included hne (by rwa [rules_ofRules]), rules_ofRules]
    · rw [select_excluded (by rwa [rules_ofRules]), rules_ofRules]
    · rw [hall]
      exact hmerges.flatMap _

end Registry

end ScriptLint
