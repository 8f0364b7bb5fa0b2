import ScriptLint.Proofs.Catalog.Validity

/-!
Catalogs as indexes. The names of a document are folded once, when it becomes a catalog, and a name is folded
again whenever it is looked up. What comes of it is what a search along the entries of the document finds, where
names are compared without regard to case; and since no two entries of a valid document share a name, there is
never a second entry that the search could have come to.
-/

namespace ScriptLint

/-- The first command of that name. -/
def Document.command? (d : Document) (name : String) : Option CommandEntry :=
  d.commands.find? fun c => Text.sameName c.name name

/-- What the first alias of that name stands for. -/
def Document.target? (d : Document) (name : String) : Option String :=
  (d.aliases.entries.find? fun a => Text.sameName a.1 name).map (·.2)

/-- The parameter is told as it is declared, with a flag for each of its declarations. -/
structure Parameter.Describes (q : Parameter) (p : ParameterEntry) : Prop where
  name : q.name = p.name
  isSwitch : q.isSwitch = p.isSwitch
  mandatory : q.mandatory = p.declarations.map (·.mandatory)

/-- The command is told as the entry declares it, with its parameters in the order of the entry. -/
structure Command.Describes (command : Command) (c : CommandEntry) : Prop where
  name : command.name = c.name
  kind : command.kind = c.kind
  sets : command.parameterSetCount = max 1 c.parameterSets.length
  parameters : List.Forall₂ Parameter.Describes command.parameters c.parameters

/-- What is to be said of a name by one who searches the document for it. -/
inductive Document.Answers (d : Document) (name : String) : Except MetadataFault (Option Command) → Prop
  | unresolved (h : d.command? name = none) : d.Answers name (.ok none)
  | application {c : CommandEntry} (h : d.command? name = some c) (hkind : c.kind = .application) :
    d.Answers name (.error (.notIntrospectable c.name .application))
  | resolved {c : CommandEntry} {command : Command} (h : d.command? name = some c)
    (hkind : c.kind ≠ .application) (hcommand : command.Describes c) : d.Answers name (.ok (some command))

section Named

variable {α β : Type} (key : α → String) {l : List α} {name : String}

/-- Looking up a folded name among folded names is a search that does not regard case. -/
theorem lookup_map_fold (f : α → β) :
    (l.map fun a => (Text.fold (key a), f a)).lookup (Text.fold name) =
      (l.find? fun a => Text.sameName (key a) name).map f := by
  induction l with
  | nil => rfl
  | cons a rest ih =>
      rw [List.map_cons, List.lookup_cons, List.find?_cons, ih, Text.sameName_comm, Text.sameName]
      cases Text.fold name == Text.fold (key a) <;> rfl

/-- Where no name comes twice, at most one of them is the one looked for. -/
theorem countP_sameName_le_one (h : (l.map fun a => Text.fold (key a)).Nodup) :
    l.countP (fun a => Text.sameName (key a) name) ≤ 1 := by
  have hcount := List.nodup_iff_count_le_one.mp h (Text.fold name)
  rwa [List.count, List.countP_map] at hcount

/-- Where no name comes twice, whatever has the name is what a search for it finds. -/
theorem find?_sameName_eq_some_iff (h : (l.map fun a => Text.fold (key a)).Nodup) {a : α} :
    l.find? (fun b => Text.sameName (key b) name) = some a ↔ a ∈ l ∧ Text.fold (key a) = Text.fold name := by
  constructor
  · intro hfind
    have hsame := List.find?_some hfind
    exact ⟨List.mem_of_find?_eq_some hfind, Text.sameName_iff.mp hsame⟩
  · rintro ⟨ha, hname⟩
    cases hfind : l.find? fun b => Text.sameName (key b) name with
    | none => exact absurd (Text.sameName_iff.mpr hname) (List.find?_eq_none.mp hfind a ha)
    | some b =>
        have hsame := List.find?_some hfind
        have hfold := (Text.sameName_iff.mp hsame).trans hname.symm
        rw [List.inj_on_of_nodup_map h (List.mem_of_find?_eq_some hfind) ha hfold]

end Named

/-- What a catalog says of an entry. -/
def CommandEntry.answer (c : CommandEntry) : Except MetadataFault (Option Command) :=
  if c.kind = .application then .error (.notIntrospectable c.name .application) else .ok (some c.command)

theorem CommandEntry.describes_command (c : CommandEntry) : c.command.Describes c where
  name := rfl
  kind := rfl
  sets := Nat.max_comm _ _
  parameters := List.forall₂_map_left_iff.mpr (List.forall₂_same.mpr fun _ _ => ⟨rfl, rfl, rfl⟩)

namespace Catalog

variable {d : Document} {catalog : Catalog}

theorem alias?_described (d : Document) (name : String) : (described d).alias? name = d.target? name :=
  lookup_map_fold Prod.fst Prod.snd

theorem metadata_described (d : Document) (name : String) :
    (described d).metadata name = (d.command? name).elim (.ok none) CommandEntry.answer := by
  have hlookup : (described d).commands.lookup (Text.fold name) = (d.command? name).map (·.command) :=
    lookup_map_fold CommandEntry.name CommandEntry.command
  rw [metadata, hlookup]
  cases d.command? name <;> rfl

theorem answers_described (d : Document) (name : String) : d.Answers name ((described d).metadata name) := by
  rw [metadata_described]
  cases hfound : d.command? name with
  | none => exact .unresolved hfound
  | some c =>
      rw [Option.elim_some, CommandEntry.answer]
      split_ifs with hkind
      · exact .application hfound hkind
      · exact .resolved hfound hkind c.describes_command

end Catalog

/-- A catalog answers for each name as a search of its document does, and there is no second entry of that name
which the search leaves out. -/
theorem index_agrees {d : Document} {catalog : Catalog} (h : Catalog.ofDocument d = .ok catalog)
    (name : String) :
    d.Answers name (catalog.metadata name) ∧ catalog.alias? name = d.target? name ∧
      d.commands.countP (fun c => Text.sameName c.name name) ≤ 1 ∧
      d.aliases.entries.countP (fun a => Text.sameName a.1 name) ≤ 1 ∧
      catalog.commandCount = d.commands.length ∧ catalog.aliasCount = d.aliases.entries.length := by
  obtain ⟨hnone, rfl⟩ := Catalog.ofDocument_eq_ok_iff.mp h
  have hvalid := Catalog.errors_eq_nil_iff.mp hnone
  exact ⟨Catalog.answers_described d name, Catalog.alias?_described d name,
    countP_sameName_le_one _ hvalid.commandsDistinct, countP_sameName_le_one _ hvalid.aliasesDistinct,
    List.length_map _, List.length_map _⟩

/-- A look-up of an application and one of an alias, both in capital letters. -/
theorem index_agrees_application :
    let d : Document := {
      version := "1.0.0"
      commands := [{ name := "Get-Item", kind := .cmdlet }, { name := "cmd.exe", kind := .application }]
      aliases := .single "gi" "Get-Item" }
    ∃ catalog, Catalog.ofDocument d = .ok catalog ∧
      catalog.metadata "CMD.EXE" = .error (.notIntrospectable "cmd.exe" .application) ∧
      d.Answers "CMD.EXE" (catalog.metadata "CMD.EXE") ∧
      catalog.alias? "GI" = some "Get-Item" ∧ catalog.alias? "GI" = d.target? "GI" := by
  intro d
  have hload : Catalog.ofDocument d = .ok (Catalog.described d) :=
    Catalog.ofDocument_eq_ok_iff.mpr ⟨by decide +kernel, rfl⟩
  exact ⟨_, hload, by decide +kernel, (index_agrees hload "CMD.EXE").1, by decide +kernel,
    (index_agrees hload "GI").2.1⟩

end ScriptLint
