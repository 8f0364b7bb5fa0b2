import Mathlib.Data.List.Perm.Basic
import ScriptLint.Lint
import ScriptLint.Proofs.Catalog.Lookup
import ScriptLint.Proofs.Catalog.Mandatory

/-!
The order of a catalog. A document may list its commands, their parameter sets, their parameters and the
declarations of these in any order: whether it becomes a catalog does not depend on it, and neither does what
a script is told. Parameters are looked up by the first one of a name, and the mandatory ones are listed in
the order of the document; it is the names that a valid document does not repeat which keep the order from
showing.
-/

namespace ScriptLint

/-- In some order of the first list, its members have their counterparts in the second one. -/
def Reordered {α : Type} (R : α → α → Prop) (l l' : List α) : Prop :=
  ∃ m, l.Perm m ∧ List.Forall₂ R m l'

/-- The declarations of the parameter are in any order. -/
structure ParameterEntry.Reordered (p p' : ParameterEntry) : Prop where
  name : p.name = p'.name
  isSwitch : p.isSwitch = p'.isSwitch
  declarations : p.declarations.Perm p'.declarations

/-- The parameter sets and the parameters of the command are in any order. -/
structure CommandEntry.Reordered (c c' : CommandEntry) : Prop where
  name : c.name = c'.name
  kind : c.kind = c'.kind
  parameterSets : c.parameterSets.Perm c'.parameterSets
  parameters : ScriptLint.Reordered ParameterEntry.Reordered c.parameters c'.parameters

/-- The commands are in any order, and so is what is listed in them. Aliases have no order. -/
structure Document.Reordered (d d' : Document) : Prop where
  version : d.version = d'.version
  commands : ScriptLint.Reordered CommandEntry.Reordered d.commands d'.commands
  aliases : d.aliases = d'.aliases

namespace Reordered

variable {α : Type} {R : α → α → Prop} {l l' : List α}

theorem symm (hR : ∀ a a', R a a' → R a' a) (h : Reordered R l l') : Reordered R l' l := by
  obtain ⟨m, hperm, hforall⟩ := h
  have hflip : List.Forall₂ R l' m := .flip (hforall.imp hR)
  have hcomp : Relation.Comp (List.Forall₂ R) List.Perm l' l := ⟨m, hflip, hperm.symm⟩
  rwa [List.forall₂_comp_perm_eq_perm_comp_forall₂] at hcomp

theorem exists_of_mem (h : Reordered R l l') {a : α} (ha : a ∈ l) : ∃ a' ∈ l', R a a' := by
  obtain ⟨m, hperm, hforall⟩ := h
  have hm := hperm.mem_iff.mp ha
  clear hperm
  induction hforall with
  | nil => cases hm
  | cons hR hrest ih =>
      rcases List.mem_cons.mp hm with rfl | hm
      · exact ⟨_, List.mem_cons_self, hR⟩
      · obtain ⟨a', ha', hR⟩ := ih hm
        exact ⟨a', List.mem_cons_of_mem _ ha', hR⟩

theorem map_perm {β : Type} {f : α → β} (hf : ∀ a a', R a a' → f a = f a') (h : Reordered R l l') :
    (l.map f).Perm (l'.map f) := by
  obtain ⟨m, hperm, hforall⟩ := h
  have hmap : m.map f = l'.map f := by
    clear hperm
    induction hforall with
    | nil => rfl
    | cons hR hrest ih => rw [List.map_cons, List.map_cons, hf _ _ hR, ih]
  rw [← hmap]
  exact hperm.map f

/-- Where no name comes twice, a search for a name comes to counterparts, or to nothing. -/
theorem find?_sameName (key : α → String) (hR : ∀ a a', R a a' → R a' a)
    (hkey : ∀ a a', R a a' → key a = key a') (h : Reordered R l l')
    (hnodup : (l.map fun a => Text.fold (key a)).Nodup) (name : String) :
    Option.Rel R (l.find? fun a => Text.sameName (key a) name)
      (l'.find? fun a => Text.sameName (key a) name) := by
  have hnodup' : (l'.map fun a => Text.fold (key a)).Nodup :=
    (h.map_perm fun a a' haa' => congrArg Text.fold (hkey a a' haa')).nodup_iff.mp hnodup
  cases hfind : l.find? fun a => Text.sameName (key a) name with
  | some a =>
      obtain ⟨ha, hname⟩ := (find?_sameName_eq_some_iff key hnodup).mp hfind
      obtain ⟨a', ha', haa'⟩ := h.exists_of_mem ha
      rw [hkey a a' haa'] at hname
      rw [(find?_sameName_eq_some_iff key hnodup').mpr ⟨ha', hname⟩]
      exact .some haa'
  | none =>
      cases hfind' : l'.find? fun a => Text.sameName (key a) name with
      | none => exact .none
      | some a' =>
          obtain ⟨ha', hname⟩ := (find?_sameName_eq_some_iff key hnodup').mp hfind'
          obtain ⟨a, ha, haa'⟩ := (h.symm hR).exists_of_mem ha'
          rw [hkey a' a haa'] at hname
          rw [(find?_sameName_eq_some_iff key hnodup).mpr ⟨ha, hname⟩] at hfind
          cases hfind

end Reordered

theorem ParameterEntry.Reordered.symm {p p' : ParameterEntry} (h : p.Reordered p') : p'.Reordered p :=
  ⟨h.name.symm, h.isSwitch.symm, h.declarations.symm⟩

namespace CommandEntry.Reordered

variable {c c' : CommandEntry}

theorem symm (h : c.Reordered c') : c'.Reordered c :=
  ⟨h.name.symm, h.kind.symm, h.parameterSets.symm,
    h.parameters.symm fun _ _ => ParameterEntry.Reordered.symm⟩

theorem setCount_eq (h : c.Reordered c') : c.setCount = c'.setCount := by
  rw [setCount, setCount, h.parameterSets.length_eq]

theorem valid (h : c.Reordered c') (hc : c.Valid) : c'.Valid where
  declared := by
    intro p' hp' d hd set hset
    obtain ⟨p, hp, hpp'⟩ := h.symm.parameters.exists_of_mem hp'
    have hdeclared := hc.declared p hp d (hpp'.declarations.mem_iff.mp hd) set hset
    exact (h.parameterSets.map Text.fold).mem_iff.mp hdeclared
  distinct :=
    (h.parameters.map_perm fun _ _ hpp' => congrArg Text.fold hpp'.name).nodup_iff.mp hc.distinct
  named := h.name ▸ hc.named
  parametersNamed := by
    intro p' hp'
    obtain ⟨p, hp, hpp'⟩ := h.symm.parameters.exists_of_mem hp'
    rw [hpp'.name]
    exact hc.parametersNamed p hp

end CommandEntry.Reordered

namespace Document.Reordered

variable {d d' : Document}

theorem symm (h : d.Reordered d') : d'.Reordered d :=
  ⟨h.version.symm, h.commands.symm fun _ _ => CommandEntry.Reordered.symm, h.aliases.symm⟩

theorem valid (h : d.Reordered d') (hd : d.Valid) : d'.Valid where
  version := h.version ▸ hd.version
  commands := by
    intro c' hc'
    obtain ⟨c, hc, hcc'⟩ := h.symm.commands.exists_of_mem hc'
    exact hcc'.symm.valid (hd.commands c hc)
  commandsDistinct :=
    (h.commands.map_perm fun _ _ hcc' => congrArg Text.fold hcc'.name).nodup_iff.mp hd.commandsDistinct
  aliasesNamed := h.aliases ▸ hd.aliasesNamed
  aliasesDistinct := h.aliases ▸ hd.aliasesDistinct

theorem command?_rel (h : d.Reordered d') (hd : d.Valid) (name : String) :
    Option.Rel CommandEntry.Reordered (d.command? name) (d'.command? name) :=
  h.commands.find?_sameName CommandEntry.name (fun _ _ => CommandEntry.Reordered.symm) (fun _ _ hcc' => hcc'.name)
    hd.commandsDistinct name

end Document.Reordered

/-- The rule cannot tell the commands apart: nothing that it asks of them is answered differently. -/
structure Command.Alike (c c' : Command) : Prop where
  name : c.name = c'.name
  kind : c.kind = c'.kind
  isSwitch : ∀ name, isSwitch (some c) name = isSwitch (some c') name
  required : ∀ name, name ∈ (MandatorySet.ofCommand c).names ↔ name ∈ (MandatorySet.ofCommand c').names

/-- Answers that are the same, or give commands that the rule cannot tell apart. -/
inductive AlikeAnswers : Except MetadataFault (Option Command) → Except MetadataFault (Option Command) → Prop
  | unknown : AlikeAnswers (.ok none) (.ok none)
  | fault (f : MetadataFault) : AlikeAnswers (.error f) (.error f)
  | known {c c' : Command} (h : c.Alike c') : AlikeAnswers (.ok (some c)) (.ok (some c'))

inductive Resolution.Alike : Resolution → Resolution → Prop
  | resolved {c c' : Command} (h : c.Alike c') : Alike (.resolved c) (.resolved c')
  | unresolved : Alike .unresolved .unresolved
  | fault (f : MetadataFault) : Alike (.fault f) (.fault f)

structure Provider.Alike (p p' : Provider) : Prop where
  alias? : ∀ name, p.alias? name = p'.alias? name
  metadata : ∀ name, AlikeAnswers (p.metadata name) (p'.metadata name)

namespace Provider.Alike

variable {p p' : Provider}

theorem resolveDirectly (h : p.Alike p') (name : String) (earlier : Option MetadataFault) :
    (p.resolveDirectly name earlier).Alike (p'.resolveDirectly name earlier) := by
  unfold Provider.resolveDirectly
  have hanswers := h.metadata name
  generalize p.metadata name = answer, p'.metadata name = answer' at hanswers ⊢
  cases hanswers with
  | unknown =>
      cases earlier with
      | none => exact .unresolved
      | some f => exact .fault f
  | fault f => exact .fault f
  | known hc => exact .resolved hc

theorem resolve (h : p.Alike p') (name : String) : (p.resolve name).Alike (p'.resolve name) := by
  unfold Provider.resolve
  rw [← h.alias?]
  cases p.alias? name with
  | none => exact h.resolveDirectly name none
  | some target =>
      have hanswers := h.metadata target
      dsimp only
      generalize p.metadata target = answer, p'.metadata target = answer' at hanswers ⊢
      cases hanswers with
      | unknown => exact h.resolveDirectly name none
      | fault f => exact h.resolveDirectly name (some f)
      | known hc => exact .resolved hc

end Provider.Alike

namespace Command.Alike

variable {c c' : Command}

theorem isEmpty_eq (h : c.Alike c') :
    (MandatorySet.ofCommand c).isEmpty = (MandatorySet.ofCommand c').isEmpty := by
  rw [Bool.eq_iff_iff, MandatorySet.isEmpty, MandatorySet.isEmpty, List.isEmpty_iff, List.isEmpty_iff,
    List.eq_nil_iff_forall_not_mem, List.eq_nil_iff_forall_not_mem]
  exact forall_congr' fun name => not_congr (h.required name)

theorem contains_eq (h : c.Alike c') :
    (MandatorySet.ofCommand c).contains = (MandatorySet.ofCommand c').contains := by
  funext name
  rw [Bool.eq_iff_iff, MandatorySet.contains, MandatorySet.contains, List.any_eq_true, List.any_eq_true]
  exact exists_congr fun other => and_congr_left' (h.required other)

end Command.Alike

namespace CmdletUse

theorem checkResolved_of_alike {c c' : Command} (h : c.Alike c') (i : Invocation) (name : String) :
    checkResolved i name c = checkResolved i name c' := by
  have hbindings : i.bindings (some c) = i.bindings (some c') := bind_eq_of_isSwitch_eq h.isSwitch i.elements
  rw [checkResolved, checkResolved, Invocation.bindsByPosition, Invocation.bindsByPosition,
    Invocation.namedParameters, Invocation.namedParameters, hbindings, h.kind, h.name, h.isEmpty_eq,
    h.contains_eq]

theorem check_of_alike {p p' : Provider} (h : p.Alike p') (i : Invocation) : check p i = check p' i := by
  unfold check
  cases i.commandName? with
  | none => rfl
  | some name =>
      have halike := h.resolve name
      dsimp only
      generalize p.resolve name = resolution, p'.resolve name = resolution' at halike ⊢
      cases halike with
      | resolved hc => exact checkResolved_of_alike hc i name
      | unresolved => rfl
      | fault f => rfl

theorem rule_of_alike {p p' : Provider} (h : p.Alike p') : rule p = rule p' := by
  have hwarning : warning? p = warning? p' := by
    funext file i
    rw [warning?, warning?, check_of_alike h]
  have hanalyze : analyze p = analyze p' := by
    funext t file
    rw [analyze, analyze, hwarning]
  rw [rule, rule, hanalyze]

end CmdletUse

theorem lint_of_alike {p p' : Provider} (h : p.Alike p') (source file : String) :
    lint source p file = lint source p' file := by
  rw [lint, lint, Registry.builtin, Registry.builtin, CmdletUse.rule_of_alike h]

theorem CommandEntry.isSwitch_command (c : CommandEntry) (name : String) :
    isSwitch (some c.command) name =
      (c.parameters.find? fun p => Text.sameName p.name name).any (·.isSwitch) := by
  rw [isSwitch, Option.any_some, Command.parameter?, CommandEntry.command, List.find?_map, Option.any_map]
  rfl

namespace CommandEntry.Reordered

variable {c c' : CommandEntry}

theorem mem_names (h : c.Reordered c') {name : String}
    (hname : name ∈ (MandatorySet.ofCommand c.command).names) :
    name ∈ (MandatorySet.ofCommand c'.command).names := by
  obtain ⟨p, hp, hcount, rfl⟩ := mem_names_command.mp hname
  obtain ⟨p', hp', hpp'⟩ := h.parameters.exists_of_mem hp
  refine mem_names_command.mpr ⟨p', hp', ?_, hpp'.name.symm⟩
  rwa [← h.setCount_eq, ← (hpp'.declarations.map _).count_eq]

theorem alike (h : c.Reordered c') (hc : c.Valid) : c.command.Alike c'.command where
  name := h.name
  kind := h.kind
  isSwitch := by
    intro name
    rw [isSwitch_command, isSwitch_command]
    have hfound := h.parameters.find?_sameName ParameterEntry.name (fun _ _ => ParameterEntry.Reordered.symm)
      (fun _ _ hpp' => hpp'.name) hc.distinct name
    generalize (c.parameters.find? fun p => Text.sameName p.name name) = found,
      (c'.parameters.find? fun p => Text.sameName p.name name) = found' at hfound ⊢
    cases hfound with
    | none => rfl
    | some hpp' => exact hpp'.isSwitch
  required := fun name => ⟨h.mem_names, h.symm.mem_names⟩

theorem answer (h : c.Reordered c') (hc : c.Valid) : AlikeAnswers c.answer c'.answer := by
  rw [CommandEntry.answer, CommandEntry.answer, ← h.kind, ← h.name]
  split_ifs
  · exact .fault _
  · exact .known (h.alike hc)

end CommandEntry.Reordered

namespace Document.Reordered

variable {d d' : Document}

theorem provider (h : d.Reordered d') (hd : d.Valid) :
    (Catalog.described d).provider.Alike (Catalog.described d').provider where
  alias? := by
    intro name
    show (Catalog.described d).alias? name = (Catalog.described d').alias? name
    rw [Catalog.alias?_described, Catalog.alias?_described, target?, target?, h.aliases]
  metadata := by
    intro name
    show AlikeAnswers ((Catalog.described d).metadata name) ((Catalog.described d').metadata name)
    rw [Catalog.metadata_described, Catalog.metadata_described]
    have hfound := h.command?_rel hd name
    cases hcommand : d.command? name with
    | none =>
        rw [hcommand] at hfound
        generalize d'.command? name = found' at hfound ⊢
        cases hfound
        exact .unknown
    | some c =>
        rw [hcommand] at hfound
        generalize d'.command? name = found' at hfound ⊢
        cases hfound with
        | some hcc' => exact hcc'.answer (hd.commands c (List.mem_of_find?_eq_some hcommand))

end Document.Reordered

/-- Two documents that list the same in different orders are both accepted or both refused, and a script is told
the same with the one as with the other. -/
theorem order_without_meaning {d d' : Document} (h : d.Reordered d') :
    ((∃ catalog, Catalog.ofDocument d = .ok catalog) ↔ ∃ catalog', Catalog.ofDocument d' = .ok catalog') ∧
      ∀ catalog catalog', Catalog.ofDocument d = .ok catalog → Catalog.ofDocument d' = .ok catalog' →
        ∀ source file, (lint source catalog.provider file).ok = (lint source catalog'.provider file).ok ∧
          (lint source catalog.provider file).issues = (lint source catalog'.provider file).issues := by
  simp only [Catalog.ofDocument_eq_ok_iff, Catalog.errors_eq_nil_iff]
  refine ⟨?_, ?_⟩
  · simp only [exists_and_left, exists_eq, and_true]
    exact ⟨h.valid, h.symm.valid⟩
  · rintro _ _ ⟨hvalid, rfl⟩ ⟨-, rfl⟩ source file
    rw [lint_of_alike (h.provider hvalid)]
    exact ⟨rfl, rfl⟩

/-- Commands, parameter sets, parameters and declarations the other way round; the one call is reported. -/
theorem order_without_meaning_rename :
    let path : ParameterEntry := { name := "Path", declarations := [{ set := some "ByPath", mandatory := true }] }
    let inPath : Declaration := { set := some "ByPath", mandatory := true, position := some 1 }
    let inLiteral : Declaration := { set := some "ByLiteralPath", mandatory := true }
    let git : CommandEntry := { name := "git", kind := .application }
    let rename : CommandEntry := {
      name := "Rename-Item", kind := .cmdlet, parameterSets := ["ByPath", "ByLiteralPath"]
      parameters := [path, { name := "NewName", declarations := [inPath, inLiteral] }] }
    let rename' : CommandEntry := {
      name := "Rename-Item", kind := .cmdlet, parameterSets := ["ByLiteralPath", "ByPath"]
      parameters := [{ name := "NewName", declarations := [inLiteral, inPath] }, path] }
    let d : Document := { version := "1.0.0", commands := [git, rename] }
    let d' : Document := { version := "1.0.0", commands := [rename', git] }
    d.Reordered d' ∧ ∃ catalog catalog', Catalog.ofDocument d = .ok catalog ∧
      Catalog.ofDocument d' = .ok catalog' ∧
        (lint "rename-item; git" catalog.provider "a.ps1").issues.map (·.span) = [some ⟨0, 11⟩] ∧
          (lint "rename-item; git" catalog.provider "a.ps1").issues =
            (lint "rename-item; git" catalog'.provider "a.ps1").issues := by
  intro path inPath inLiteral git rename rename' d d'
  have hname : ParameterEntry.Reordered { name := "NewName", declarations := [inPath, inLiteral] }
      { name := "NewName", declarations := [inLiteral, inPath] } := ⟨rfl, rfl, .swap _ _ _⟩
  have hrename : rename.Reordered rename' :=
    ⟨rfl, rfl, .swap _ _ _, _, .swap _ _ _, .cons hname (.cons ⟨rfl, rfl, .refl _⟩ .nil)⟩
  have hgit : git.Reordered git := ⟨rfl, rfl, .refl _, _, .refl _, .nil⟩
  have h : d.Reordered d' := ⟨rfl, ⟨_, .swap _ _ _, .cons hrename (.cons hgit .nil)⟩, rfl⟩
  have hload : Catalog.ofDocument d = .ok (Catalog.described d) :=
    Catalog.ofDocument_eq_ok_iff.mpr ⟨by decide +kernel, rfl⟩
  obtain ⟨catalog', hload'⟩ := (order_without_meaning h).1.mp ⟨_, hload⟩
  exact ⟨h, _, catalog', hload, hload', by decide +kernel,
    ((order_without_meaning h).2 _ _ hload hload' _ _).2⟩

end ScriptLint
