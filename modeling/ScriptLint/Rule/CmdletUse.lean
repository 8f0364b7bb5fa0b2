import ScriptLint.Diagnostic.Identity
import ScriptLint.Rule.Basic
import ScriptLint.Rule.Binding
import ScriptLint.Rule.Mandatory
import ScriptLint.Syntax.Walker

/-!
The rule on cmdlets: a call that supplies none of the parameters which the cmdlet asks for in every
parameter set is reported, unless something keeps the rule from being sure of it.
-/

namespace ScriptLint

/-- What a name stands for. -/
inductive Resolution
  | resolved (command : Command)
  | unresolved
  | fault (fault : MetadataFault)
  deriving DecidableEq, Repr

/-- A question to a provider. -/
inductive Lookup
  | alias (name : String)
  | command (name : String)
  deriving DecidableEq, Repr

namespace Provider

/-- What the name itself stands for, after the target of an alias failed with the `earlier` fault. -/
def resolveDirectly (p : Provider) (name : String) (earlier : Option MetadataFault) : Resolution :=
  match p.metadata name with
  | .ok (some command) => .resolved command
  | .ok none => (earlier.map Resolution.fault).getD .unresolved
  | .error fault => .fault fault

/-- What a name stands for: the target of an alias first, and if that leads nowhere the name itself. -/
def resolve (p : Provider) (name : String) : Resolution :=
  match p.alias? name with
  | none => p.resolveDirectly name none
  | some target =>
    match p.metadata target with
    | .ok (some command) => .resolved command
    | .ok none => p.resolveDirectly name none
    | .error fault => p.resolveDirectly name (some fault)

/-- The questions that `resolve` asks, in their order. -/
def lookups (p : Provider) (name : String) : List Lookup :=
  match p.alias? name with
  | none => [.alias name, .command name]
  | some target =>
    match p.metadata target with
    | .ok (some _) => [.alias name, .command target]
    | .ok none | .error _ => [.alias name, .command target, .command name]

end Provider

/-- Why a call is accepted. -/
inductive ConformantReason
  /-- The name stands for nothing that is known, or the call has none. -/
  | unresolved
  | providerFault
  /-- Commands of this kind do not tell what is mandatory. -/
  | noParameterMetadata
  | noMandatoryParameters
  /-- An argument binds by its position, perhaps to a mandatory parameter. -/
  | positionalBinding
  /-- One of the mandatory parameters is named; others may still be missing. -/
  | mandatorySupplied
  deriving DecidableEq, Repr

inductive Verdict
  | conformant (reason : ConformantReason)
  /-- The command as the script names it, and its own name. -/
  | nonConformant (command resolved : String)
  deriving DecidableEq, Repr

namespace CmdletUse

/-- The verdict on a call of the command that its name stands for. -/
def checkResolved (i : Invocation) (name : String) (c : Command) : Verdict :=
  let mandatory := MandatorySet.ofCommand c
  if !c.kind.carriesParameterMetadata then .conformant .noParameterMetadata
  else if mandatory.isEmpty then .conformant .noMandatoryParameters
  else if i.bindsByPosition (some c) then .conformant .positionalBinding
  else if (i.namedParameters (some c)).any mandatory.contains then .conformant .mandatorySupplied
  else .nonConformant name c.name

def check (p : Provider) (i : Invocation) : Verdict :=
  match i.commandName? with
  | none => .conformant .unresolved
  | some name =>
    match p.resolve name with
    | .resolved command => checkResolved i name command
    | .unresolved => .conformant .unresolved
    | .fault _ => .conformant .providerFault

/-- The questions that `check` asks the provider. -/
def lookups (p : Provider) (i : Invocation) : List Lookup :=
  match i.commandName? with
  | none => []
  | some name => p.lookups name

/-- The values behind a warning; the command's own name is among them if the script uses another. -/
def context (command resolved : String) : Dictionary :=
  let d := Dictionary.single "command" command
  if Text.sameName resolved command then d else d.insert "resolved" resolved

def warning (i : Invocation) (command resolved file : String) : Diagnostic :=
  (Check.cmdletUse.diagnostic (context command resolved) i.span).inFile file

def warning? (p : Provider) (file : String) (i : Invocation) : Option Diagnostic :=
  match check p i with
  | .nonConformant command resolved => some (warning i command resolved file)
  | .conformant _ => none

/-- A warning for each call that does not conform, in the order of a walk through the tree. -/
def analyze (p : Provider) (t : Tree) (file : String) : List Diagnostic :=
  (Walker.ofTree t).toList.filterMap (warning? p file)

/-- The rule with a provider to ask. -/
def rule (p : Provider) : Rule where
  name := Check.cmdletUse.identity.id
  commonName := Check.cmdletUse.identity.commonName
  description := Check.cmdletUse.identity.description
  sourceType := .builtin
  sourceName := "PS"
  analyze := analyze p

end CmdletUse

end ScriptLint
