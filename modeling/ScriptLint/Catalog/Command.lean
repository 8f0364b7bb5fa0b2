import ScriptLint.Text.Case

/-!
Commands as an inventory describes them, and providers, which answer what a name stands for.
-/

namespace ScriptLint

inductive CommandKind
  | cmdlet
  | function
  | filter
  | script
  | application
  | alias
  | workflow
  | configuration
  deriving DecidableEq, Repr, Inhabited

namespace CommandKind

def key : CommandKind → String
  | .cmdlet => "cmdlet"
  | .function => "function"
  | .filter => "filter"
  | .script => "script"
  | .application => "application"
  | .alias => "alias"
  | .workflow => "workflow"
  | .configuration => "configuration"

def ofKey? : String → Option CommandKind
  | "cmdlet" => some .cmdlet
  | "function" => some .function
  | "filter" => some .filter
  | "script" => some .script
  | "application" => some .application
  | "alias" => some .alias
  | "workflow" => some .workflow
  | "configuration" => some .configuration
  | _ => none

@[simp] theorem ofKey?_key (k : CommandKind) : ofKey? k.key = some k := by
  cases k <;> rfl

/-- Only cmdlets declare which of their parameters are mandatory. -/
def carriesParameterMetadata (k : CommandKind) : Bool := k = .cmdlet

end CommandKind

structure Parameter where
  name : String
  /-- For each declaration of the parameter, whether it makes the parameter mandatory. -/
  mandatory : List Bool
  /-- Switches take no value. -/
  isSwitch : Bool
  deriving DecidableEq, Repr

namespace Parameter

def declarationCount (p : Parameter) : Nat := p.mandatory.length

def mandatoryCount (p : Parameter) : Nat := p.mandatory.count true

end Parameter

structure Command where
  name : String
  kind : CommandKind
  parameterSetCount : Nat
  parameters : List Parameter
  deriving DecidableEq, Repr

/-- The parameter of a name; the first one declared, if several share it. -/
def Command.parameter? (c : Command) (name : String) : Option Parameter :=
  c.parameters.find? fun p => Text.sameName p.name name

/-- Why nothing can be said about a command. -/
inductive MetadataFault
  | notIntrospectable (name : String) (kind : CommandKind)
  | inconsistent (name reason : String)
  deriving DecidableEq, Repr

def MetadataFault.message : MetadataFault → String
  | notIntrospectable name kind =>
    "metadata for " ++ kind.key ++ " '" ++ name ++ "' cannot be inspected"
  | inconsistent name reason => "inconsistent metadata for '" ++ name ++ "': " ++ reason

/-- A source of command metadata. A name that nobody knows has none; a fault is an answer too. -/
structure Provider where
  alias? : String → Option String
  metadata : String → Except MetadataFault (Option Command)

end ScriptLint
