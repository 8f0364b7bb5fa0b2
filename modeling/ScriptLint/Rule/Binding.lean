import ScriptLint.Catalog.Command
import ScriptLint.Syntax.Tree

/-!
Binding: which of the values behind a command belong to its named parameters, and which are left to
bind by their position. Nothing is lost on the way: `Binding.elements` gives the elements back.
-/

namespace ScriptLint

/-- The value that a named parameter takes. -/
inductive BoundValue
  | none
  /-- A value behind a colon. -/
  | inline (value : Expression)
  /-- A value in the next element. -/
  | following (value : Expression)

inductive Binding
  | named (name : String) (span : Span) (value : BoundValue)
  | positional (value : Expression)

namespace BoundValue

def value? : BoundValue → Option Expression
  | none => .none
  | inline value | following value => some value

end BoundValue

namespace Binding

/-- The elements that the binding was made from. -/
def elements : Binding → List Element
  | named name span .none => [.parameter name none span]
  | named name span (.inline value) => [.parameter name (some value) span]
  | named name span (.following value) => [.parameter name none span, .argument value]
  | positional value => [.argument value]

def name? : Binding → Option String
  | named name _ _ => some name
  | positional _ => none

def isPositional : Binding → Bool
  | named _ _ _ => false
  | positional _ => true

end Binding

/-- The parameter is a switch of the command. One that the command does not declare is none, and
without a command nothing is. -/
def isSwitch (command : Option Command) (name : String) : Bool :=
  command.any fun c => (c.parameter? name).any (·.isSwitch)

/-- Gives each parameter that has no value yet, and is no switch, the argument right behind it. -/
def bind (command : Option Command) : List Element → List Binding
  | [] => []
  | .argument value :: rest => .positional value :: bind command rest
  | .parameter name (some value) span :: rest =>
    .named name span (.inline value) :: bind command rest
  | .parameter name none span :: .argument value :: rest =>
    if isSwitch command name then .named name span .none :: bind command (.argument value :: rest)
    else .named name span (.following value) :: bind command rest
  | .parameter name none span :: rest => .named name span .none :: bind command rest

namespace Invocation

def bindings (i : Invocation) (command : Option Command) : List Binding :=
  bind command i.elements

/-- Some argument binds by its position. -/
def bindsByPosition (i : Invocation) (command : Option Command) : Bool :=
  (i.bindings command).any Binding.isPositional

/-- The names of the parameters in the order of the script. -/
def namedParameters (i : Invocation) (command : Option Command) : List String :=
  (i.bindings command).filterMap Binding.name?

end Invocation

end ScriptLint
