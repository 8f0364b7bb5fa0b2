import ScriptLint.Catalog.Command
import ScriptLint.Dictionary

/-!
Catalog documents: an inventory of commands as it is written down, before anybody has checked it.
-/

namespace ScriptLint

/-- One declaration of a parameter. -/
structure Declaration where
  /-- The parameter set that the declaration is for; without one it is for all of them. -/
  set : Option String := none
  mandatory : Bool := false
  position : Option Nat := none
  deriving DecidableEq, Repr

structure ParameterEntry where
  name : String
  isSwitch : Bool := false
  declarations : List Declaration := []
  deriving DecidableEq, Repr

structure CommandEntry where
  name : String
  kind : CommandKind
  /-- The names of the parameter sets; without any there is a single one that has no name. -/
  parameterSets : List String := []
  parameters : List ParameterEntry := []
  deriving DecidableEq, Repr

namespace CommandEntry

def setCount (c : CommandEntry) : Nat := max c.parameterSets.length 1

/-- The command that the entry describes. -/
def command (c : CommandEntry) : Command where
  name := c.name
  kind := c.kind
  parameterSetCount := c.setCount
  parameters := c.parameters.map fun p =>
    { name := p.name, mandatory := p.declarations.map (·.mandatory), isSwitch := p.isSwitch }

end CommandEntry

structure Document where
  version : String
  commands : List CommandEntry := []
  /-- The command that each alias stands for. -/
  aliases : Dictionary := .empty
  deriving DecidableEq

end ScriptLint
