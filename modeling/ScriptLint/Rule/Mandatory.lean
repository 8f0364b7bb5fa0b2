import ScriptLint.Catalog.Command

/-!
Mandatory parameters: those that a command asks for in every one of its parameter sets.
-/

namespace ScriptLint

/-- Names of parameters with the case in which they are declared; look-up goes without case. -/
structure MandatorySet where
  names : List String
  deriving DecidableEq, Repr

namespace MandatorySet

/-- There are as many mandatory declarations of the parameter as there are parameter sets. -/
def isRequired (c : Command) (p : Parameter) : Bool :=
  c.parameterSetCount ≤ p.declarationCount && c.parameterSetCount ≤ p.mandatoryCount

def ofCommand (c : Command) : MandatorySet :=
  ⟨(c.parameters.filter (isRequired c)).map (·.name)⟩

def isEmpty (s : MandatorySet) : Bool := s.names.isEmpty

def size (s : MandatorySet) : Nat := s.names.length

def contains (s : MandatorySet) (name : String) : Bool :=
  s.names.any (Text.sameName · name)

end MandatorySet

end ScriptLint
