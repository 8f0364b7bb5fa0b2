import ScriptLint.Rule.CmdletUse

/-!
Registries: rules in the order in which they were registered, and selections among them by name,
without regard to case. Names may repeat.
-/

namespace ScriptLint

structure Registry where
  rules : List Rule

/-- Which rules to run: those included, or all if none is, except for those excluded. -/
structure Selection where
  included : List String := []
  excluded : List String := []
  deriving DecidableEq, Repr

/-- A selection asks for a rule that nobody has registered. -/
structure UnknownRule where
  name : String
  deriving DecidableEq, Repr

def UnknownRule.message (e : UnknownRule) : String := "unknown rule '" ++ e.name ++ "'"

namespace Selection

def lists (names : List String) (r : Rule) : Bool :=
  names.any (Text.sameName · r.name)

def admits (s : Selection) (r : Rule) : Bool :=
  (s.included.isEmpty || lists s.included r) && !lists s.excluded r

end Selection

namespace Registry

def empty : Registry := ⟨[]⟩

/-- The rules that come with the library. -/
def builtin (p : Provider) : Registry := ⟨[CmdletUse.rule p]⟩

def register (g : Registry) (r : Rule) : Registry := ⟨g.rules ++ [r]⟩

def get? (g : Registry) (name : String) : Option Rule :=
  g.rules.find? fun r => Text.sameName r.name name

/-- The selected rules in the order of the registry. -/
def select (g : Registry) (s : Selection) : Except UnknownRule (List Rule) :=
  match (s.included ++ s.excluded).find? fun name => (g.get? name).isNone with
  | some name => .error ⟨name⟩
  | none => .ok (g.rules.filter s.admits)

/-- The diagnostics of some rules, one rule after the other. -/
def analyzeAll (rules : List Rule) (t : Tree) (file : String) : List Diagnostic :=
  rules.flatMap fun r => r.analyze t file

def run (g : Registry) (t : Tree) (file : String) (s : Selection) :
    Except UnknownRule (List Diagnostic) := do
  return analyzeAll (← g.select s) t file

def runAll (g : Registry) (t : Tree) (file : String) : List Diagnostic :=
  analyzeAll g.rules t file

end Registry

end ScriptLint
