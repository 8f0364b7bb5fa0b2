import ScriptLint.Rule.Registry
import ScriptLint.Syntax.Parse

/-!
Linting: a script is parsed, and rules run over its tree. What the parse found comes first.
-/

namespace ScriptLint

structure LintResult where
  issues : List Diagnostic

namespace LintResult

/-- Warnings are allowed. -/
def ok (r : LintResult) : Bool := !r.issues.any (·.severity.isFailure)

/-- The faults of a parse, then what the rules found. -/
def ofParsed (p : Parsed) (file : String) (found : List Diagnostic) : LintResult :=
  ⟨p.diagnostics.map (·.inFile file) ++ found⟩

end LintResult

/-- Runs the rules that come with the library. -/
def lint (source : String) (p : Provider) (file : String) : LintResult :=
  let parsed := parse source
  .ofParsed parsed file ((Registry.builtin p).runAll parsed.tree file)

/-- Runs the rules selected in a registry. -/
def lintWith (source : String) (g : Registry) (s : Selection) (file : String) :
    Except UnknownRule LintResult := do
  let parsed := parse source
  return .ofParsed parsed file (← g.run parsed.tree file s)

end ScriptLint
