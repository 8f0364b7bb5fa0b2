import ScriptLint.Dictionary
import ScriptLint.Source.Span

/-!
Diagnostics: what a rule or a parse has to say about a script.
-/

namespace ScriptLint

inductive Severity
  | error
  | warning
  | information
  | parseError
  deriving DecidableEq, Repr

namespace Severity

/-- Severities that make a lint run fail. -/
def isFailure : Severity → Bool
  | error | parseError => true
  | warning | information => false

/-- How a severity is named to a reader. -/
def label : Severity → String
  | error => "error"
  | warning => "warning"
  | information => "information"
  | parseError => "parse error"

/-- How a severity is named in data. -/
def key : Severity → String
  | error => "error"
  | warning => "warning"
  | information => "information"
  | parseError => "parseerror"

def ofKey? : String → Option Severity
  | "error" => some error
  | "warning" => some warning
  | "information" => some information
  | "parseerror" => some parseError
  | _ => none

@[simp] theorem ofKey?_key (s : Severity) : ofKey? s.key = some s := by
  cases s <;> rfl

end Severity

structure Diagnostic where
  rule : String
  severity : Severity
  message : String
  span : Option Span := none
  file : Option String := none
  /-- The values behind the message, for tools. -/
  context : Option Dictionary := none
  deriving DecidableEq

namespace Diagnostic

def inFile (d : Diagnostic) (file : String) : Diagnostic := { d with file := some file }

def withContext (d : Diagnostic) (context : Dictionary) : Diagnostic :=
  { d with context := some context }

/-- The diagnostic on one line. -/
def display (d : Diagnostic) : String :=
  d.severity.label ++ "[" ++ d.rule ++ "]: " ++ d.message

end Diagnostic

end ScriptLint
