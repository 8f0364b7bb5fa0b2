import ScriptLint.Diagnostic.Basic
import ScriptLint.Syntax.Tree

/-!
Rules: named analyses of one script. What a rule cannot decide it passes over in silence.
-/

namespace ScriptLint

/-- Who supplies a rule. -/
inductive SourceType
  | builtin
  /-- The program that holds the registry. -/
  | managed
  /-- A script module. -/
  | scriptModule
  deriving DecidableEq, Repr

def SourceType.key : SourceType → String
  | builtin => "builtin"
  | managed => "managed"
  | scriptModule => "module"

structure Rule where
  name : String
  commonName : String
  description : String
  sourceType : SourceType
  sourceName : String
  /-- The diagnostics for a tree; the file is how they refer to the script. -/
  analyze : Tree → (file : String) → List Diagnostic

end ScriptLint
