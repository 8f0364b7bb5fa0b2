import ScriptLint.Diagnostic.Identity

/-!
Faults: what may be wrong with the syntax of a script, as causes. The wording follows from the check
that a cause belongs to.
-/

namespace ScriptLint

/-- The two tokens that close a group. -/
inductive Closer
  | brace
  | paren
  deriving DecidableEq, Repr

inductive Problem
  | unterminatedString (quote : Char)
  | missingCloser (closer : Closer)
  | unexpectedToken (text : String)
  | nestingTooDeep (limit : Nat)
  deriving DecidableEq, Repr

namespace Problem

def check : Problem → Check
  | unterminatedString _ => .unterminatedString
  | missingCloser .brace => .missingCloseBrace
  | missingCloser .paren => .missingCloseParen
  | unexpectedToken _ => .unexpectedToken
  | nestingTooDeep _ => .nestingTooDeep

def context : Problem → Dictionary
  | unterminatedString quote => .single "quote" (String.singleton quote)
  | missingCloser .brace => .single "expected" "'\x7d'"
  | missingCloser .paren => .single "expected" "')'"
  | unexpectedToken text => .single "token" text
  | nestingTooDeep limit => .single "limit" (toString limit)

end Problem

/-- A problem and where it is. -/
structure Fault where
  problem : Problem
  span : Span
  deriving DecidableEq, Repr

def Fault.diagnostic (f : Fault) : Diagnostic :=
  f.problem.check.diagnostic f.problem.context f.span

end ScriptLint
