import ScriptLint.Diagnostic.Basic
import ScriptLint.Diagnostic.Template

/-!
Identities: name, explanation, severity and message of every check that the library itself makes.
-/

namespace ScriptLint

/-- The checks that have an identity. -/
inductive Check
  | cmdletUse
  | unterminatedString
  | missingCloseBrace
  | missingCloseParen
  | unexpectedToken
  | nestingTooDeep
  deriving DecidableEq, Repr

structure Identity where
  /-- The qualified name, by which diagnostics refer to the check. -/
  id : String
  commonName : String
  description : String
  severity : Severity
  /-- The message, with slots for the values of the context. -/
  template : String
  deriving DecidableEq, Repr

namespace Check

def all : List Check :=
  [cmdletUse, unterminatedString, missingCloseBrace, missingCloseParen, unexpectedToken,
    nestingTooDeep]

def identity : Check → Identity
  | cmdletUse => {
      id := "PSUseCmdletCorrectly"
      commonName := "Use Cmdlet Correctly"
      description := "Cmdlet should be called with the mandatory parameters. The check only reports " ++
        "invocations whose command resolves to a cmdlet with parameters that are mandatory in every " ++
        "parameter set, and that supply none of them by name and no positional arguments."
      severity := .warning
      template := "Cmdlet '\x7bcommand\x7d' may be used incorrectly. Please check that all " ++
        "mandatory parameters are supplied." }
  | unterminatedString => {
      id := "PSParseUnterminatedString"
      commonName := "Unterminated String"
      description := "A single- or double-quoted string literal runs to the end of the input " ++
        "without a closing quote."
      severity := .parseError
      template := "string literal is missing the terminator \x7bquote\x7d" }
  | missingCloseBrace => {
      id := "PSParseMissingCloseBrace"
      commonName := "Missing Closing Brace"
      description := "A \x60\x7b\x60 that opens a script block or hashtable has no matching " ++
        "\x60\x7d\x60 before the end of input."
      severity := .parseError
      template := "missing closing \x7bexpected\x7d" }
  | missingCloseParen => {
      id := "PSParseMissingCloseParen"
      commonName := "Missing Closing Parenthesis"
      description := "A \x60(\x60, \x60$(\x60 or \x60@(\x60 has no matching \x60)\x60 before the " ++
        "end of the enclosing construct."
      severity := .parseError
      template := "missing closing \x7bexpected\x7d" }
  | unexpectedToken => {
      id := "PSParseUnexpectedToken"
      commonName := "Unexpected Token"
      description := "The parser found a token that is not valid at this position; it skips to the " ++
        "next statement boundary and continues."
      severity := .parseError
      template := "unexpected token '\x7btoken\x7d'" }
  | nestingTooDeep => {
      id := "PSParseNestingTooDeep"
      commonName := "Nesting Too Deep"
      description := "Script blocks, parenthesized expressions, sub-expressions and hashtables may " ++
        "nest up to a fixed depth. A group opened past that depth is skipped up to its matching " ++
        "closer, so commands inside it are not analyzed."
      severity := .parseError
      template := "nesting exceeds the maximum depth of \x7blimit\x7d" }

/-- The check of a qualified name, which is read with its case. -/
def ofId? (id : String) : Option Check :=
  all.find? (·.identity.id == id)

@[simp] theorem ofId?_id (c : Check) : ofId? c.identity.id = some c := by
  cases c <;> decide

def message (c : Check) (context : Dictionary) : String :=
  Template.fill c.identity.template context

/-- The diagnostic of the check at a span. -/
def diagnostic (c : Check) (context : Dictionary) (span : Span) : Diagnostic where
  rule := c.identity.id
  severity := c.identity.severity
  message := c.message context
  span := some span
  context := some context

end Check

/-- The message template of a check in one of its variants; there is only the default one. -/
def Identity.template? (i : Identity) (variant : String) : Option String :=
  if variant = "default" then some i.template else none

/-- The explanation of the check that made a diagnostic. -/
def Diagnostic.explanation? (d : Diagnostic) : Option String :=
  (Check.ofId? d.rule).map (·.identity.description)

end ScriptLint
