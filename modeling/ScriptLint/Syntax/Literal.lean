import ScriptLint.Syntax.Tree
import ScriptLint.Syntax.Token

/-!
Literals: what strings, variables and words mean by the way they are written.
-/

namespace ScriptLint.Literal

def dropPrefix? (part cs : List Char) : Option (List Char) :=
  if part.isPrefixOf cs then some (cs.drop part.length) else none

def dropSuffix? (part cs : List Char) : Option (List Char) :=
  if part.isSuffixOf cs then some (cs.take (cs.length - part.length)) else none

/-- The contents of a here-string without the line breaks behind its opening and before its end. -/
def trimLineBreaks (cs : List Char) : List Char :=
  let cs := (dropPrefix? ['\r', '\n'] cs <|> dropPrefix? ['\n'] cs).getD cs
  (dropSuffix? ['\r', '\n'] cs <|> dropSuffix? ['\n'] cs).getD cs

/-- Reads doubled quotes as one. -/
def undouble (quote : Char) : List Char → List Char
  | c :: d :: cs =>
    if c = quote ∧ d = quote then quote :: undouble quote cs else c :: undouble quote (d :: cs)
  | cs => cs

/-- The text holds a `$` with no backtick right before it; `before` is the character in front. -/
def expands (before : Char) : List Char → Bool
  | [] => false
  | c :: cs => (c = '$' && before ≠ '\x60') || expands c cs

/-- What stands between the quotes of a string, or behind the only one. -/
def contents (text : String) : List Char :=
  match text.toList with
  | '@' :: '\x27' :: cs => trimLineBreaks ((dropSuffix? ['\x27', '@'] cs).getD cs)
  | '@' :: '\x22' :: cs => trimLineBreaks ((dropSuffix? ['\x22', '@'] cs).getD cs)
  | '\x27' :: cs => (dropSuffix? ['\x27'] cs).getD cs
  | '\x22' :: cs => (dropSuffix? ['\x22'] cs).getD cs
  | cs => cs

/-- The value of a string as it is written, and whether it depends on variables. A string that is not
closed loses its opening quote alone. -/
def unquote (text : String) : String × Bool :=
  let body := contents text
  match text.toList with
  | '@' :: '\x27' :: _ => (String.ofList body, false)
  | '@' :: '\x22' :: _ => (String.ofList body, expands ' ' body)
  | '\x27' :: _ => (String.ofList (undouble '\x27' body), false)
  | '\x22' :: _ => (String.ofList (undouble '\x22' body), expands ' ' body)
  | _ => (text, false)

/-- The name of a variable as it is written, and whether it is splatted. -/
def variableName (text : String) : String × Bool :=
  match text.toList with
  | '@' :: cs => (String.ofList cs, true)
  | cs =>
    let name := (dropPrefix? ['$'] cs).getD cs
    let inner := (dropPrefix? ['{'] name).bind (dropSuffix? ['}'])
    (String.ofList (inner.getD name), false)

/-- The text without a sign in front. -/
def unsigned : List Char → List Char
  | '-' :: cs | '+' :: cs => cs
  | cs => cs

def startsWithDigit (cs : List Char) : Bool := cs.head?.any Char.isDigit

/-- The word starts like a number, with a sign and a point or without. -/
def isNumberLike (text : String) : Bool :=
  let body := unsigned text.toList
  startsWithDigit body || (body.head? = some '.' && startsWithDigit body.tail)

/-- The operators that assign, a longer one before those that start it. -/
def assignmentOperators : List String := ["??=", "+=", "-=", "*=", "/=", "%=", "="]

/-- The length in bytes of the assignment operator that the word starts with. -/
def assignmentLength? (text : String) : Option Nat :=
  (assignmentOperators.find? (·.toList.isPrefixOf text.toList)).map String.utf8ByteSize

end ScriptLint.Literal
