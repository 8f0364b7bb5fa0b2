import ScriptLint.Syntax.Cursor
import ScriptLint.Syntax.Literal

/-!
Commands and expressions. Groups, which hold statements again, are read by the three functions of
`Groups`, so that nothing here calls itself.
-/

namespace ScriptLint

/-- How the groups are read that stand at one level of nesting. The cursor stands on the opener. -/
structure Groups where
  block : Parser Block
  subexpression : Parser Expression
  hashtable : Parser Expression

namespace Token

def bareword (t : Token) : Expression := .bareword t.text t.span

def stringLiteral (t : Token) : Expression :=
  .stringLiteral (Literal.unquote t.text).1 (Literal.unquote t.text).2 t.span

def variableReference (t : Token) : Expression :=
  .variable (Literal.variableName t.text).1 (Literal.variableName t.text).2 t.span

def typeLiteral (t : Token) : Expression := .typeLiteral t.text t.span

/-- The quote that a string is written with. -/
def quote (t : Token) : Char :=
  (t.text.toList.find? fun c => c = '\x27' || c = '\x22').getD '\x22'

end Token

namespace Parse

open ScriptLint.Parser

/-- Reports a string that is not closed. -/
def checkClosed (t : Token) : Parser Unit :=
  if t.kind = .string true then report (.unterminatedString t.quote) t.span else pure ()

/-- An operand: a word, a literal or a group. -/
def primary (g : Groups) : Parser (Option Expression) := do
  match (← get).kind? with
  | some .word => return some (← advance).bareword
  | some (.string _) =>
    let t ← advance
    checkClosed t
    return some t.stringLiteral
  | some .variable => return some (← advance).variableReference
  | some .typeLiteral => return some (← advance).typeLiteral
  | some .openBrace => return some (.scriptBlock (← g.block))
  | some .openParen | some .dollarParen | some .atParen => return some (← g.subexpression)
  | some .atBrace => return some (← g.hashtable)
  | _ => return none

/-- One expression of several parts; a single part is the expression itself. -/
def joined : (parts : List Expression) → Parser (Option Expression)
  | [] => return none
  | [part] => return some part
  | first :: second :: parts => do
    return some (.sequence (first :: second :: parts) (← spanFrom first.span.start))

/-- The smallest piece of an argument, where a lone comma or parameter is a word like others. -/
def argumentAtom (g : Groups) : Parser (Option Expression) := do
  match (← get).kind? with
  | some (.parameter _) | some .comma => return some (← advance).bareword
  | _ => primary g

/-- The tokens that continue an argument they touch. -/
def continuesArgument : TokenKind → Bool
  | .word | .variable | .string _ | .typeLiteral | .dollarParen | .openParen => true
  | _ => false

/-- The token ahead touches the last one and continues an argument. -/
def touching (c : Cursor) : Bool :=
  match c.rest with
  | [] => false
  | t :: _ => t.start = c.lastEnd && continuesArgument t.kind

/-- Reads the next piece of an argument. -/
def adjacentRound (g : Groups) (parts : Array Expression) :
    Parser (ForInStep (Array Expression)) := do
  if touching (← get) then
    match ← argumentAtom g with
    | some part => return .yield (parts.push part)
    | none => return .done parts
  else
    return .done parts

/-- Pieces of an argument without a blank between them. -/
def adjacent (g : Groups) : Parser (Option Expression) := do
  match ← argumentAtom g with
  | none => return none
  | some first =>
    let parts ← repeating (adjacentRound g) #[first]
    joined parts.toList

/-- Passes the blanks ahead if a comma stands behind them, and tells whether one does. -/
def commaAhead : Parser Bool := do
  let c ← get
  if c.skipBlanks.kind? = some .comma then
    set c.skipBlanks
    return true
  else
    return false

/-- Reads the next item of an array. -/
def arrayRound (g : Groups) (items : Array Expression) :
    Parser (ForInStep (Array Expression)) := do
  if ← commaAhead then
    let _ ← advance
    skipSpacing
    match ← adjacent g with
    | some item => return .yield (items.push item)
    | none => return .done items
  else
    return .done items

/-- An argument; several with commas between them are an array. -/
def argument (g : Groups) : Parser (Option Expression) := do
  match ← adjacent g with
  | none => return none
  | some first =>
    if ← commaAhead then
      let items ← repeating (arrayRound g) #[first]
      return some (.array items.toList (← spanFrom first.span.start))
    else
      return some first

/-- What has been read behind the name of a command. -/
structure Arguments where
  elements : Array Element := #[]
  redirections : Array Redirection := #[]
  /-- A bare `--` came by, behind which nothing is a parameter. -/
  parametersEnded : Bool := false

/-- The argument that a token of its own calls for, if it does. -/
def argumentIf (g : Groups) (expected : Bool) : Parser (Option Expression) := do
  if expected then
    skipBlanks
    argument g
  else
    return none

/-- A redirection whose operator is ahead; one that merges streams takes no target. -/
def redirection (g : Groups) : Parser Redirection := do
  let t ← advance
  let target ← argumentIf g ('&' ∉ t.text.toList)
  return { operator := t.text, target, span := ← spanFrom t.start }

/-- A parameter that is ahead, with its argument if a colon joins one to it. -/
def parameter (g : Groups) : Parser Element := do
  let t ← advance
  let argument ← argumentIf g (t.kind = .parameter true)
  return .parameter t.parameterName argument (← spanFrom t.start)

def isParameter : TokenKind → Bool
  | .parameter _ => true
  | _ => false

theorem isParameter_iff {k : TokenKind} : isParameter k = true ↔ ∃ colon, k = .parameter colon := by
  cases k <;> simp [isParameter]

/-- Reads what comes next behind the name of a command. -/
def commandRound (g : Groups) (args : Arguments) : Parser (ForInStep Arguments) := do
  match (← get).rest with
  | [] => return .done args
  | t :: _ =>
    if t.kind.isTrivia then
      let _ ← advance
      return .yield args
    else if t.kind.isTerminator then
      return .done args
    else if t.kind = .redirection then
      return .yield { args with redirections := args.redirections.push (← redirection g) }
    else if isParameter t.kind ∧ !args.parametersEnded then
      return .yield { args with elements := args.elements.push (← parameter g) }
    else if t.kind = .word ∧ t.text = "--" ∧ !args.parametersEnded then
      let _ ← advance
      return .yield { args with parametersEnded := true }
    else
      match ← argument g with
      | some value => return .yield { args with elements := args.elements.push (.argument value) }
      | none => return .done args

/-- The call of the command that `head` names; the head has been passed. -/
def command (g : Groups) (start : Nat) (operator : Option CallOperator) (head : Expression) :
    Parser Invocation := do
  let args ← repeating (commandRound g) {}
  return {
    operator, head
    elements := args.elements.toList
    redirections := args.redirections.toList
    span := ← span start (max (← get).lastEnd head.span.stop) }

/-- Reads the next operand or operator of an expression. -/
def expressionRound (g : Groups) (parts : Array Expression) :
    Parser (ForInStep (Array Expression)) := do
  match (← get).rest with
  | [] => return .done parts
  | t :: _ =>
    if t.kind.isTrivia then
      let _ ← advance
      return .yield parts
    else if t.kind.isTerminator then
      return .done parts
    else if t.kind = .word ∧ !parts.isEmpty ∧ (Literal.assignmentLength? t.text).isSome then
      return .done parts
    else if t.kind = .word ∨ isParameter t.kind ∨ t.kind = .comma ∨ t.kind = .redirection then
      return .yield (parts.push (← advance).bareword)
    else
      match ← primary g with
      | some part => return .yield (parts.push part)
      | none => return .done parts

/-- An expression: operands and operators up to the end of the stage or to an assignment. -/
def expression (g : Groups) : Parser (Option Expression) := do
  let parts ← repeating (expressionRound g) #[]
  joined parts.toList

end Parse

end ScriptLint
