import ScriptLint.Syntax.Parse.Command
import ScriptLint.Text.Case

/-!
Pipelines and statements. What is malformed is reported and passed over, and the statements around it
are read all the same.
-/

namespace ScriptLint.Parse

open ScriptLint.Parser

/-- A stage that an operator starts: the operator is ahead, the command behind it. -/
def calledStage (g : Groups) (operator : CallOperator) : Parser (Option Stage) := do
  let t ← advance
  skipBlanks
  match ← primary g with
  | none => return none
  | some head => return some (.command (← command g t.start (some operator) head))

/-- A stage that starts with the name of a command. -/
def namedStage (g : Groups) : Parser (Option Stage) := do
  let t ← advance
  return some (.command (← command g t.start none t.bareword))

def expressionStage (g : Groups) : Parser (Option Stage) :=
  return (← expression g).map .expression

/-- A word that names no command: a number or an assignment. -/
def isOperand (text : String) : Bool :=
  Literal.isNumberLike text || (Literal.assignmentLength? text).isSome

/-- A lone point with a blank behind it. -/
def sourcing (t : Token) (rest : List Token) : Bool :=
  t.text = "." && rest.head?.any (·.kind = .whitespace)

/-- One stage of a pipeline, a command or an expression. -/
def stage (g : Groups) : Parser (Option Stage) := do
  skipBlanks
  match (← get).rest with
  | [] => return none
  | t :: rest =>
    if t.kind = .ampersand then
      calledStage g .call
    else if t.kind = .word ∧ sourcing t rest then
      calledStage g .dotSource
    else if t.kind = .word ∧ !isOperand t.text then
      namedStage g
    else
      expressionStage g

/-- Reads the stage behind the next bar. -/
def pipelineRound (g : Groups) (stages : Array Stage) : Parser (ForInStep (Array Stage)) := do
  skipBlanks
  match (← get).kind? with
  | some .comment =>
    let _ ← advance
    return .yield stages
  | some .pipe =>
    let _ ← advance
    skipSpacing
    match ← stage g with
    | some s => return .yield (stages.push s)
    | none =>
      report (.unexpectedToken "|") (.empty (← get).offset)
      return .done stages
  | _ => return .done stages

/-- The pipeline whose first stage has been read. -/
def pipelineFrom (g : Groups) (first : Stage) : Parser Pipeline := do
  let stages ← repeating (pipelineRound g) #[first]
  return {
    stages := stages.toList
    span := ← span first.span.start (max (← get).lastEnd first.span.start) }

def pipeline (g : Groups) : Parser (Option Pipeline) := do
  match ← stage g with
  | none => return none
  | some first => return some (← pipelineFrom g first)

/-- The value behind an assignment that ends at `stop`; it may be missing. -/
def assignedValue (g : Groups) (stop : Nat) : Parser Pipeline := do
  skipSpacing
  return (← pipeline g).getD ⟨[], .empty stop⟩

/-- Passes the operator of `n` bytes that the word ahead starts with, and nothing behind it. -/
def passOperator (n : Nat) : Parser Token := do
  if n < (← current).text.utf8ByteSize then
    cut n
    advance
  else
    advance

/-- The length in bytes of the operator ahead that assigns. -/
def assignmentAhead? (c : Cursor) : Option Nat :=
  match c.rest with
  | [] => none
  | t :: _ => if t.kind = .word then Literal.assignmentLength? t.text else none

/-- The assignment to a target that has been read, with an operator of `n` bytes ahead. -/
def assignment (g : Groups) (target : Expression) (n : Nat) : Parser Statement := do
  let operator ← passOperator n
  let value ← assignedValue g operator.stop
  return .assignment target operator.text value
    (← span target.span.start (max value.span.stop operator.stop))

/-- A pipeline, or an assignment to its first stage. -/
def pipelineStatement (g : Groups) : Parser (Option Statement) := do
  match ← stage g with
  | none => return none
  | some (.command i) => return some (.pipeline (← pipelineFrom g (.command i)))
  | some (.expression target) =>
    skipBlanks
    match assignmentAhead? (← get) with
    | some n => return some (← assignment g target n)
    | none => return some (.pipeline (← pipelineFrom g (.expression target)))

/-- The keywords of statements made of clauses. -/
def compoundKeywords : List String :=
  ["if", "while", "for", "foreach", "switch", "try", "do", "trap", "begin", "process", "end",
    "dynamicparam", "clean"]

def flowKeywords : List String := ["return", "throw", "exit", "break", "continue"]

/-- The keywords of the clauses that may follow a first one. -/
def continuations : String → List String
  | "if" => ["elseif", "else"]
  | "try" => ["catch", "finally"]
  | "do" => ["while", "until"]
  | _ => []

/-- What may stand behind the keyword of a clause. -/
def opensClause : TokenKind → Bool
  | .openParen | .openBrace | .parameter _ => true
  | _ => false

/-- Reads one of the types and options behind the keyword of a clause. -/
def clauseTypesRound (types : Array String) : Parser (ForInStep (Array String)) := do
  skipSpacing
  match (← get).kind? with
  | some .typeLiteral => return .yield (types.push (← advance).text)
  | some .comma | some (.parameter _) =>
    let _ ← advance
    return .yield types
  | _ => return .done types

/-- The block ahead, if there is one. -/
def block? (g : Groups) : Parser (Option Block) := do
  if (← get).kind? = some .openBrace then return some (← g.block) else return none

/-- The parenthesis ahead, if there is one. -/
def parenthesis? (g : Groups) : Parser (Option Expression) := do
  if (← get).kind? = some .openParen then return some (← g.subexpression) else return none

/-- Passes over to the brace behind blanks, comments and line ends, if there is one. -/
def toBrace (c : Cursor) : Cursor :=
  if c.skipSpacing.kind? = some .openBrace then c.skipSpacing else c

/-- A clause whose keyword is ahead. -/
def clause (g : Groups) : Parser Clause := do
  let t ← advance
  let types ← repeating clauseTypesRound #[]
  let condition ← parenthesis? g
  modify fun c => if condition.isSome then toBrace c else c
  let body ← block? g
  return { keyword := Text.fold t.text, types := types.toList, condition, body }

/-- One of the keywords is ahead. -/
def atKeyword (keywords : List String) (c : Cursor) : Bool :=
  c.rest.head?.any fun t => t.kind = .word && Text.fold t.text ∈ keywords

/-- Reads the clause that comes next, if it belongs to the statement. -/
def compoundRound (g : Groups) (keywords : List String) (clauses : Array Clause) :
    Parser (ForInStep (Array Clause)) := do
  let c ← get
  if atKeyword keywords c.skipSpacing then
    set c.skipSpacing
    return .yield (clauses.push (← clause g))
  else
    return .done clauses

/-- A statement of clauses whose first keyword is ahead. -/
def compound (g : Groups) (keyword : String) : Parser Statement := do
  let t ← current
  let first ← clause g
  let clauses ← repeating (compoundRound g (continuations keyword)) #[first]
  return .compound keyword clauses.toList (← span t.start (max (← get).lastEnd t.start))

/-- The body of a function; one that is missing is reported. -/
def functionBody (g : Groups) : Parser Block := do
  match ← block? g with
  | some body => return body
  | none =>
    let c ← get
    report (.unexpectedToken ((c.rest.head?.map Token.text).getD "end of input")) (.empty c.offset)
    return ⟨[], .empty c.offset⟩

/-- A function whose keyword is ahead, with its name behind it. -/
def function (g : Groups) (keyword : String) : Parser Statement := do
  let t ← advance
  skipSpacing
  let name ← advance
  skipSpacing
  let params ← parenthesis? g
  skipSpacing
  let body ← functionBody g
  return .function keyword name.text params body (← span t.start body.span.stop)

/-- A statement that leaves a block, whose keyword is ahead. -/
def flow (g : Groups) (keyword : String) : Parser Statement := do
  let t ← advance
  skipBlanks
  let value ← pipeline g
  return .flow keyword value (← span t.start ((value.map (·.span.stop)).getD t.stop))

/-- The form of a statement, with its keyword in lower case. -/
inductive Form
  | function (keyword : String)
  | compound (keyword : String)
  | flow (keyword : String)
  | pipeline
  deriving DecidableEq, Repr

/-- The form of the statement ahead, by its first word and by the kind of what comes next. -/
def form (c : Cursor) : Form :=
  match c.rest with
  | [] => .pipeline
  | t :: rest =>
    let keyword := Text.fold t.text
    let next := (rest.dropWhile (·.kind.isSpacing)).head?.map Token.kind
    if t.kind ≠ .word then .pipeline
    else if (keyword = "function" ∨ keyword = "filter") ∧ next = some .word then .function keyword
    else if keyword ∈ compoundKeywords ∧ next.any opensClause then .compound keyword
    else if keyword ∈ flowKeywords then .flow keyword
    else .pipeline

def statement (g : Groups) : Parser (Option Statement) := do
  match form (← get) with
  | .function keyword => return some (← function g keyword)
  | .compound keyword => return some (← compound g keyword)
  | .flow keyword => return some (← flow g keyword)
  | .pipeline => pipelineStatement g

/-- The token that a closer is read from. -/
def closerKind : Closer → TokenKind
  | .brace => .closeBrace
  | .paren => .closeParen

/-- The tokens between two statements. -/
def separates : TokenKind → Bool
  | .whitespace | .newline | .semicolon | .chain => true
  | _ => false

/-- Reports the token ahead if it still is the one at `start`. -/
def reportIfAt (start : Nat) : Parser Unit := do
  if (← get).offset = start then reportUnexpected else pure ()

/-- Reads the next statement. A token that starts none is reported and passed. -/
def statementsRound (g : Groups) (closer : Option Closer) (statements : Array Statement) :
    Parser (ForInStep (Array Statement)) := do
  skip separates
  match (← get).rest with
  | [] => return .done statements
  | t :: _ =>
    if t.kind = .comment then
      let t ← advance
      return .yield (statements.push (.trivia t.text t.span))
    else if closer.map closerKind = some t.kind then
      return .done statements
    else
      let s ← statement g
      reportIfAt t.start
      return .yield (statements ++ s.toArray)

/-- Statements up to a closer, or to the end of the script. -/
def statements (g : Groups) (closer : Option Closer) : Parser (List Statement) := do
  let statements ← repeating (statementsRound g closer) #[]
  return statements.toList

end ScriptLint.Parse
