import ScriptLint.Source.Span

/-!
Syntax trees. Expressions are kept as flat runs of operands and operators, which is all that a check of
command calls has to know about them.
-/

namespace ScriptLint

/-- What stands before a command to call it: `&` or `.`. -/
inductive CallOperator
  | call
  | dotSource
  deriving DecidableEq, Repr

mutual

/-- `{ ... }`, or all of a script. -/
structure Block where
  statements : List Statement
  span : Span

inductive Statement where
  | pipeline (pipeline : Pipeline)
  /-- `target = value`, also with `+=` and the like. -/
  | assignment (target : Expression) (operator : String) (value : Pipeline) (span : Span)
  /-- `function name (params) { ... }`, or `filter`. -/
  | function (keyword name : String) (params : Option Expression) (body : Block) (span : Span)
  /-- `if`, `while`, `try` and the like with the clauses that follow them. -/
  | compound (keyword : String) (clauses : List Clause) (span : Span)
  /-- `return`, `throw`, `exit`, `break` or `continue`. -/
  | flow (keyword : String) (value : Option Pipeline) (span : Span)
  /-- A comment that stands where a statement may. -/
  | trivia (text : String) (span : Span)

/-- One clause of a compound statement, such as `elseif (condition) { ... }`. -/
structure Clause where
  keyword : String
  /-- The types that a `catch` names. -/
  types : List String
  condition : Option Expression
  body : Option Block

/-- `a | b | c` -/
structure Pipeline where
  stages : List Stage
  span : Span

inductive Stage where
  | command (invocation : Invocation)
  | expression (expression : Expression)

/-- The call of a command. -/
structure Invocation where
  operator : Option CallOperator
  /-- The expression that names the command. -/
  head : Expression
  elements : List Element
  redirections : List Redirection
  span : Span

inductive Element where
  /-- `-name` or `-name:argument`; a value behind a blank is an element of its own. -/
  | parameter (name : String) (argument : Option Expression) (span : Span)
  | argument (value : Expression)

structure Redirection where
  operator : String
  /-- Where the stream goes; merges such as `2>&1` have no target. -/
  target : Option Expression
  span : Span

/-- `key = value` in a hashtable. -/
structure Entry where
  key : Expression
  value : Pipeline

inductive Expression where
  | bareword (text : String) (span : Span)
  /-- A quoted string; `expandable` when its value depends on variables. -/
  | stringLiteral (value : String) (expandable : Bool) (span : Span)
  | variable (name : String) (splatted : Bool) (span : Span)
  | typeLiteral (text : String) (span : Span)
  | scriptBlock (block : Block)
  /-- `( ... )`, `$( ... )` or `@( ... )`, by its opener. -/
  | subexpression (opener : String) (statements : List Statement) (span : Span)
  | hashtable (entries : List Entry) (span : Span)
  /-- `a, b, c` -/
  | array (items : List Expression) (span : Span)
  /-- Parts that touch, or that operators join. -/
  | sequence (parts : List Expression) (span : Span)

end

/-- The tree of a whole script. -/
structure Tree where
  body : Block

instance : Inhabited Block := ⟨⟨[], default⟩⟩
instance : Inhabited Expression := ⟨.bareword "" default⟩

namespace Expression

def span : Expression → Span
  | .scriptBlock block => block.span
  | .bareword _ span | .stringLiteral _ _ span | .variable _ _ span | .typeLiteral _ span
  | .subexpression _ _ span | .hashtable _ span | .array _ span | .sequence _ span => span

end Expression

namespace Statement

def span : Statement → Span
  | .pipeline p => p.span
  | .assignment _ _ _ span | .function _ _ _ _ span | .compound _ _ span | .flow _ _ span
  | .trivia _ span => span

end Statement

namespace Stage

def span : Stage → Span
  | .command i => i.span
  | .expression e => e.span

end Stage

namespace Element

def span : Element → Span
  | .parameter _ _ span => span
  | .argument value => value.span

end Element

namespace Invocation

/-- The name of the command if the script fixes it; a head computed at run time has none. -/
def commandName? (i : Invocation) : Option String :=
  match i.head with
  | .bareword text _ => some text
  | .stringLiteral value false _ => some value
  | _ => none

end Invocation

end ScriptLint
