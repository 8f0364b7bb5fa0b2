import ScriptLint.Syntax.Tree

/-!
The command calls of a tree, at any depth, in the order of the script: a call stands before the calls
in its head, its arguments and the targets of its redirections.
-/

namespace ScriptLint

namespace Calls

mutual

def ofBlock : Block → List Invocation
  | ⟨statements, _⟩ => ofStatements statements

def ofBlock? : Option Block → List Invocation
  | none => []
  | some b => ofBlock b

def ofStatement : Statement → List Invocation
  | .pipeline p => ofPipeline p
  | .assignment target _ value _ => ofExpression target ++ ofPipeline value
  | .function _ _ params body _ => ofExpression? params ++ ofBlock body
  | .compound _ clauses _ => ofClauses clauses
  | .flow _ value _ => ofPipeline? value
  | .trivia _ _ => []

def ofStatements : List Statement → List Invocation
  | [] => []
  | s :: rest => ofStatement s ++ ofStatements rest

def ofClause : Clause → List Invocation
  | ⟨_, _, condition, body⟩ => ofExpression? condition ++ ofBlock? body

def ofClauses : List Clause → List Invocation
  | [] => []
  | c :: rest => ofClause c ++ ofClauses rest

def ofPipeline : Pipeline → List Invocation
  | ⟨stages, _⟩ => ofStages stages

def ofPipeline? : Option Pipeline → List Invocation
  | none => []
  | some p => ofPipeline p

def ofStage : Stage → List Invocation
  | .command i => ofInvocation i
  | .expression e => ofExpression e

def ofStages : List Stage → List Invocation
  | [] => []
  | s :: rest => ofStage s ++ ofStages rest

def ofInvocation : Invocation → List Invocation
  | ⟨operator, head, elements, redirections, span⟩ =>
    ⟨operator, head, elements, redirections, span⟩ ::
      (ofExpression head ++ ofElements elements ++ ofRedirections redirections)

def ofElement : Element → List Invocation
  | .parameter _ argument _ => ofExpression? argument
  | .argument value => ofExpression value

def ofElements : List Element → List Invocation
  | [] => []
  | e :: rest => ofElement e ++ ofElements rest

def ofRedirection : Redirection → List Invocation
  | ⟨_, target, _⟩ => ofExpression? target

def ofRedirections : List Redirection → List Invocation
  | [] => []
  | r :: rest => ofRedirection r ++ ofRedirections rest

def ofEntry : Entry → List Invocation
  | ⟨key, value⟩ => ofExpression key ++ ofPipeline value

def ofEntries : List Entry → List Invocation
  | [] => []
  | e :: rest => ofEntry e ++ ofEntries rest

def ofExpression : Expression → List Invocation
  | .scriptBlock block => ofBlock block
  | .subexpression _ statements _ => ofStatements statements
  | .hashtable entries _ => ofEntries entries
  | .array items _ => ofExpressions items
  | .sequence parts _ => ofExpressions parts
  | .bareword _ _ | .stringLiteral _ _ _ | .variable _ _ _ | .typeLiteral _ _ => []

def ofExpression? : Option Expression → List Invocation
  | none => []
  | some e => ofExpression e

def ofExpressions : List Expression → List Invocation
  | [] => []
  | e :: rest => ofExpression e ++ ofExpressions rest

end

end Calls

namespace Tree

/-- All calls, also of commands that are named only at run time. -/
def calls (t : Tree) : List Invocation := Calls.ofBlock t.body

/-- The calls of commands that the script names. -/
def invocations (t : Tree) : List Invocation := t.calls.filter (·.commandName?.isSome)

/-- The commands in the pipelines at the top of the script, nothing nested among them. -/
def topCommands (t : Tree) : List Invocation :=
  t.body.statements.flatMap fun
    | .pipeline p => p.stages.filterMap fun
      | .command i => some i
      | .expression _ => none
    | _ => []

end Tree

end ScriptLint
