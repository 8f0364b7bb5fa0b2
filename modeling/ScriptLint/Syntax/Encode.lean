import ScriptLint.Diagnostic.Json
import ScriptLint.Syntax.Parse

/-!
Syntax trees as JSON. The fields of a node stand in the order of its declaration, behind the name of
its case where there are several; what a node does not have is left out.
-/

namespace ScriptLint

namespace CallOperator

def key : CallOperator → String
  | call => "call"
  | dotSource => "dotsource"

def ofKey? : String → Option CallOperator
  | "call" => some call
  | "dotsource" => some dotSource
  | _ => none

@[simp] theorem ofKey?_key (o : CallOperator) : ofKey? o.key = some o := by
  cases o <;> rfl

end CallOperator

namespace Encode

def kind (name : String) : String × Json := ("kind", .text name)

def spanField (s : Span) : String × Json := ("span", s.toJson)

mutual

def block : Block → Json
  | ⟨body, span⟩ => .ofFields [("statements", .arr (statements body)), spanField span]

def block? : Option Block → Option Json
  | none => none
  | some b => some (block b)

def statement : Statement → Json
  | .pipeline ⟨items, span⟩ =>
    .ofFields [kind "Pipeline", ("elements", .arr (stages items)), spanField span]
  | .assignment target operator value span =>
    .ofFields [kind "Assignment", ("target", expression target), ("operator", .text operator),
      ("value", pipeline value), spanField span]
  | .function keyword name params body span =>
    .ofFields ([kind "Function", ("keyword", .text keyword), ("name", .text name)] ++
      Json.field? "params" (expression? params) ++ [("body", block body), spanField span])
  | .compound keyword items span =>
    .ofFields [kind "Compound", ("keyword", .text keyword), ("clauses", .arr (clauses items)),
      spanField span]
  | .flow keyword value span =>
    .ofFields ([kind "Flow", ("keyword", .text keyword)] ++ Json.field? "value" (pipeline? value) ++
      [spanField span])
  | .trivia text span => .ofFields [kind "Trivia", ("text", .text text), spanField span]

def statements : List Statement → List Json
  | [] => []
  | s :: rest => statement s :: statements rest

def clause : Clause → Json
  | ⟨keyword, types, condition, body⟩ =>
    .ofFields ([("keyword", .text keyword)] ++ Json.fieldUnlessNil "types" (types.map .text) ++
      Json.field? "condition" (expression? condition) ++ Json.field? "body" (block? body))

def clauses : List Clause → List Json
  | [] => []
  | c :: rest => clause c :: clauses rest

def pipeline : Pipeline → Json
  | ⟨items, span⟩ => .ofFields [("elements", .arr (stages items)), spanField span]

def pipeline? : Option Pipeline → Option Json
  | none => none
  | some p => some (pipeline p)

def stage : Stage → Json
  | .command ⟨operator, head, items, streams, span⟩ =>
    .ofFields ([kind "Command"] ++ Json.field? "operator" (operator.map fun o => .text o.key) ++
      [("head", expression head), ("elements", .arr (elements items))] ++
      Json.fieldUnlessNil "redirections" (redirections streams) ++ [spanField span])
  | .expression e => .ofFields [kind "Expression", ("expression", expression e)]

def stages : List Stage → List Json
  | [] => []
  | s :: rest => stage s :: stages rest

def element : Element → Json
  | .parameter name argument span =>
    .ofFields ([kind "Parameter", ("name", .text name)] ++
      Json.field? "argument" (expression? argument) ++ [spanField span])
  | .argument value => .ofFields [kind "Argument", ("value", expression value)]

def elements : List Element → List Json
  | [] => []
  | e :: rest => element e :: elements rest

def redirection : Redirection → Json
  | ⟨operator, target, span⟩ =>
    .ofFields ([("operator", .text operator)] ++ Json.field? "target" (expression? target) ++
      [spanField span])

def redirections : List Redirection → List Json
  | [] => []
  | r :: rest => redirection r :: redirections rest

def entry : Entry → Json
  | ⟨key, value⟩ => .ofFields [("key", expression key), ("value", pipeline value)]

def entries : List Entry → List Json
  | [] => []
  | e :: rest => entry e :: entries rest

def expression : Expression → Json
  | .bareword text span => .ofFields [kind "Bareword", ("text", .text text), spanField span]
  | .stringLiteral value expandable span =>
    .ofFields [kind "StringLiteral", ("value", .text value), ("expandable", .bool expandable),
      spanField span]
  | .variable name splatted span =>
    .ofFields [kind "Variable", ("name", .text name), ("splatted", .bool splatted), spanField span]
  | .typeLiteral text span => .ofFields [kind "TypeLiteral", ("text", .text text), spanField span]
  | .scriptBlock b => .ofFields [kind "ScriptBlock", ("block", block b)]
  | .subexpression opener body span =>
    .ofFields [kind "SubExpression", ("opener", .text opener), ("statements", .arr (statements body)),
      spanField span]
  | .hashtable items span =>
    .ofFields [kind "Hashtable", ("entries", .arr (entries items)), spanField span]
  | .array items span => .ofFields [kind "Array", ("items", .arr (expressions items)), spanField span]
  | .sequence parts span =>
    .ofFields [kind "Sequence", ("parts", .arr (expressions parts)), spanField span]

def expression? : Option Expression → Option Json
  | none => none
  | some e => some (expression e)

def expressions : List Expression → List Json
  | [] => []
  | e :: rest => expression e :: expressions rest

end

end Encode

def Tree.toJson (t : Tree) : Json := .ofFields [("body", Encode.block t.body)]

/-- A parse as JSON: the tree and the diagnostics. -/
def Parsed.toJson (p : Parsed) : Json :=
  .ofFields [("ast", p.tree.toJson), ("diagnostics", .arr (p.diagnostics.map Diagnostic.toJson))]

end ScriptLint
