import ScriptLint.Syntax.Encode

/-!
Syntax trees read back from JSON. Expressions and statements hold each other, so they are read by the
two functions of `Decoders`, one level of the JSON value after another.
-/

namespace ScriptLint

/-- How the nodes are read that lie deeper in a value. -/
structure Decoders where
  expression : Json → Option Expression
  statement : Json → Option Statement

namespace Decode

/-- The case that a tag names, in a nested value also by its number. -/
def case? (names : List String) (nested : Bool) : Json → Option String
  | .text name => if name ∈ names then some name else none
  | .nat i => if nested then names[i]? else none
  | _ => none

def operator? (j : Json) : Option CallOperator := do
  let name ←
    match j with
    | .obj [⟨some name, .obj []⟩] => some name
    | _ => Json.caseName? j
  CallOperator.ofKey? name

def span? (fields : Json.Fields) : Option Span := fields.get? "span" Span.ofJson?

def block? (statement : Json → Option Statement) (j : Json) : Option Block := do
  let fields ← Json.fields? ["statements", "span"] 2 j
  return { statements := ← fields.get? "statements" (Json.list? statement), span := ← span? fields }

def redirection? (d : Decoders) (j : Json) : Option Redirection := do
  let fields ← Json.fields? ["operator", "target", "span"] 3 j
  return {
    operator := ← fields.get? "operator" Json.text?
    target := ← fields.getOption? "target" d.expression
    span := ← span? fields }

def element? (d : Decoders) (j : Json) : Option Element := do
  let (tag, body) ← Json.tagged? j
  match ← case? ["Parameter", "Argument"] true tag with
  | "Parameter" =>
    let fields ← Json.fields? ["name", "argument", "span"] 3 body
    return .parameter (← fields.get? "name" Json.text?) (← fields.getOption? "argument" d.expression)
      (← span? fields)
  | _ =>
    let fields ← Json.fields? ["value"] 1 body
    return .argument (← fields.get? "value" d.expression)

def invocation? (d : Decoders) (j : Json) : Option Invocation := do
  let fields ← Json.fields? ["operator", "head", "elements", "redirections", "span"] 5 j
  return {
    operator := ← fields.getOption? "operator" operator?
    head := ← fields.get? "head" d.expression
    elements := ← fields.get? "elements" (Json.list? (element? d))
    redirections := ← fields.getOr? "redirections" [] (Json.list? (redirection? d))
    span := ← span? fields }

def stage? (d : Decoders) (j : Json) : Option Stage := do
  let (tag, body) ← Json.tagged? j
  match ← case? ["Command", "Expression"] true tag with
  | "Command" => return .command (← invocation? d body)
  | _ =>
    let fields ← Json.fields? ["expression"] 1 body
    return .expression (← fields.get? "expression" d.expression)

def pipeline? (d : Decoders) (j : Json) : Option Pipeline := do
  let fields ← Json.fields? ["elements", "span"] 2 j
  return { stages := ← fields.get? "elements" (Json.list? (stage? d)), span := ← span? fields }

def clause? (d : Decoders) (j : Json) : Option Clause := do
  let fields ← Json.fields? ["keyword", "types", "condition", "body"] 4 j
  return {
    keyword := ← fields.get? "keyword" Json.text?
    types := ← fields.getOr? "types" [] (Json.list? Json.text?)
    condition := ← fields.getOption? "condition" d.expression
    body := ← fields.getOption? "body" (block? d.statement) }

def keyValue? (d : Decoders) (j : Json) : Option Entry := do
  let fields ← Json.fields? ["key", "value"] 2 j
  return { key := ← fields.get? "key" d.expression, value := ← fields.get? "value" (pipeline? d) }

def statementCases : List String :=
  ["Pipeline", "Assignment", "Function", "Compound", "Flow", "Trivia"]

def statement? (d : Decoders) (nested : Bool) (j : Json) : Option Statement := do
  let (tag, body) ← Json.tagged? j
  match ← case? statementCases nested tag with
  | "Pipeline" => return .pipeline (← pipeline? d body)
  | "Assignment" =>
    let fields ← Json.fields? ["target", "operator", "value", "span"] 4 body
    return .assignment (← fields.get? "target" d.expression) (← fields.get? "operator" Json.text?)
      (← fields.get? "value" (pipeline? d)) (← span? fields)
  | "Function" =>
    let fields ← Json.fields? ["keyword", "name", "params", "body", "span"] 5 body
    return .function (← fields.get? "keyword" Json.text?) (← fields.get? "name" Json.text?)
      (← fields.getOption? "params" d.expression) (← fields.get? "body" (block? d.statement))
      (← span? fields)
  | "Compound" =>
    let fields ← Json.fields? ["keyword", "clauses", "span"] 3 body
    return .compound (← fields.get? "keyword" Json.text?)
      (← fields.get? "clauses" (Json.list? (clause? d))) (← span? fields)
  | "Flow" =>
    let fields ← Json.fields? ["keyword", "value", "span"] 3 body
    return .flow (← fields.get? "keyword" Json.text?) (← fields.getOption? "value" (pipeline? d))
      (← span? fields)
  | _ =>
    let fields ← Json.fields? ["text", "span"] 2 body
    return .trivia (← fields.get? "text" Json.text?) (← span? fields)

def expressionCases : List String :=
  ["Bareword", "StringLiteral", "Variable", "TypeLiteral", "ScriptBlock", "SubExpression",
    "Hashtable", "Array", "Sequence"]

def expression? (d : Decoders) (j : Json) : Option Expression := do
  let (tag, body) ← Json.tagged? j
  match ← case? expressionCases true tag with
  | "Bareword" =>
    let fields ← Json.fields? ["text", "span"] 2 body
    return .bareword (← fields.get? "text" Json.text?) (← span? fields)
  | "StringLiteral" =>
    let fields ← Json.fields? ["value", "expandable", "span"] 3 body
    return .stringLiteral (← fields.get? "value" Json.text?)
      (← fields.get? "expandable" Json.bool?) (← span? fields)
  | "Variable" =>
    let fields ← Json.fields? ["name", "splatted", "span"] 3 body
    return .variable (← fields.get? "name" Json.text?) (← fields.get? "splatted" Json.bool?)
      (← span? fields)
  | "TypeLiteral" =>
    let fields ← Json.fields? ["text", "span"] 2 body
    return .typeLiteral (← fields.get? "text" Json.text?) (← span? fields)
  | "ScriptBlock" =>
    let fields ← Json.fields? ["block"] 1 body
    return .scriptBlock (← fields.get? "block" (block? d.statement))
  | "SubExpression" =>
    let fields ← Json.fields? ["opener", "statements", "span"] 3 body
    return .subexpression (← fields.get? "opener" Json.text?)
      (← fields.get? "statements" (Json.list? d.statement)) (← span? fields)
  | "Hashtable" =>
    let fields ← Json.fields? ["entries", "span"] 2 body
    return .hashtable (← fields.get? "entries" (Json.list? (keyValue? d))) (← span? fields)
  | "Array" =>
    let fields ← Json.fields? ["items", "span"] 2 body
    return .array (← fields.get? "items" (Json.list? d.expression)) (← span? fields)
  | _ =>
    let fields ← Json.fields? ["parts", "span"] 2 body
    return .sequence (← fields.get? "parts" (Json.list? d.expression)) (← span? fields)

/-- How nodes are read from values that nest at most `depth` levels deep. -/
def decoders : (depth : Nat) → Decoders
  | 0 => { expression := fun _ => none, statement := fun _ => none }
  | depth + 1 =>
    let inner := decoders depth
    { expression := expression? inner, statement := statement? inner true }

end Decode

/-- The tree that a value describes. -/
def Tree.ofJson? (j : Json) : Option Tree := do
  let fields ← Json.fields? ["body"] 1 j
  let statement := Decode.statement? (Decode.decoders j.depth) false
  return { body := ← fields.get? "body" (Decode.block? statement) }

end ScriptLint
