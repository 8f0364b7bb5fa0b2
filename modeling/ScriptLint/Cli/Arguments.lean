import ScriptLint.Rule.Registry

/-!
Command lines. Arguments are first told apart, each by its form and what stands behind it; the request
is then read from left to right, and the first argument that decides the outcome does.
-/

namespace ScriptLint.Cli

/-- How results are shown: to a reader, or as JSON. -/
inductive Format
  | pretty
  | json
  deriving DecidableEq, Repr

def Format.ofName? : String → Option Format
  | "pretty" => some pretty
  | "json" => some json
  | _ => none

/-- What to do. Scripts are named by a path, or by a hyphen for the standard input. -/
inductive Action
  | parse (script : String)
  | lint (script : String) (catalog : Option String) (selection : Selection)
  | rules (catalog : Option String)
  | explain (id : String)
  deriving DecidableEq, Repr

inductive Request
  | perform (format : Option Format) (action : Action)
  | help
  | version
  deriving DecidableEq, Repr

/-- The options that take a value. -/
inductive OptionName
  | output
  | catalog
  | includeRule
  | excludeRule
  deriving DecidableEq, Repr

def OptionName.ofName? : String → Option OptionName
  | "output" => some output
  | "catalog" => some catalog
  | "include-rule" => some includeRule
  | "exclude-rule" => some excludeRule
  | _ => none

/-- An argument, told apart by its form. -/
inductive Item
  | option (name : OptionName) (value : String)
  /-- `--`, behind which every argument is an operand. -/
  | separator
  | operand (text : String)
  | help
  | version
  /-- An option that nobody knows, or that lacks its value. -/
  | bad
  deriving DecidableEq, Repr

/-- Anything that starts with a hyphen, a lone hyphen left out. -/
def looksLikeOption (arg : String) : Bool :=
  arg.toList.head? = some '-' && arg ≠ "-"

/-- What a long option asks for, by what stands behind its two hyphens; without a value if it takes the
next argument. -/
def longOption (body : List Char) : Item ⊕ OptionName :=
  let name := String.ofList (body.takeWhile (· ≠ '='))
  match body.dropWhile (· ≠ '='), OptionName.ofName? name with
  | [], some option => .inr option
  | _ :: value, some option => .inl (.option option (String.ofList value))
  | [], none =>
    if name = "help" then .inl .help else if name = "version" then .inl .version else .inl .bad
  | _ :: _, none => .inl .bad

/-- What an argument is that stands before any separator. -/
def classify (arg : String) : Item ⊕ OptionName :=
  match arg.toList with
  | ['-', '-'] => .inl .separator
  | '-' :: '-' :: body => longOption body
  | ['-'] => .inl (.operand arg)
  | '-' :: 'h' :: _ => .inl .help
  | '-' :: 'V' :: _ => .inl .version
  | '-' :: _ => .inl .bad
  | _ => .inl (.operand arg)

def items : List String → List Item
  | [] => []
  | arg :: rest =>
    match classify arg with
    | .inl .separator => .separator :: rest.map .operand
    | .inl item => item :: items rest
    | .inr option =>
      match rest with
      | [] => [.bad]
      | value :: rest =>
        if looksLikeOption value then [.bad] else .option option value :: items rest

inductive Verb
  | parse
  | lint
  | rules
  | explain
  deriving DecidableEq, Repr

def Verb.ofName? : String → Option Verb
  | "parse" => some parse
  | "lint" => some lint
  | "rules" => some rules
  | "explain" => some explain
  | _ => none

/-- What has been given behind a verb. -/
structure Given where
  output : Option Format := none
  catalog : Option String := none
  selection : Selection := {}
  operand : Option String := none

/-- Adds an option, if the verb takes it and it has not been given before; rules may repeat. -/
def Given.addOption (verb : Verb) (g : Given) : OptionName → String → Option Given
  | .output, value => do
    if g.output.isSome then none
    return { g with output := some (← Format.ofName? value) }
  | .catalog, value =>
    if (verb = .lint ∨ verb = .rules) ∧ g.catalog.isNone then some { g with catalog := some value }
    else none
  | .includeRule, value =>
    if verb = .lint then
      some { g with selection.included := g.selection.included ++ [value] }
    else none
  | .excludeRule, value =>
    if verb = .lint then
      some { g with selection.excluded := g.selection.excluded ++ [value] }
    else none

def Given.addOperand (verb : Verb) (g : Given) (text : String) : Option Given :=
  if verb ≠ .rules ∧ g.operand.isNone then some { g with operand := some text } else none

def Given.action? (verb : Verb) (g : Given) : Option Action :=
  match verb with
  | .parse => g.operand.map .parse
  | .lint => g.operand.map fun script => .lint script g.catalog g.selection
  | .rules => some (.rules g.catalog)
  | .explain => g.operand.map .explain

/-- Reads what stands behind a verb; the output that is asked for there comes before the one asked for
in front of the verb. -/
def readVerb (verb : Verb) (output : Option Format) (g : Given) : List Item → Option Request
  | [] => do return .perform (g.output <|> output) (← g.action? verb)
  | .option name value :: rest => do readVerb verb output (← g.addOption verb name value) rest
  | .operand text :: rest => do readVerb verb output (← g.addOperand verb text) rest
  | .separator :: rest => readVerb verb output g rest
  | .help :: _ => some .help
  | .version :: _ | .bad :: _ => none

/-- What the help may be asked for by name. -/
def isHelpTopic (items : List Item) : Bool :=
  match items with
  | [] => true
  | [.operand text] => text = "help" || (Verb.ofName? text).isSome
  | _ => false

def readItems (output : Option Format) : List Item → Option Request
  | .option .output value :: rest => do
    if output.isSome then none
    readItems (some (← Format.ofName? value)) rest
  | .operand text :: rest =>
    if text = "help" then if isHelpTopic rest then some .help else none
    else do readVerb (← Verb.ofName? text) output {} rest
  | .help :: _ => some .help
  | .version :: _ => some .version
  | _ => none

/-- The request that a command line makes, if it makes sense. -/
def Request.ofArguments? (args : List String) : Option Request :=
  readItems none (items args)

end ScriptLint.Cli
