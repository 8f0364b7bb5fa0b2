import ScriptLint.Catalog.Json
import ScriptLint.Catalog.Standard
import ScriptLint.Cli.Arguments
import ScriptLint.Cli.FileTree
import ScriptLint.Json.Printer
import ScriptLint.Lint
import ScriptLint.Source.LineIndex
import ScriptLint.Syntax.Encode

/-!
Runs of the command line: what is printed and how a run ends, as a function of its arguments, its
standard input and the files that it can read.
-/

namespace ScriptLint.Cli

structure Environment where
  stdin : Except ReadFault String
  file : String → Except ReadFault String

structure Output where
  code : Nat
  stdout : String := ""
  stderr : String := ""
  deriving DecidableEq, Repr

/-- Why a run failed, and what was behind it. -/
structure Failure where
  message : String
  cause : Option String := none
  deriving DecidableEq, Repr

namespace Failure

/-- The failure on one line. -/
def oneLine (f : Failure) : String :=
  match f.cause with
  | none => f.message
  | some cause => f.message ++ ": " ++ cause

/-- A text with every line indented. -/
def indent (text : String) : String :=
  String.ofList (text.toList.flatMap fun c =>
    if c = '\n' then ['\n', ' ', ' ', ' ', ' '] else [c])

/-- The failure as a report of several lines. -/
def report (f : Failure) : String :=
  let cause :=
    match f.cause with
    | none => ""
    | some cause => "\n\nCaused by:\n    " ++ indent cause
  "Error: " ++ f.message ++ cause ++ "\n"

def toJson (f : Failure) : Json :=
  .ofFields [("success", .bool false), ("error", .text "command_failed"),
    ("message", .text f.oneLine)]

end Failure

/-- A script, and the name to report it under. -/
structure Script where
  source : String
  name : String

def readScript (env : Environment) (script : String) : Except Failure Script :=
  if script = "-" then
    match env.stdin with
    | .ok source => .ok ⟨source, "<stdin>"⟩
    | .error e => .error ⟨"failed to read script from stdin", some e.message⟩
  else
    match env.file script with
    | .ok source => .ok ⟨source, script⟩
    | .error e => .error ⟨"failed to read script '" ++ script ++ "'", some e.message⟩

/-- The catalog at a path; without a path the standard one. -/
def loadCatalog (env : Environment) : Option String → Except Failure Catalog
  | none =>
    match Catalog.ofDocument Standard.document with
    | .ok c => .ok c
    | .error e => .error ⟨"embedded catalog is invalid", some e.message⟩
  | some path =>
    match env.file path with
    | .error e => .error ⟨"failed to read catalog file '" ++ path ++ "'", some e.message⟩
    | .ok text =>
      match Catalog.ofText text with
      | .ok c => .ok c
      | .error e => .error ⟨"failed to load catalog file '" ++ path ++ "'", some e.message⟩

/-- A diagnostic with the line and the column of its start, both counted from one. -/
def located (index : LineIndex) (d : Diagnostic) : Json :=
  let position :=
    match d.span with
    | none => []
    | some span =>
      let p := index.position span.start
      [("line", .nat (p.line + 1)), ("column", .nat (p.column + 1))]
  .ofFields (d.toFields ++ position)

def locatedAll (source : String) (ds : List Diagnostic) : Json :=
  .arr (ds.map (located (.ofText source)))

/-- How many diagnostics there are of a severity; nothing if there is none. -/
def countOf (ds : List Diagnostic) (severity : Severity) : Option String :=
  let n := ds.countP (·.severity = severity)
  let label :=
    match severity with
    | .parseError => "parse error"
    | .error => "error"
    | .warning => "warning"
    | .information => "info"
  let plural := if n = 1 ∨ severity = .information then "" else "s"
  if n = 0 then none else some (toString n ++ " " ++ label ++ plural)

/-- The counts of all severities on a line, if there is anything to count. -/
def summary (ds : List Diagnostic) : String :=
  match [Severity.parseError, .error, .warning, .information].filterMap (countOf ds) with
  | [] => ""
  | counts => String.intercalate ", " counts ++ "\n"

/-- A run fails if a diagnostic does. -/
def exitCode (ds : List Diagnostic) : Nat :=
  if ds.any (·.severity.isFailure) then 1 else 0

def printed (j : Json) : String := j.pretty ++ "\n"

def runParse (env : Environment) (format : Format) (script : String) : Except Failure Output := do
  let input ← readScript env script
  let parsed := parse input.source
  let ds := parsed.diagnostics
  match format with
  | .json =>
    return {
      code := exitCode ds
      stdout := printed (.ofFields [("ast", parsed.tree.toJson),
        ("diagnostics", locatedAll input.source ds)]) }
  | .pretty =>
    return { code := exitCode ds, stdout := printed parsed.tree.toJson, stderr := summary ds }

def runLint (env : Environment) (format : Format) (script : String) (catalog : Option String)
    (selection : Selection) : Except Failure Output := do
  let input ← readScript env script
  let c ← loadCatalog env catalog
  match lintWith input.source (.builtin c.provider) selection input.name with
  | .error e => throw { message := e.message }
  | .ok result =>
    match format with
    | .json =>
      return {
        code := exitCode result.issues
        stdout := printed (.ofFields [("ok", .bool result.ok),
          ("issues", locatedAll input.source result.issues)]) }
    | .pretty =>
      return {
        code := exitCode result.issues
        stderr := summary result.issues ++ if result.ok then "lint ok\n" else "" }

def ruleJson (r : Rule) : Json :=
  .ofFields [("name", .text r.name), ("common_name", .text r.commonName),
    ("description", .text r.description), ("source_type", .text r.sourceType.key),
    ("source_name", .text r.sourceName)]

/-- A rule on two lines. -/
def ruleText (r : Rule) : String :=
  r.name ++ " (" ++ r.commonName ++ ", " ++ r.sourceType.key ++ ": " ++ r.sourceName ++ ")\n    " ++
    r.description ++ "\n"

def runRules (env : Environment) (format : Format) (catalog : Option String) :
    Except Failure Output := do
  let c ← loadCatalog env catalog
  let rules := (Registry.builtin c.provider).rules
  match format with
  | .json => return { code := 0, stdout := printed (.arr (rules.map ruleJson)) }
  | .pretty => return { code := 0, stdout := String.join (rules.map ruleText) }

def explanationJson (id : String) : Option Identity → Json
  | none => .ofFields [("id", .text id), ("explanation", .null)]
  | some i =>
    .ofFields [("id", .text id), ("explanation", .text i.description),
      ("common_name", .text i.commonName)]

def explanationText (id : String) : Option Identity → String
  | none => id ++ ": (no explanation available)\n"
  | some i => id ++ " (" ++ i.commonName ++ "): " ++ i.description ++ "\n"

def runExplain (format : Format) (id : String) : Output :=
  let identity := (Check.ofId? id).map Check.identity
  match format with
  | .json => { code := 0, stdout := printed (explanationJson id identity) }
  | .pretty => { code := 0, stdout := explanationText id identity }

def perform (env : Environment) (format : Format) : Action → Except Failure Output
  | .parse script => runParse env format script
  | .lint script catalog selection => runLint env format script catalog selection
  | .rules catalog => runRules env format catalog
  | .explain id => .ok (runExplain format id)

/-- A failure is told on the standard output in JSON, so that it stays a single value. -/
def failed (f : Failure) : Format → Output
  | .json => { code := 1, stdout := printed f.toJson }
  | .pretty => { code := 1, stderr := f.report }

def versionText : String := "cmdlint 0.1.0\n"

def usage : String :=
  "Check PowerShell scripts for cmdlet calls that omit mandatory parameters\n\n" ++
    "Usage: cmdlint [--output pretty|json] <COMMAND>\n\n" ++
    "Commands:\n" ++
    "  parse FILE    Parse a script and print its syntax tree\n" ++
    "  lint FILE     Parse a script and run the analysis rules over it\n" ++
    "  rules         List the registered rules\n" ++
    "  explain ID    Explain a rule or diagnostic ID\n"

/-- The files that a request may read. -/
def Request.files : Request → List String
  | .perform _ (.parse script) => [script]
  | .perform _ (.lint script catalog _) => script :: catalog.toList
  | .perform _ (.rules catalog) => catalog.toList
  | .perform _ (.explain _) | .help | .version => []

/-- A run of the command line; `fallback` is the format when none is asked for. -/
def run (fallback : Format) (args : List String) (env : Environment) : Output :=
  match Request.ofArguments? args with
  | none => { code := 2, stderr := usage }
  | some .help => { code := 0, stdout := usage }
  | some .version => { code := 0, stdout := versionText }
  | some (.perform format action) =>
    let format := format.getD fallback
    match perform env format action with
    | .ok output => output
    | .error f => failed f format

end ScriptLint.Cli
