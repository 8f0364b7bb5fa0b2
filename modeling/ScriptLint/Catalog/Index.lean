import ScriptLint.Catalog.Document
import ScriptLint.Text.Blank

/-!
Catalogs: documents that have been checked, for look-up by name without regard to case. A document that
does not pass is refused for the first thing wrong with it: its version, then its commands in order,
each by its name, its parameters and whether it has come before, then its aliases in order of name.
-/

namespace ScriptLint

/-- What is wrong with a catalog. Commands and parameters without a name are given by their place. -/
inductive CatalogError
  /-- The text is no document. -/
  | malformed
  | emptyVersion
  | incompatibleVersion (version : String)
  | emptyCommandName (command : Nat)
  | emptyParameterName (command parameter : Nat)
  | duplicateParameter (command parameter : Nat) (commandName parameterName : String)
  | unknownParameterSet (command parameter set : String)
  | duplicateCommand (name : String)
  | emptyAlias
  | emptyTarget (name : String)
  | duplicateAlias (name : String)
  deriving DecidableEq, Repr

/-- The version of the format that documents are written in. -/
def formatVersion : String := "1.0.0"

namespace CatalogError

/-- What a parameter is called in an error, by its place. -/
def parameterPath (command parameter : Nat) : String :=
  "commands[" ++ toString command ++ "].parameters[" ++ toString parameter ++ "].name"

def invalid (field reason : String) : String := "invalid " ++ field ++ ": " ++ reason

def message : CatalogError → String
  | malformed => "invalid catalog JSON"
  | emptyVersion => invalid "schema_version" "must not be empty"
  | incompatibleVersion version =>
    invalid "schema_version" (version ++ " is not compatible with catalog format " ++ formatVersion)
  | emptyCommandName i => invalid ("commands[" ++ toString i ++ "].name") "must not be empty"
  | emptyParameterName i j => invalid (parameterPath i j) "must not be empty"
  | duplicateParameter i j command parameter =>
    invalid (parameterPath i j) ("duplicate parameter '" ++ parameter ++ "' of '" ++ command ++ "'")
  | unknownParameterSet command parameter set =>
    "parameter '" ++ parameter ++ "' of '" ++ command ++ "' references undeclared parameter set '" ++
      set ++ "'"
  | duplicateCommand name => "duplicate command '" ++ name ++ "'"
  | emptyAlias => invalid "aliases" "alias name must not be empty"
  | emptyTarget name => invalid ("aliases." ++ name) "alias target must not be empty"
  | duplicateAlias name => "duplicate alias '" ++ name ++ "'"

end CatalogError

/-- Commands and alias targets by their folded names. -/
structure Catalog where
  version : String
  commands : List (String × Command)
  aliases : List (String × String)
  deriving DecidableEq, Repr

namespace Catalog

/-- The part of a version before its first point. -/
def major (version : String) : List Char :=
  (Text.trim version.toList).takeWhile (· ≠ '.')

def checkVersion (version : String) : Except CatalogError Unit :=
  if Text.allBlank version then .error .emptyVersion
  else if major version = major formatVersion then .ok ()
  else .error (.incompatibleVersion version)

/-- Every parameter set that the declarations name is among those of the command. -/
def checkSets (c : CommandEntry) (p : ParameterEntry) : List Declaration → Except CatalogError Unit
  | [] => .ok ()
  | d :: rest =>
    match d.set with
    | none => checkSets c p rest
    | some set =>
      if c.parameterSets.any (Text.sameName · set) then checkSets c p rest
      else .error (.unknownParameterSet c.name p.name set)

/-- The parameters from the `j`th on, behind those in `seen`. -/
def checkParameters (i : Nat) (c : CommandEntry) (j : Nat) (seen : List String) :
    List ParameterEntry → Except CatalogError Unit
  | [] => .ok ()
  | p :: rest => do
    if Text.allBlank p.name then throw (.emptyParameterName i j)
    if Text.fold p.name ∈ seen then throw (.duplicateParameter i j c.name p.name)
    checkSets c p p.declarations
    checkParameters i c (j + 1) (Text.fold p.name :: seen) rest

/-- The commands from the `i`th on, behind those in `seen`. -/
def checkCommands (i : Nat) (seen : List String) : List CommandEntry → Except CatalogError Unit
  | [] => .ok ()
  | c :: rest => do
    if Text.allBlank c.name then throw (.emptyCommandName i)
    checkParameters i c 0 [] c.parameters
    if Text.fold c.name ∈ seen then throw (.duplicateCommand c.name)
    checkCommands (i + 1) (Text.fold c.name :: seen) rest

/-- The aliases behind those in `seen`. -/
def checkAliases (seen : List String) : List (String × String) → Except CatalogError Unit
  | [] => .ok ()
  | (name, target) :: rest => do
    if Text.allBlank name then throw .emptyAlias
    if Text.allBlank target then throw (.emptyTarget name)
    if Text.fold name ∈ seen then throw (.duplicateAlias name)
    checkAliases (Text.fold name :: seen) rest

/-- The catalog of a document, if there is nothing wrong with it. -/
def ofDocument (d : Document) : Except CatalogError Catalog := do
  checkVersion d.version
  checkCommands 0 [] d.commands
  checkAliases [] d.aliases.entries
  return {
    version := d.version
    commands := d.commands.map fun c => (Text.fold c.name, c.command)
    aliases := d.aliases.entries.map fun (name, target) => (Text.fold name, target) }

def commandCount (c : Catalog) : Nat := c.commands.length

def aliasCount (c : Catalog) : Nat := c.aliases.length

def alias? (c : Catalog) (name : String) : Option String :=
  c.aliases.lookup (Text.fold name)

/-- An application is known, but nobody can look into its parameters. -/
def metadata (c : Catalog) (name : String) : Except MetadataFault (Option Command) :=
  match c.commands.lookup (Text.fold name) with
  | none => .ok none
  | some command =>
    if command.kind = .application then .error (.notIntrospectable command.name .application)
    else .ok (some command)

def provider (c : Catalog) : Provider where
  alias? := c.alias?
  metadata := c.metadata

end Catalog

end ScriptLint
