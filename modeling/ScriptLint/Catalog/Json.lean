import ScriptLint.Catalog.Index
import ScriptLint.Diagnostic.Json
import ScriptLint.Json.Comments
import ScriptLint.Json.Reader

/-!
Catalog documents as JSON. Their texts may have comments and trailing commas; all but the names, the
kind of a command and the version may be left out.
-/

namespace ScriptLint

namespace Declaration

def toJson (d : Declaration) : Json :=
  .ofFields (Json.field? "set" (d.set.map .text) ++ [("mandatory", .bool d.mandatory)] ++
    Json.field? "position" (d.position.map .nat))

/-- Positions are 32 bits wide. -/
def position? (j : Json) : Option Nat := Json.natBelow? 0x100000000 j

def ofJson? (j : Json) : Option Declaration := do
  let fields ← Json.fields? ["set", "mandatory", "position"] 0 j
  return {
    set := ← fields.getOption? "set" Json.text?
    mandatory := ← fields.getOr? "mandatory" false Json.bool?
    position := ← fields.getOption? "position" position? }

end Declaration

namespace ParameterEntry

def toJson (p : ParameterEntry) : Json :=
  .ofFields [("name", .text p.name), ("switch", .bool p.isSwitch),
    ("attributes", .arr (p.declarations.map Declaration.toJson))]

def ofJson? (j : Json) : Option ParameterEntry := do
  let fields ← Json.fields? ["name", "switch", "attributes"] 1 j
  return {
    name := ← fields.get? "name" Json.text?
    isSwitch := ← fields.getOr? "switch" false Json.bool?
    declarations := ← fields.getOr? "attributes" [] (Json.list? Declaration.ofJson?) }

end ParameterEntry

namespace CommandEntry

def toJson (c : CommandEntry) : Json :=
  .ofFields [("name", .text c.name), ("kind", .text c.kind.key),
    ("parameter_sets", .arr (c.parameterSets.map .text)),
    ("parameters", .arr (c.parameters.map ParameterEntry.toJson))]

def ofJson? (j : Json) : Option CommandEntry := do
  let fields ← Json.fields? ["name", "kind", "parameter_sets", "parameters"] 2 j
  return {
    name := ← fields.get? "name" Json.text?
    kind := ← fields.get? "kind" fun k => do CommandKind.ofKey? (← Json.caseName? k)
    parameterSets := ← fields.getOr? "parameter_sets" [] (Json.list? Json.text?)
    parameters := ← fields.getOr? "parameters" [] (Json.list? ParameterEntry.ofJson?) }

end CommandEntry

namespace Document

def toJson (d : Document) : Json :=
  .ofFields [("schema_version", .text d.version),
    ("commands", .arr (d.commands.map CommandEntry.toJson)), ("aliases", d.aliases.toJson)]

def ofJson? (j : Json) : Option Document := do
  let fields ← Json.fields? ["schema_version", "commands", "aliases"] 1 j
  return {
    version := ← fields.get? "schema_version" Json.text?
    commands := ← fields.getOr? "commands" [] (Json.list? CommandEntry.ofJson?)
    aliases := ← fields.getOr? "aliases" .empty Dictionary.ofJson? }

/-- The document of a text in JSON with comments. -/
def ofText? (text : String) : Option Document := do
  ofJson? (← Json.ofText? (Json.undecorate text))

end Document

/-- The catalog of a text in JSON with comments. -/
def Catalog.ofText (text : String) : Except CatalogError Catalog :=
  match Document.ofText? text with
  | none => .error .malformed
  | some d => Catalog.ofDocument d

end ScriptLint
