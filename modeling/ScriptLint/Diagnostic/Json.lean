import ScriptLint.Diagnostic.Basic
import ScriptLint.Json.Record

/-!
Spans and diagnostics as JSON. What a diagnostic does not have is left out.
-/

namespace ScriptLint

/-- Offsets are 64 bits wide. -/
def offset? (j : Json) : Option Nat := Json.natBelow? 0x10000000000000000 j

namespace Span

def toJson (s : Span) : Json := .ofFields [("start", .nat s.start), ("end", .nat s.stop)]

def ofJson? (j : Json) : Option Span := do
  let fields ← Json.fields? ["start", "end"] 2 j
  return ⟨← fields.get? "start" offset?, ← fields.get? "end" offset?⟩

end Span

namespace Dictionary

def toJson (d : Dictionary) : Json :=
  .ofFields (d.entries.map fun (name, value) => (name, .text value))

def ofJson? : Json → Option Dictionary
  | .obj members => do
    let entries ← members.mapM fun m => do return (← m.name, ← Json.text? m.value)
    return ofList entries
  | _ => none

end Dictionary

namespace Diagnostic

def toFields (d : Diagnostic) : List (String × Json) :=
  [("rule_name", .text d.rule), ("severity", .text d.severity.key), ("message", .text d.message)] ++
    Json.field? "span" (d.span.map Span.toJson) ++ Json.field? "file" (d.file.map .text) ++
    Json.field? "context" (d.context.map Dictionary.toJson)

def toJson (d : Diagnostic) : Json := .ofFields d.toFields

def ofJson? (j : Json) : Option Diagnostic := do
  let fields ← Json.fields? ["rule_name", "severity", "message", "span", "file", "context"] 6 j
  return {
    rule := ← fields.get? "rule_name" Json.text?
    severity := ← fields.get? "severity" fun s => do Severity.ofKey? (← Json.caseName? s)
    message := ← fields.get? "message" Json.text?
    span := ← fields.getOption? "span" Span.ofJson?
    file := ← fields.getOption? "file" Json.text?
    context := ← fields.getOption? "context" Dictionary.ofJson? }

end Diagnostic

end ScriptLint
