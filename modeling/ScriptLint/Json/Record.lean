import ScriptLint.Json.Basic

/-!
Records in JSON: objects with known fields, or arrays of the values in the order of the fields. Fields
that nobody knows are passed over, a known one must not stand twice, and an array may leave off the
last fields only down to a given number.
-/

namespace ScriptLint.Json

/-- The fields found in a record, by name. -/
abbrev Fields := List (String × Json)

def fields? (names : List String) (least : Nat) : Json → Option Fields
  | .arr items =>
    if least ≤ items.length ∧ items.length ≤ names.length then some (names.zip items) else none
  | .obj members => do
    let fields ← members.mapM fun m => m.name.map fun name => (name, m.value)
    let known := fields.filter fun f => f.1 ∈ names
    if (known.map (·.1)).Nodup then some known else none
  | _ => none

/-- A field that has to be there. -/
def Fields.get? (fields : Fields) (name : String) (decode : Json → Option α) : Option α := do
  decode (← fields.lookup name)

/-- A field that may be missing or null. -/
def Fields.getOption? (fields : Fields) (name : String) (decode : Json → Option α) :
    Option (Option α) :=
  match fields.lookup name with
  | none | some .null => some none
  | some value => (decode value).map some

/-- A field that may be missing but not null. -/
def Fields.getOr? (fields : Fields) (name : String) (default : α) (decode : Json → Option α) :
    Option α :=
  match fields.lookup name with
  | none => some default
  | some value => decode value

def text? : Json → Option String
  | .text s => some s
  | _ => none

def bool? : Json → Option Bool
  | .bool b => some b
  | _ => none

/-- A number below `bound`, written with digits alone. -/
def natBelow? (bound : Nat) : Json → Option Nat
  | .nat n => if n < bound then some n else none
  | _ => none

def list? (decode : Json → Option α) : Json → Option (List α)
  | .arr items => items.mapM decode
  | _ => none

/-- The name of a case without values: the name alone, or an object that gives it null. -/
def caseName? : Json → Option String
  | .text s => some s
  | .obj [⟨some s, .null⟩] => some s
  | _ => none

/-- The tag of a record that says by `kind` which case it is, and the record without the tag. In an
array the tag comes first. -/
def tagged? : Json → Option (Json × Json)
  | .arr (tag :: items) => some (tag, .arr items)
  | .obj members =>
    match members.partition fun m => m.name = some "kind" with
    | ([tag], others) => some (tag.value, .obj others)
    | _ => none
  | _ => none

end ScriptLint.Json
