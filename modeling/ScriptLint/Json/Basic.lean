/-!
JSON values, with all that their readers may have to tell apart: the order of members, repeated names,
the way a number is written, and strings that are no text.
-/

namespace ScriptLint

mutual

inductive Json where
  | null
  | bool (value : Bool)
  /-- A number written with digits alone. -/
  | nat (value : Nat)
  /-- A number written with a sign, a fraction or an exponent, as it is written. -/
  | numeral (literal : String)
  /-- A string; without a value, its escapes leave half of a surrogate pair alone and spell no text. -/
  | str (value : Option String)
  | arr (items : List Json)
  | obj (members : List Json.Member)

/-- A named value in an object; the name is a string and may fail to be a text too. -/
structure Json.Member where
  name : Option String
  value : Json

end

instance : Inhabited Json := ⟨.null⟩

namespace Json

@[match_pattern] abbrev text (s : String) : Json := .str (some s)

/-- An object from names and values in the given order. -/
def ofFields (fields : List (String × Json)) : Json :=
  .obj (fields.map fun (name, value) => ⟨some name, value⟩)

/-- The field if there is a value for it. -/
def field? (name : String) (value : Option Json) : List (String × Json) :=
  (value.map fun v => (name, v)).toList

/-- The field if there is anything in the list. -/
def fieldUnlessNil (name : String) (items : List Json) : List (String × Json) :=
  if items.isEmpty then [] else [(name, .arr items)]

mutual

/-- How deeply containers nest in the value, the value itself counted. -/
def depth : Json → Nat
  | .arr items => depthItems items + 1
  | .obj members => depthMembers members + 1
  | .null | .bool _ | .nat _ | .numeral _ | .str _ => 1

def depthItems : List Json → Nat
  | [] => 0
  | item :: rest => max (depth item) (depthItems rest)

def depthMembers : List Member → Nat
  | [] => 0
  | ⟨_, value⟩ :: rest => max (depth value) (depthMembers rest)

end

end Json

end ScriptLint
