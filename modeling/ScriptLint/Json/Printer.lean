import ScriptLint.Json.Basic

/-!
JSON printing, in one line without blanks or with one item a line. Strings are written raw but for the
quotation mark, the backslash and the controls below the blank.
-/

namespace ScriptLint.Json

def hexDigit (n : Nat) : Char :=
  if n < 10 then Char.ofNat (n + 48) else Char.ofNat (n + 87)

/-- A character as it stands in a string. -/
def escape (c : Char) : List Char :=
  if c = '\x22' then ['\\', '\x22']
  else if c = '\\' then ['\\', '\\']
  else if c = '\n' then ['\\', 'n']
  else if c = '\r' then ['\\', 'r']
  else if c = '\t' then ['\\', 't']
  else if c = '\x08' then ['\\', 'b']
  else if c = '\x0c' then ['\\', 'f']
  else if c.toNat < 32 then
    ['\\', 'u', '0', '0', hexDigit (c.toNat / 16), hexDigit (c.toNat % 16)]
  else [c]

def quote (s : String) : String :=
  String.ofList ('\x22' :: (s.toList.flatMap escape ++ ['\x22']))

/-- A string that is no text is written as a replacement character. -/
def quote? (s : Option String) : String :=
  quote (s.getD "\ufffd")

mutual

/-- Adds the value to what is written so far. -/
def writeCompact (out : String) : Json → String
  | .null => out ++ "null"
  | .bool true => out ++ "true"
  | .bool false => out ++ "false"
  | .nat n => out ++ toString n
  | .numeral literal => out ++ literal
  | .str s => out ++ quote? s
  | .arr [] => out ++ "[]"
  | .arr (item :: rest) => compactItems (writeCompact (out ++ "[") item) rest ++ "]"
  | .obj [] => out ++ "\x7b\x7d"
  | .obj (⟨name, value⟩ :: rest) =>
    compactMembers (writeCompact (out ++ "\x7b" ++ quote? name ++ ":") value) rest ++ "\x7d"

def compactItems (out : String) : List Json → String
  | [] => out
  | item :: rest => compactItems (writeCompact (out ++ ",") item) rest

def compactMembers (out : String) : List Member → String
  | [] => out
  | ⟨name, value⟩ :: rest =>
    compactMembers (writeCompact (out ++ "," ++ quote? name ++ ":") value) rest

end

def compact (j : Json) : String := writeCompact "" j

/-- A line break and the indentation of a level, two blanks each. -/
def lineBreak (level : Nat) : String :=
  String.ofList ('\n' :: List.replicate (2 * level) ' ')

mutual

/-- Adds the value, written with one item a line, to what is written so far. -/
def writePretty (level : Nat) (out : String) : Json → String
  | .null => out ++ "null"
  | .bool true => out ++ "true"
  | .bool false => out ++ "false"
  | .nat n => out ++ toString n
  | .numeral literal => out ++ literal
  | .str s => out ++ quote? s
  | .arr [] => out ++ "[]"
  | .arr (item :: rest) =>
    prettyItems (level + 1) (writePretty (level + 1) (out ++ "[" ++ lineBreak (level + 1)) item)
      rest ++ lineBreak level ++ "]"
  | .obj [] => out ++ "\x7b\x7d"
  | .obj (⟨name, value⟩ :: rest) =>
    prettyMembers (level + 1)
      (writePretty (level + 1) (out ++ "\x7b" ++ lineBreak (level + 1) ++ quote? name ++ ": ") value)
      rest ++ lineBreak level ++ "\x7d"

def prettyItems (level : Nat) (out : String) : List Json → String
  | [] => out
  | item :: rest => prettyItems level (writePretty level (out ++ "," ++ lineBreak level) item) rest

def prettyMembers (level : Nat) (out : String) : List Member → String
  | [] => out
  | ⟨name, value⟩ :: rest =>
    prettyMembers level
      (writePretty level (out ++ "," ++ lineBreak level ++ quote? name ++ ": ") value) rest

end

def pretty (j : Json) : String := writePretty 0 "" j

end ScriptLint.Json
