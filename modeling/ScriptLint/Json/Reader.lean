import ScriptLint.Json.Basic
import ScriptLint.Json.Token

/-!
JSON reading. Values are built token by token; the containers still open wait in a list of frames, so
that a text may nest as deeply as it likes.
-/

namespace ScriptLint.Json

def hexValue (c : Char) : Nat :=
  if c.isDigit then c.toNat - 48
  else if 'a' ≤ c ∧ c ≤ 'f' then c.toNat - 87
  else c.toNat - 55

def unitOf (a b c d : Char) : Nat :=
  hexValue a * 4096 + hexValue b * 256 + hexValue c * 16 + hexValue d

def isHighSurrogate (n : Nat) : Bool := 0xD800 ≤ n && n < 0xDC00

def isLowSurrogate (n : Nat) : Bool := 0xDC00 ≤ n && n < 0xE000

/-- The character that a short escape stands for. -/
def unescape : Char → Char
  | 'n' => '\n'
  | 't' => '\t'
  | 'r' => '\r'
  | 'b' => '\x08'
  | 'f' => '\x0c'
  | c => c

/-- The text of a string as it is written; none if a surrogate stands alone. -/
def decodeBody : List Char → Option (List Char)
  | [] => some []
  | '\\' :: 'u' :: a :: b :: c :: d :: rest =>
    let unit := unitOf a b c d
    if isLowSurrogate unit then none
    else if isHighSurrogate unit then
      match rest with
      | '\\' :: 'u' :: e :: f :: g :: h :: rest =>
        let low := unitOf e f g h
        if isLowSurrogate low then
          (decodeBody rest).map
            (Char.ofNat (0x10000 + (unit - 0xD800) * 1024 + (low - 0xDC00)) :: ·)
        else none
      | _ => none
    else (decodeBody rest).map (Char.ofNat unit :: ·)
  | '\\' :: e :: rest => (decodeBody rest).map (unescape e :: ·)
  | c :: rest => (decodeBody rest).map (c :: ·)

def stringValue (body : List Char) : Option String :=
  (decodeBody body).map String.ofList

/-- The number that digits spell. -/
def digitsValue (digits : List Char) : Nat :=
  digits.foldl (fun n c => 10 * n + (c.toNat - 48)) 0

def numberValue (literal : List Char) : Json :=
  if literal.all Char.isDigit then .nat (digitsValue literal) else .numeral (String.ofList literal)

/-- A container part way through: what stands in it already, the last one first. -/
inductive Frame
  | items (done : List Json)
  | members (done : List Member) (name : Option String)

/-- What may come next. -/
inductive Expected
  | value
  /-- A value, or the end of the array just opened. -/
  | itemOrEnd
  /-- A name. -/
  | name (done : List Member)
  /-- A name, or the end of the object just opened. -/
  | nameOrEnd
  | colon (done : List Member) (name : Option String)
  /-- A comma, or the end of the container that the value stands in. -/
  | after (value : Json)

/-- Reads a token where a value is due. -/
def startValue (frames : List Frame) : Token → Option (List Frame × Expected)
  | .openBrace => some (frames, .nameOrEnd)
  | .openBracket => some (frames, .itemOrEnd)
  | .null => some (frames, .after .null)
  | .bool b => some (frames, .after (.bool b))
  | .number literal => some (frames, .after (numberValue literal))
  | .string body => some (frames, .after (.str (stringValue body)))
  | .closeBrace | .closeBracket | .colon | .comma => none

/-- Reads one token: the frames it leaves open, and what may come next. -/
def step : List Frame → Expected → Token → Option (List Frame × Expected)
  | frames, .value, t => startValue frames t
  | frames, .itemOrEnd, .closeBracket => some (frames, .after (.arr []))
  | frames, .itemOrEnd, t => startValue (.items [] :: frames) t
  | frames, .name done, .string body => some (frames, .colon done (stringValue body))
  | frames, .nameOrEnd, .closeBrace => some (frames, .after (.obj []))
  | frames, .nameOrEnd, .string body => some (frames, .colon [] (stringValue body))
  | frames, .colon done name, .colon => some (.members done name :: frames, .value)
  | .items done :: frames, .after v, .comma => some (.items (v :: done) :: frames, .value)
  | .items done :: frames, .after v, .closeBracket =>
    some (frames, .after (.arr (v :: done).reverse))
  | .members done name :: frames, .after v, .comma => some (frames, .name (⟨name, v⟩ :: done))
  | .members done name :: frames, .after v, .closeBrace =>
    some (frames, .after (.obj (⟨name, v⟩ :: done).reverse))
  | _, _, _ => none

/-- Reads the tokens to their end, where one value has to be complete. -/
def readFrom (frames : List Frame) (expected : Expected) : List Token → Option Json
  | [] =>
    match frames, expected with
    | [], .after v => some v
    | _, _ => none
  | t :: rest => do
    let (frames, expected) ← step frames expected t
    readFrom frames expected rest

def ofTokens? (tokens : List Token) : Option Json :=
  readFrom [] .value tokens

/-- The value of a text in strict JSON. -/
def ofText? (text : String) : Option Json := do
  ofTokens? (← tokens? text.toList)

end ScriptLint.Json
