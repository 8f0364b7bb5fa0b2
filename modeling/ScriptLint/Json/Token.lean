/-!
Tokens of JSON text. Numbers and strings are kept as they are written; `Token.written` gives the text
of any token back.
-/

namespace ScriptLint.Json

inductive Token
  | openBrace
  | closeBrace
  | openBracket
  | closeBracket
  | colon
  | comma
  | null
  | bool (value : Bool)
  | number (literal : List Char)
  /-- A string by what stands between its quotes. -/
  | string (body : List Char)
  deriving DecidableEq, Repr

namespace Token

def written : Token → List Char
  | openBrace => ['{']
  | closeBrace => ['}']
  | openBracket => ['[']
  | closeBracket => [']']
  | colon => [':']
  | comma => [',']
  | null => ['n', 'u', 'l', 'l']
  | bool true => ['t', 'r', 'u', 'e']
  | bool false => ['f', 'a', 'l', 's', 'e']
  | number literal => literal
  | string body => '\x22' :: (body ++ ['\x22'])

/-- The blanks that JSON allows between tokens. -/
def isBlank (c : Char) : Bool :=
  c = ' ' || c = '\t' || c = '\n' || c = '\r'

def isHexDigit (c : Char) : Bool :=
  c.isDigit || ('a' ≤ c && c ≤ 'f') || ('A' ≤ c && c ≤ 'F')

/-- The length of the string that starts behind a quotation mark, up to the mark that closes it. -/
def bodyLength? : List Char → Option Nat
  | [] => none
  | '\x22' :: _ => some 0
  | '\\' :: 'u' :: a :: b :: c :: d :: cs =>
    if isHexDigit a && isHexDigit b && isHexDigit c && isHexDigit d then
      (bodyLength? cs).map (· + 6)
    else none
  | '\\' :: e :: cs =>
    if e ∈ ['\x22', '\\', '/', 'b', 'f', 'n', 'r', 't'] then (bodyLength? cs).map (· + 2) else none
  | c :: cs => if c.toNat < 32 ∨ c = '\\' then none else (bodyLength? cs).map (· + 1)

def digitCount (cs : List Char) : Nat := (cs.takeWhile Char.isDigit).length

/-- The length of an exponent, if one starts here; it needs a digit. -/
def exponentLength? (cs : List Char) : Option Nat :=
  match cs with
  | 'e' :: rest | 'E' :: rest =>
    let sign := if rest.head? = some '+' ∨ rest.head? = some '-' then 1 else 0
    let digits := digitCount (rest.drop sign)
    if digits = 0 then none else some (1 + sign + digits)
  | _ => some 0

/-- The length of a fraction, if one starts here; it needs a digit. -/
def fractionLength? (cs : List Char) : Option Nat :=
  match cs with
  | '.' :: rest => if digitCount rest = 0 then none else some (1 + digitCount rest)
  | _ => some 0

/-- The length of a number without its sign; a leading zero stands alone. -/
def unsignedLength? (cs : List Char) : Option Nat := do
  let whole := if cs.head? = some '0' then 1 else digitCount cs
  if whole = 0 then none
  let fraction ← fractionLength? (cs.drop whole)
  let exponent ← exponentLength? (cs.drop (whole + fraction))
  return whole + fraction + exponent

def numberLength? (cs : List Char) : Option Nat :=
  match cs with
  | '-' :: rest => (unsignedLength? rest).map (· + 1)
  | _ => unsignedLength? cs

/-- The token that starts with `c`, and how many of the characters behind `c` it takes. -/
def scan? (c : Char) (cs : List Char) : Option (Token × Nat) :=
  match c with
  | '{' => some (openBrace, 0)
  | '}' => some (closeBrace, 0)
  | '[' => some (openBracket, 0)
  | ']' => some (closeBracket, 0)
  | ':' => some (colon, 0)
  | ',' => some (comma, 0)
  | 'n' => if ['u', 'l', 'l'].isPrefixOf cs then some (null, 3) else none
  | 't' => if ['r', 'u', 'e'].isPrefixOf cs then some (bool true, 3) else none
  | 'f' => if ['a', 'l', 's', 'e'].isPrefixOf cs then some (bool false, 4) else none
  | '\x22' => (bodyLength? cs).map fun n => (string (cs.take n), n + 1)
  | _ => (numberLength? (c :: cs)).map fun n => (number ((c :: cs).take n), n - 1)

/-- The tokens of a text whose first `skip` characters belong to a token found before. -/
def tokensFrom? : (skip : Nat) → List Char → Option (List Token)
  | _, [] => some []
  | skip + 1, _ :: cs => tokensFrom? skip cs
  | 0, c :: cs =>
    if isBlank c then tokensFrom? 0 cs
    else do
      let (token, n) ← scan? c cs
      return token :: (← tokensFrom? n cs)

end Token

/-- The tokens of a JSON text, if it consists of tokens and blanks. -/
def tokens? (text : List Char) : Option (List Token) :=
  Token.tokensFrom? 0 text

end ScriptLint.Json
