import ScriptLint.Syntax.Token
import ScriptLint.Text.Letter

/-!
Lexer: cuts a script into tokens. A token is decided by its first character and by what follows it, so
`scan` answers with a kind and with the number of further characters that belong to it; whatever the
number, the tokens are consecutive pieces of the text and none is empty.
-/

namespace ScriptLint.Lexer

/-- The characters at which a word ends. -/
def isWordBreak (c : Char) : Bool :=
  Text.isBlank c || c ∈ [';', '|', '&', ',', '(', ')', '{', '}', '\x27', '\x22', '\x60', '>', '<']

def isLineEnd (c : Char) : Bool :=
  c = '\n' || c = '\r'

def isVariableChar (c : Char) : Bool :=
  Text.isAlphanumeric c || c = '_' || c = '?' || c = ':'

/-- The length of the longest run of characters that satisfy `p`. -/
def runLength (p : Char → Bool) (cs : List Char) : Nat :=
  (cs.takeWhile p).length

/-- The number of characters through the end of the first occurrence of `pattern`. -/
def lengthThrough? (pattern : List Char) : List Char → Option Nat
  | [] => none
  | c :: cs =>
    if pattern.isPrefixOf (c :: cs) then some pattern.length
    else (lengthThrough? pattern cs).map (· + 1)

/-- How far a token reaches that ends with `pattern`, and whether it is closed: one that is not takes
the rest of the text. -/
def reach (pattern cs : List Char) : Nat × Bool :=
  match lengthThrough? pattern cs with
  | some n => (n, true)
  | none => (cs.length, false)

/-- How far a string reaches behind its opening quote, and whether it is closed. A doubled quote does
not close it, nor does, between double quotes, a character behind a backtick. -/
def quotedLength (quote : Char) : List Char → Nat × Bool
  | [] => (0, false)
  | [c] => (1, c = quote)
  | c :: d :: cs =>
    if (quote = '\x22' ∧ c = '\x60') ∨ (c = quote ∧ d = quote) then
      let (n, closed) := quotedLength quote cs
      (n + 2, closed)
    else if c = quote then (1, true)
    else
      let (n, closed) := quotedLength quote (d :: cs)
      (n + 1, closed)

/-- How far a type literal reaches with `depth` brackets open; it never leaves its line. -/
def typeLength (depth : Nat) : List Char → Nat
  | [] => 0
  | c :: cs =>
    if isLineEnd c then 0
    else if c = '[' then typeLength (depth + 1) cs + 1
    else if c = ']' then if depth ≤ 1 then 1 else typeLength (depth - 1) cs + 1
    else typeLength depth cs + 1

def isStream (c : Char) : Bool :=
  '1' ≤ c && c ≤ '6'

/-- What belongs to a redirection behind its first `>`. -/
def redirectionTail : List Char → Nat
  | '>' :: _ => 1
  | '&' :: c :: _ => if isStream c then 2 else 0
  | _ => 0

def scanString (quote : Char) (cs : List Char) : TokenKind × Nat :=
  let (n, closed) := quotedLength quote cs
  (.string !closed, n)

/-- A token behind `@`; a here-string ends with its quote and `@` at the start of a line. -/
def scanAt : List Char → TokenKind × Nat
  | [] => (.word, 0)
  | c :: cs =>
    if c = '(' then (.atParen, 1)
    else if c = '{' then (.atBrace, 1)
    else if c = '\x22' ∨ c = '\x27' then
      let (n, closed) := reach ['\n', c, '@'] cs
      (.string !closed, n + 1)
    else if Text.isAlphanumeric c || c = '_' then
      (.variable, runLength (fun d => Text.isAlphanumeric d || d = '_' || d = ':') (c :: cs))
    else (.word, 0)

/-- A token behind `$`. -/
def scanDollar : List Char → TokenKind × Nat
  | [] => (.word, 0)
  | c :: cs =>
    if c = '(' then (.dollarParen, 1)
    else if c = '{' then (.variable, (reach ['}'] cs).1 + 1)
    else if c = '$' ∨ c = '^' ∨ c = '?' then (.variable, 1)
    else if isVariableChar c then (.variable, runLength isVariableChar (c :: cs))
    else (.word, 0)

/-- A parameter behind its dash. -/
def scanParameter (cs : List Char) : TokenKind × Nat :=
  let n := runLength (fun d => !isWordBreak d && d ≠ ':' && d ≠ '.' && d ≠ '[') cs
  if (cs.drop n).head? = some ':' then (.parameter true, n + 1) else (.parameter false, n)

def startsParameter (cs : List Char) : Bool :=
  cs.head?.any fun d => Text.isLetter d || d = '_' || d = '?'

/-- The kind of the token that starts with `c`, and how many of the characters behind `c` it takes. -/
def scan (c : Char) (cs : List Char) : TokenKind × Nat :=
  if c = '\n' then (.newline, 0)
  else if c = '\r' then (.newline, if cs.head? = some '\n' then 1 else 0)
  else if c = '\x60' ∧ cs.head?.any isLineEnd then
    (.whitespace, if ['\r', '\n'].isPrefixOf cs then 2 else 1)
  else if Text.isBlank c then (.whitespace, runLength (fun d => Text.isBlank d && !isLineEnd d) cs)
  else if c = '#' then (.comment, runLength (fun d => !isLineEnd d) cs)
  else if c = '<' ∧ cs.head? = some '#' then (.comment, (reach ['#', '>'] cs.tail).1 + 1)
  else if c = ';' then (.semicolon, 0)
  else if c = ',' then (.comma, 0)
  else if c = '{' then (.openBrace, 0)
  else if c = '}' then (.closeBrace, 0)
  else if c = '(' then (.openParen, 0)
  else if c = ')' then (.closeParen, 0)
  else if c = '|' then if cs.head? = some '|' then (.chain, 1) else (.pipe, 0)
  else if c = '&' then if cs.head? = some '&' then (.chain, 1) else (.ampersand, 0)
  else if c = '\x27' ∨ c = '\x22' then scanString c cs
  else if c = '@' then scanAt cs
  else if c = '$' then scanDollar cs
  else if c = '[' then (.typeLiteral, typeLength 1 cs)
  else if c = '>' then (.redirection, redirectionTail cs)
  else if c = '<' then (.redirection, 0)
  else if (c = '*' ∨ isStream c) ∧ cs.head? = some '>' then
    (.redirection, redirectionTail cs.tail + 1)
  else if Token.isDash c ∧ startsParameter cs then scanParameter cs
  else if isWordBreak c then (.word, 0)
  else (.word, runLength (fun d => !isWordBreak d) cs)

/-- The token at `offset` that starts with `c`, in front of `cs`. -/
def token (offset : Nat) (c : Char) (cs : List Char) : Token where
  kind := (scan c cs).1
  text := String.ofList (c :: cs.take (scan c cs).2)
  start := offset

/-- The tokens of a text whose first byte is at `offset` and whose first `skip` characters belong to a
token found before. -/
def tokensFrom : (skip offset : Nat) → List Char → List Token
  | _, _, [] => []
  | skip + 1, offset, c :: cs => tokensFrom skip (offset + c.utf8Size) cs
  | 0, offset, c :: cs =>
    token offset c cs :: tokensFrom (scan c cs).2 (offset + c.utf8Size) cs

@[simp] theorem tokensFrom_nil (skip offset : Nat) : tokensFrom skip offset [] = [] := by
  rw [tokensFrom]

@[simp] theorem tokensFrom_zero_cons (offset : Nat) (c : Char) (cs : List Char) :
    tokensFrom 0 offset (c :: cs) =
      token offset c cs :: tokensFrom (scan c cs).2 (offset + c.utf8Size) cs := rfl

@[simp] theorem tokensFrom_succ_cons (skip offset : Nat) (c : Char) (cs : List Char) :
    tokensFrom (skip + 1) offset (c :: cs) = tokensFrom skip (offset + c.utf8Size) cs := rfl

end ScriptLint.Lexer

namespace ScriptLint

def tokenize (source : String) : List Token :=
  Lexer.tokensFrom 0 0 source.toList

end ScriptLint
