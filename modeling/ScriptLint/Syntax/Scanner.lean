import ScriptLint.Syntax.Lexer

/-!
Scanner: the lexer as it runs over the bytes of a script. It knows its place by a byte offset alone and
looks, moves and slices by offsets, one function for each form of token. A step that stands inside of a
character or behind the end breaks the run off, and so do a slice that ends before it starts, a bracket
closed that is not open, and a loop that does not come to its end. `Lexer.scan` tells what a token takes
without offsets.
-/

namespace ScriptLint

namespace Scanner

/-- What breaks a run off. -/
inductive Breach
  /-- An offset does not stand between two characters of the script. -/
  | splitCharacter (offset : Nat)
  /-- A slice ends before it starts. -/
  | reversed (start stop : Nat)
  /-- A bracket is closed that is not open. -/
  | unopened
  /-- A loop goes on although no byte is left for it. -/
  | stuck
  deriving DecidableEq, Repr

end Scanner

/-- A step of a scan: it reads a script, moves a byte offset and answers, or breaks off. -/
abbrev Scanner := ReaderT String (StateT Nat (Except Scanner.Breach))

namespace Scanner

open Lexer

/-- The characters between two offsets. -/
def slice (start stop : Nat) : Scanner String := do
  let source ← read
  if stop < start then throw (.reversed start stop)
  else if !String.Pos.Raw.isValid source ⟨start⟩ then throw (.splitCharacter start)
  else if !String.Pos.Raw.isValid source ⟨stop⟩ then throw (.splitCharacter stop)
  else return String.Pos.Raw.extract source ⟨start⟩ ⟨stop⟩

/-- The characters from an offset on. -/
def sliceFrom (start : Nat) : Scanner (List Char) := do
  return (← slice start (← read).utf8ByteSize).toList

def peek : Scanner (Option Char) := do
  return (← sliceFrom (← get)).head?

def peekNth (n : Nat) : Scanner (Option Char) := do
  return (← sliceFrom (← get))[n]?

/-- Passes the next character, if there is one. -/
def bump : Scanner (Option Char) := do
  match ← peek with
  | none => return none
  | some c =>
    modify (· + c.utf8Size)
    return some c

/-- Passes the next character if it is `c`. -/
def bumpIf (c : Char) : Scanner Bool := do
  if (← peek) = some c then
    let _ ← bump
    return true
  else return false

/-- Does `body` again and again until it is done, `n` times at most. -/
def rounds (body : α → Scanner (ForInStep α)) : (n : Nat) → α → Scanner α
  | 0, _ => throw .stuck
  | n + 1, a => do
    match ← body a with
    | .done a => return a
    | .yield a => rounds body n a

/-- Does `body` again and again until it is done. A round after which another follows has to pass a
byte, so the bytes of the script bound their number. -/
def repeating (body : α → Scanner (ForInStep α)) (a : α) : Scanner α := do
  rounds body ((← read).utf8ByteSize + 1) a

/-- Passes the next character if it satisfies `p`, and is done otherwise. -/
def whileRound (p : Char → Bool) (_ : Unit) : Scanner (ForInStep Unit) := do
  match ← peek with
  | none => return .done ()
  | some c =>
    if p c then
      modify (· + c.utf8Size)
      return .yield ()
    else return .done ()

/-- Passes characters as long as they satisfy `p`. -/
def bumpWhile (p : Char → Bool) : Scanner Unit :=
  repeating (whileRound p) ()

/-- The byte at which the first occurrence of `pattern` starts. -/
def find? (pattern : List Char) : List Char → Option Nat
  | [] => none
  | c :: cs =>
    if pattern.isPrefixOf (c :: cs) then some 0 else (find? pattern cs).map (c.utf8Size + ·)

/-- Goes on behind the first `pattern` that follows the next `ahead` bytes, or else to the end. Answers
whether there is one. -/
def through (ahead : Nat) (pattern : List Char) : Scanner Bool := do
  match find? pattern (← sliceFrom ((← get) + ahead)) with
  | some n =>
    modify (· + ahead + n + (String.ofList pattern).utf8ByteSize)
    return true
  | none =>
    set (← read).utf8ByteSize
    return false

/-- A token of one character. -/
def single (kind : TokenKind) : Scanner TokenKind := do
  let _ ← bump
  return kind

/-- A token that `c` may stand twice in. -/
def doubled (c : Char) (twice once : TokenKind) : Scanner TokenKind := do
  let _ ← bump
  return if ← bumpIf c then twice else once

/-- A run of characters behind the next one, which belongs to it. -/
def run (kind : TokenKind) (p : Char → Bool) : Scanner TokenKind := do
  bumpWhile p
  return kind

/-- A line end, a line feed behind a carriage return included. -/
def newline (c : Char) : Scanner TokenKind := do
  let _ ← bump
  if c = '\r' then
    let _ ← bumpIf '\n'
  return .newline

/-- A backtick with the line end that it cancels. -/
def continuation : Scanner TokenKind := do
  let _ ← bump
  if (← bump) = some '\r' then
    let _ ← bumpIf '\n'
  return .whitespace

def blockComment : Scanner TokenKind := do
  let _ ← through 2 ['#', '>']
  return .comment

/-- A character of a string behind its opening quote; the answer says whether the string is closed. -/
def stringRound (quote : Char) (_ : Bool) : Scanner (ForInStep Bool) := do
  match ← bump with
  | none => return .done false
  | some c =>
    if quote = '\x22' ∧ c = '\x60' then
      let _ ← bump
      return .yield false
    else if c = quote then
      if ← bumpIf quote then return .yield false else return .done true
    else return .yield false

def string (quote : Char) : Scanner TokenKind := do
  let _ ← bump
  let closed ← repeating (stringRound quote) false
  return .string !closed

def hereString (quote : Char) : Scanner TokenKind := do
  let _ ← bump
  let closed ← through 0 ['\n', quote, '@']
  return .string !closed

def atSign : Scanner TokenKind := do
  let _ ← bump
  match ← peek with
  | none => return .word
  | some c =>
    if c = '(' then single .atParen
    else if c = '{' then single .atBrace
    else if c = '\x22' ∨ c = '\x27' then hereString c
    else if Text.isAlphanumeric c || c = '_' then
      run .variable fun d => Text.isAlphanumeric d || d = '_' || d = ':'
    else return .word

def dollar : Scanner TokenKind := do
  let _ ← bump
  match ← peek with
  | none => return .word
  | some c =>
    if c = '(' then single .dollarParen
    else if c = '{' then
      let _ ← through 0 ['\x7d']
      return .variable
    else if c = '$' ∨ c = '^' ∨ c = '?' then single .variable
    else if isVariableChar c then run .variable isVariableChar
    else return .word

/-- The brackets open behind `c`, where `depth` are open in front; the last one closed ends the literal. -/
def countBracket (depth : Nat) (c : Char) : Scanner (ForInStep Nat) :=
  if c = '[' then return .yield (depth + 1)
  else if c = ']' then
    match depth with
    | 0 => throw .unopened
    | 1 => return .done 0
    | depth + 2 => return .yield (depth + 1)
  else return .yield depth

/-- A character of a type literal, which never leaves its line; what is open at its end is forgotten. -/
def typeRound (depth : Nat) : Scanner (ForInStep Nat) := do
  match ← peek with
  | none => return .done 0
  | some c =>
    if isLineEnd c then return .done 0
    else
      let _ ← bump
      countBracket depth c

def typeLiteral : Scanner TokenKind := do
  let _ ← repeating typeRound 0
  return .typeLiteral

/-- What belongs to a redirection behind its first `>`. -/
def arrowTail : Scanner Unit := do
  if ← bumpIf '>' then return ()
  else if (← peek) = some '&' ∧ (← peekNth 1).any isStream then
    let _ ← bump
    let _ ← bump

/-- A redirection, from its stream or from its arrow on. -/
def redirection : Scanner TokenKind := do
  let first ← peek
  if first ≠ some '>' ∧ first ≠ some '<' then
    let _ ← bump
  if (← bump) = some '>' then arrowTail
  return .redirection

def parameter : Scanner TokenKind := do
  let _ ← bump
  bumpWhile fun d => !isWordBreak d && d ≠ ':' && d ≠ '.' && d ≠ '['
  return .parameter (← bumpIf ':')

/-- Any other run of characters; a character at which a word ends is a word of its own. -/
def word : Scanner TokenKind := do
  let start ← get
  bumpWhile fun d => !isWordBreak d
  if (← get) = start then
    let _ ← bump
  return .word

/-- Passes the token that starts with the next character, which is `c`, and answers with its kind. -/
def kind (c : Char) : Scanner TokenKind := do
  let next ← peekNth 1
  if c = '\n' ∨ c = '\r' then newline c
  else if c = '\x60' ∧ next.any isLineEnd then continuation
  else if Text.isBlank c then run .whitespace fun d => Text.isBlank d && !isLineEnd d
  else if c = '#' then run .comment fun d => !isLineEnd d
  else if c = '<' ∧ next = some '#' then blockComment
  else if c = ';' then single .semicolon
  else if c = ',' then single .comma
  else if c = '{' then single .openBrace
  else if c = '}' then single .closeBrace
  else if c = '(' then single .openParen
  else if c = ')' then single .closeParen
  else if c = '|' then doubled '|' .chain .pipe
  else if c = '&' then doubled '&' .chain .ampersand
  else if c = '\x27' ∨ c = '\x22' then string c
  else if c = '@' then atSign
  else if c = '$' then dollar
  else if c = '[' then typeLiteral
  else if c = '>' ∨ c = '<' then redirection
  else if (c = '*' ∨ isStream c) ∧ next = some '>' then redirection
  else if Token.isDash c ∧ next.any (fun d => Text.isLetter d || d = '_' || d = '?') then parameter
  else word

/-- A token more, unless the script is at its end. -/
def tokenRound (ts : List Token) : Scanner (ForInStep (List Token)) := do
  let start ← get
  match ← peek with
  | none => return .done ts
  | some c =>
    let kind ← kind c
    let text ← slice start (← get)
    return .yield (ts ++ [⟨kind, text, start⟩])

/-- All tokens of a script, with the offset behind the last of them. -/
def tokens (source : String) : Except Breach (List Token × Nat) :=
  repeating tokenRound [] source 0

end Scanner

end ScriptLint
