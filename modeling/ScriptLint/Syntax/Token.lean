import ScriptLint.Source.Span
import ScriptLint.Text.Blank

/-!
Tokens of a script. Together they cover it: blanks, line ends and comments are tokens too.
-/

namespace ScriptLint

inductive TokenKind
  /-- Blanks within a line, or a line break that a backtick cancels. -/
  | whitespace
  | newline
  | comment
  | semicolon
  | pipe
  /-- `&&` or `||` between two pipelines. -/
  | chain
  | ampersand
  | comma
  | openBrace
  | closeBrace
  | openParen
  | closeParen
  /-- `$(` -/
  | dollarParen
  /-- `@(` -/
  | atParen
  /-- `@{` -/
  | atBrace
  /-- `-Name`, or `-Name:` when `colon` is set. -/
  | parameter (colon : Bool)
  /-- `$name`, `${name}`, or the splatted `@name`. -/
  | variable
  /-- A quoted string or here-string. -/
  | string (unterminated : Bool)
  /-- `[Name]` with its brackets balanced. -/
  | typeLiteral
  /-- `>`, `2>>`, `2>&1` and the like. -/
  | redirection
  /-- Any other run of characters: names, paths, numbers, operators. -/
  | word
  deriving DecidableEq, Repr, Inhabited

namespace TokenKind

/-- Blanks and comments, which carry no syntax. -/
def isTrivia : TokenKind → Bool
  | whitespace | comment => true
  | _ => false

/-- Blanks, comments and line ends. -/
def isSpacing : TokenKind → Bool
  | newline => true
  | k => k.isTrivia

theorem isSpacing_of_isTrivia (k : TokenKind) (h : k.isTrivia) : k.isSpacing := by
  cases k with
  | newline => rfl
  | _ => exact h

/-- The tokens that open a group: a block, a hashtable or a parenthesis. -/
def isOpener : TokenKind → Bool
  | openBrace | atBrace | openParen | dollarParen | atParen => true
  | _ => false

def isCloser : TokenKind → Bool
  | closeBrace | closeParen => true
  | _ => false

/-- The tokens at which a command or an expression ends. -/
def isTerminator : TokenKind → Bool
  | newline | semicolon | pipe | chain | ampersand | closeBrace | closeParen => true
  | _ => false

end TokenKind

structure Token where
  kind : TokenKind
  text : String
  /-- The offset of the first byte. -/
  start : Nat
  deriving DecidableEq, Repr, Inhabited

namespace Token

def stop (t : Token) : Nat := t.start + t.text.utf8ByteSize

def span (t : Token) : Span := ⟨t.start, t.stop⟩

/-- The hyphen and the two longer dashes that scripts may write for it. -/
def isDash (c : Char) : Bool :=
  c = '-' || c = '\u2013' || c = '\u2014'

/-- The name in a parameter token, without its dash and its colon. -/
def parameterName (t : Token) : String :=
  let name := match t.text.toList with
    | [] => []
    | c :: cs => if isDash c then cs else c :: cs
  String.ofList <|
    if t.kind = .parameter true ∧ name.getLast? = some ':' then name.dropLast else name

/-- The token cut in two words, the first of them `n` bytes long. -/
def cut (t : Token) (n : Nat) : Token × Token :=
  ({ kind := .word, text := String.Pos.Raw.extract t.text 0 ⟨n⟩, start := t.start },
    { kind := .word, text := String.Pos.Raw.extract t.text ⟨n⟩ t.text.rawEndPos,
      start := t.start + n })

end Token

end ScriptLint
