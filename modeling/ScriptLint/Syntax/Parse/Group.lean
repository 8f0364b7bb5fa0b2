import ScriptLint.Syntax.Parse.Statement

/-!
Groups. A group holds statements, whose groups stand one level deeper; the number of levels left decides
how a group is read, so that the recursion ends with the levels. A group past the last level is passed
over and reported.
-/

namespace ScriptLint.Parse

open ScriptLint.Parser

/-- How deeply groups may nest. -/
def maxNesting : Nat := 128

/-- How many groups are open behind a token that stands inside `depth` of them. -/
def depthBehind (depth : Nat) (k : TokenKind) : Nat :=
  if k.isOpener then depth + 1 else if k.isCloser then depth - 1 else depth

/-- The number of tokens through the one that closes as many groups as have been opened. -/
def groupLength? (depth : Nat) : List Token → Option Nat
  | [] => none
  | t :: rest =>
    if depthBehind depth t.kind = 0 then some 1
    else (groupLength? (depthBehind depth t.kind) rest).map (· + 1)

/-- Passes `n` tokens. -/
def passTokens : (n : Nat) → Parser Unit
  | 0 => return ()
  | n + 1 => do
    let _ ← advance
    passTokens n

/-- Passes a group over and reports it; one that is not closed takes the rest of the script. -/
def skipGroup : Parser Span := do
  let opener ← current
  let rest := (← get).rest
  passTokens ((groupLength? 0 rest).getD rest.length)
  let past ← get
  let s ← span opener.start (if (groupLength? 0 rest).isSome then past.lastEnd else past.size)
  report (.nestingTooDeep maxNesting) s
  return s

/-- Passes the closer of a group, or reports that it is missing; tells where the group ends. -/
def expectCloser (closer : Closer) : Parser Nat := do
  let c ← get
  if c.kind? = some (closerKind closer) then
    return (← advance).stop
  else
    report (.missingCloser closer) (.empty c.size)
    return c.size

/-- The tokens between two entries of a hashtable. -/
def separatesEntries : TokenKind → Bool
  | .semicolon => true
  | k => k.isSpacing

/-- The tokens that may follow a key without a value. -/
def endsKey : TokenKind → Bool
  | .closeBrace | .newline | .semicolon => true
  | _ => false

/-- The key that a word starts with, if an equals sign follows the key in the word. -/
def keyOf? (t : Token) : Option (List Char) :=
  let key := t.text.toList.takeWhile (· ≠ '=')
  if t.kind = .word ∧ key ≠ [] ∧ key.length < t.text.toList.length then some key else none

/-- Cuts the word ahead behind the key that it starts with. -/
def cutKey (t : Token) : Parser Unit :=
  match keyOf? t with
  | none => pure ()
  | some key => cut (String.ofList key).utf8ByteSize

/-- Reads what follows the key of an entry. -/
def entryValue (g : Groups) (key : Expression) (entries : Array Entry) : Parser (Array Entry) := do
  skipBlanks
  match (← get).rest with
  | [] => return entries
  | t :: _ =>
    if t.kind = .word ∧ t.text.toList.head? = some '=' then
      let operator ← passOperator 1
      return entries.push ⟨key, ← assignedValue g operator.stop⟩
    else if endsKey t.kind then
      return entries
    else
      reportUnexpected
      return entries

/-- Reads the next entry of a hashtable. -/
def hashtableRound (g : Groups) (entries : Array Entry) : Parser (ForInStep (Array Entry)) := do
  skip separatesEntries
  match (← get).rest with
  | [] => return .done entries
  | t :: _ =>
    if t.kind = .closeBrace then
      return .done entries
    else
      cutKey t
      match ← primary g with
      | none =>
        reportUnexpected
        return .yield entries
      | some key => return .yield (← entryValue g key entries)

/-- Entries up to the closing brace, or to the end of the script. -/
def entries (g : Groups) : Parser (List Entry) := do
  let entries ← repeating (hashtableRound g) #[]
  return entries.toList

/-- How groups are read with `levels` levels of nesting left. -/
def groups : (levels : Nat) → Groups
  | 0 => {
      block := return ⟨[], ← skipGroup⟩
      subexpression := do
        let opener ← current
        return .subexpression opener.text [] (← skipGroup)
      hashtable := return .hashtable [] (← skipGroup) }
  | levels + 1 => {
      block := do
        let t ← advance
        let body ← nested (statements (groups levels) (some .brace))
        return ⟨body, ← span t.start (← expectCloser .brace)⟩
      subexpression := do
        let t ← advance
        let body ← nested (statements (groups levels) (some .paren))
        return .subexpression t.text body (← span t.start (← expectCloser .paren))
      hashtable := do
        let t ← advance
        let body ← nested (entries (groups levels))
        return .hashtable body (← span t.start (← expectCloser .brace)) }

end ScriptLint.Parse
