import ScriptLint.Syntax.Fault
import ScriptLint.Syntax.Lexer

/-!
Cursor: where a parse stands in a script, and the steps that move it. A step may ask for what its place
does not allow, a token behind the last one or a span that ends before it starts. Such a step breaks the
run off; no script makes a parse take one.
-/

namespace ScriptLint

structure Cursor where
  /-- The tokens ahead. -/
  rest : List Token
  /-- Where the last token passed ended, blanks, comments and line ends left out. -/
  lastEnd : Nat := 0
  /-- The length of the script in bytes. -/
  size : Nat
  /-- The number of groups around the cursor. -/
  depth : Nat := 0
  faults : Array Fault := #[]

namespace Cursor

def ofSource (source : String) : Cursor where
  rest := tokenize source
  size := source.utf8ByteSize

def kind? (c : Cursor) : Option TokenKind := c.rest.head?.map Token.kind

theorem kind?_eq_some {c : Cursor} {k : TokenKind} :
    c.kind? = some k ↔ ∃ t ts, c.rest = t :: ts ∧ t.kind = k := by
  unfold kind?
  cases c.rest with
  | nil => simp
  | cons t ts => simp

theorem kind?_of_rest {c : Cursor} {t : Token} {ts : List Token} (h : c.rest = t :: ts) :
    c.kind? = some t.kind :=
  kind?_eq_some.mpr ⟨t, ts, h, rfl⟩

theorem kind?_of_rest_nil {c : Cursor} (h : c.rest = []) : c.kind? = none := by
  rw [kind?, h]
  rfl

/-- Where the tokens ahead start. -/
def offset (c : Cursor) : Nat :=
  match c.rest with
  | [] => c.size
  | t :: _ => t.start

/-- The number of bytes ahead. -/
def remaining (c : Cursor) : Nat := c.size - c.offset

/-- Passes the token `t`, which `rest` follows. -/
def pass (c : Cursor) (t : Token) (rest : List Token) : Cursor :=
  { c with rest := rest, lastEnd := if t.kind.isSpacing then c.lastEnd else t.stop }

/-- Leaves the tokens of some kinds behind as if they were not there. -/
def skip (p : TokenKind → Bool) (c : Cursor) : Cursor :=
  { c with rest := c.rest.dropWhile fun t => p t.kind }

theorem skip_of_rest_nil {p : TokenKind → Bool} {c : Cursor} (h : c.rest = []) : c.skip p = c := by
  rw [skip, h, List.dropWhile_nil, ← h]

theorem skip_of_rest {p : TokenKind → Bool} {c : Cursor} {t : Token} {ts : List Token}
    (h : c.rest = t :: ts) (ht : p t.kind = false) : c.skip p = c := by
  rw [skip, h, List.dropWhile_cons_of_neg (by rw [ht]; exact Bool.false_ne_true), ← h]

def skipBlanks (c : Cursor) : Cursor := c.skip (· = .whitespace)

def skipSpacing (c : Cursor) : Cursor := c.skip TokenKind.isSpacing

def report (problem : Problem) (span : Span) (c : Cursor) : Cursor :=
  { c with faults := c.faults.push ⟨problem, span⟩ }

end Cursor

/-- What breaks a run off. -/
inductive Breach
  /-- There is no token where one is taken. -/
  | noToken
  /-- A span ends before it starts. -/
  | reversed (span : Span.Reversed)
  /-- A token is cut inside a character, or outside its text. -/
  | splitCharacter (token : Token) (offset : Nat)
  /-- A group is left that has not been entered. -/
  | unentered
  /-- A loop goes on although no byte has been passed. -/
  | stuck
  deriving DecidableEq, Repr

/-- A step of a parse: it moves a cursor and answers, or breaks off. -/
abbrev Parser := StateT Cursor (Except Breach)

namespace Parser

/-- The token ahead, which must be there. -/
def current : Parser Token := fun c =>
  match c.rest with
  | [] => .error .noToken
  | t :: _ => .ok (t, c)

/-- Passes the token ahead, which must be there. -/
def advance : Parser Token := fun c =>
  match c.rest with
  | [] => .error .noToken
  | t :: rest => .ok (t, c.pass t rest)

def skip (p : TokenKind → Bool) : Parser Unit := modify (Cursor.skip p)

def skipBlanks : Parser Unit := modify Cursor.skipBlanks

def skipSpacing : Parser Unit := modify Cursor.skipSpacing

/-- Cuts the token ahead in two words, the first of them `n` bytes long. -/
def cut (n : Nat) : Parser Unit := fun c =>
  match c.rest with
  | [] => .error .noToken
  | t :: rest =>
    if String.Pos.Raw.isValid t.text ⟨n⟩ then
      .ok ((), { c with rest := (t.cut n).1 :: (t.cut n).2 :: rest })
    else .error (.splitCharacter t n)

/-- The span between two offsets, which must stand in this order. -/
def span (start stop : Nat) : Parser Span := fun c =>
  match Span.between start stop with
  | .ok s => .ok (s, c)
  | .error e => .error (.reversed e)

/-- The span from an offset to the end of the last token passed. -/
def spanFrom (start : Nat) : Parser Span := do
  span start (← get).lastEnd

def report (problem : Problem) (span : Span) : Parser Unit := modify (Cursor.report problem span)

/-- Passes the token ahead and reports it. -/
def reportUnexpected : Parser Unit := do
  let t ← advance
  report (.unexpectedToken t.text) t.span

def enter : Parser Unit := modify fun c => { c with depth := c.depth + 1 }

def leave : Parser Unit := fun c =>
  match c.depth with
  | 0 => .error .unentered
  | depth + 1 => .ok ((), { c with depth := depth })

/-- What `m` reads inside a group. -/
def nested (m : Parser α) : Parser α := do
  enter
  let a ← m
  leave
  return a

/-- Does `body` again and again until it is done, `n` times at most. -/
def rounds (body : α → Parser (ForInStep α)) : (n : Nat) → α → Parser α
  | 0, _ => throw .stuck
  | n + 1, a => do
    match ← body a with
    | .done a => return a
    | .yield a => rounds body n a

/-- Does `body` again and again until it is done. A round after which another follows passes a byte at
least, so the bytes ahead bound their number. -/
def repeating (body : α → Parser (ForInStep α)) (a : α) : Parser α := do
  rounds body ((← get).remaining + 1) a

end Parser

end ScriptLint
