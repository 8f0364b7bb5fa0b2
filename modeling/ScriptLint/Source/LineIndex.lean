/-!
Line index: turns a byte offset into a line and a column, both counted from zero. A line ends after
its line feed, and an offset past the end of the text lies on the last line.
-/

namespace ScriptLint

/-- A place in a text; columns count bytes. -/
structure Position where
  line : Nat
  column : Nat
  deriving DecidableEq, Repr

/-- Where the lines of a text start, the first one left out. -/
structure LineIndex where
  starts : List Nat
  deriving DecidableEq, Repr

namespace LineIndex

/-- The offsets just after each line feed of a text whose first byte is at `offset`. -/
def startsFrom (offset : Nat) : List Char → List Nat
  | [] => []
  | c :: cs =>
    let next := offset + c.utf8Size
    if c = '\n' then next :: startsFrom next cs else startsFrom next cs

def ofText (text : String) : LineIndex := ⟨startsFrom 0 text.toList⟩

def lineCount (index : LineIndex) : Nat := index.starts.length + 1

def position (index : LineIndex) (offset : Nat) : Position :=
  let passed := index.starts.takeWhile (· ≤ offset)
  ⟨passed.length, offset - passed.getLastD 0⟩

theorem position_line_lt (index : LineIndex) (offset : Nat) :
    (index.position offset).line < index.lineCount :=
  Nat.lt_succ_of_le (List.takeWhile_sublist _).length_le

end LineIndex

end ScriptLint
