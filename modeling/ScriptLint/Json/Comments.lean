import ScriptLint.Text.Blank

/-!
JSON with comments: line and block comments, and a comma behind the last item of a container. Both are
blanked out rather than removed, so that whatever is left keeps its line and its column.
-/

namespace ScriptLint.Json

/-- What the next character stands in. -/
inductive Region
  | code
  | string
  /-- In a string, behind a backslash. -/
  | escape
  | lineComment
  | blockComment
  deriving DecidableEq, Repr

/-- A character of a comment, blanked out. -/
def blankOut (c : Char) : Char := if c = '\n' then '\n' else ' '

def blankCommentsFrom : Region → List Char → List Char
  | _, [] => []
  | .code, '/' :: '/' :: cs => ' ' :: ' ' :: blankCommentsFrom .lineComment cs
  | .code, '/' :: '*' :: cs => ' ' :: ' ' :: blankCommentsFrom .blockComment cs
  | .code, c :: cs => c :: blankCommentsFrom (if c = '\x22' then .string else .code) cs
  | .string, c :: cs =>
    c :: blankCommentsFrom
      (if c = '\\' then .escape else if c = '\x22' then .code else .string) cs
  | .escape, c :: cs => c :: blankCommentsFrom .string cs
  | .lineComment, c :: cs =>
    blankOut c :: blankCommentsFrom (if c = '\n' then .code else .lineComment) cs
  | .blockComment, '*' :: '/' :: cs => ' ' :: ' ' :: blankCommentsFrom .code cs
  | .blockComment, c :: cs => blankOut c :: blankCommentsFrom .blockComment cs

theorem blankComments_inLine (c : Char) (cs : List Char) : blankCommentsFrom .lineComment (c :: cs) =
    blankOut c :: blankCommentsFrom (if c = '\n' then .code else .lineComment) cs := by
  rw [blankCommentsFrom]

theorem blankComments_opensLine (cs : List Char) : blankCommentsFrom .code ('/' :: '/' :: cs) =
    ' ' :: ' ' :: blankCommentsFrom .lineComment cs :=
  rfl

theorem blankComments_opensBlock (cs : List Char) : blankCommentsFrom .code ('/' :: '*' :: cs) =
    ' ' :: ' ' :: blankCommentsFrom .blockComment cs :=
  rfl

theorem blankComments_closesBlock (cs : List Char) : blankCommentsFrom .blockComment ('*' :: '/' :: cs) =
    ' ' :: ' ' :: blankCommentsFrom .code cs :=
  rfl

/-- The text with its comments blanked out. -/
def blankComments (text : String) : String :=
  String.ofList (blankCommentsFrom .code text.toList)

/-- The next character that is not blank closes a container. -/
def closesNext (cs : List Char) : Bool :=
  (cs.find? (!Text.isBlank ·)).any fun c => c = '}' || c = ']'

/-- Blanks out the commas before a closing brace or bracket; comments have no place in the text. -/
def blankCommasFrom : Region → List Char → List Char
  | _, [] => []
  | .string, c :: cs =>
    c :: blankCommasFrom
      (if c = '\\' then .escape else if c = '\x22' then .code else .string) cs
  | .escape, c :: cs => c :: blankCommasFrom .string cs
  | region, c :: cs =>
    if c = '\x22' then c :: blankCommasFrom .string cs
    else (if c = ',' ∧ closesNext cs then ' ' else c) :: blankCommasFrom region cs

theorem blankCommas_code (c : Char) (cs : List Char) : blankCommasFrom .code (c :: cs) =
    if c = '\x22' then c :: blankCommasFrom .string cs
    else (if c = ',' ∧ closesNext cs then ' ' else c) :: blankCommasFrom .code cs := by
  rw [blankCommasFrom] <;> exact Region.noConfusion

/-- The text with the commas before a closing brace or bracket blanked out. -/
def blankTrailingCommas (text : String) : String :=
  String.ofList (blankCommasFrom .code text.toList)

/-- The text as strict JSON: without comments, then without trailing commas. -/
def undecorate (text : String) : String :=
  blankTrailingCommas (blankComments text)

end ScriptLint.Json
