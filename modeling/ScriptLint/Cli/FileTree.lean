/-!
File trees: files by their paths from the root, and how a path as it is written leads to one of them.
A folder is there when it holds something or when it is the one that paths start in. Dots stand for a
folder and for the one above it, and a slash asks for a folder in front of it.
-/

namespace ScriptLint.Cli

/-- Why a text could not be read. -/
inductive ReadFault
  | notFound
  /-- Something is looked for in a file. -/
  | notFolder
  /-- A folder stands where a file should. -/
  | isFolder
  | nameTooLong
  /-- The bytes of the file spell no text. -/
  | notText
  | failed (reason : String)
  deriving DecidableEq, Repr

def ReadFault.message : ReadFault → String
  | notFound => "No such file or directory (os error 2)"
  | notFolder => "Not a directory (os error 20)"
  | isFolder => "Is a directory (os error 21)"
  | nameTooLong => "File name too long (os error 36)"
  | notText => "stream did not contain valid UTF-8"
  | failed reason => reason

structure FileTree where
  /-- The text of each file, none if its bytes spell no text. -/
  files : List (List String × Option String)
  /-- The folder that relative paths start in. -/
  start : List String

namespace FileTree

/-- Where a path leads. -/
inductive Place
  | folder (path : List String)
  | file (text : Option String)
  deriving DecidableEq, Repr

def isFolder (t : FileTree) (path : List String) : Bool :=
  path.isPrefixOf t.start || t.files.any fun f => path.isPrefixOf f.1

/-- The most bytes that a name may have. -/
def maxName : Nat := 255

/-- The most bytes that a path may have. -/
def maxPath : Nat := 4095

/-- What a name leads to from a place. -/
def enter (t : FileTree) : Place → String → Except ReadFault Place
  | .file _, _ => .error .notFolder
  | .folder path, name =>
    if name = "" ∨ name = "." then .ok (.folder path)
    else if name = ".." then .ok (.folder path.dropLast)
    else if maxName < name.utf8ByteSize then .error .nameTooLong
    else
      let inner := path ++ [name]
      match t.files.lookup inner with
      | some text => .ok (.file text)
      | none => if t.isFolder inner then .ok (.folder inner) else .error .notFound

/-- Where a path leads to that is absolute if it starts with a slash. -/
def find (t : FileTree) (path : String) : Except ReadFault Place :=
  if path = "" then .error .notFound
  else if maxPath < path.utf8ByteSize then .error .nameTooLong
  else
    let first := if path.toList.head? = some '/' then [] else t.start
    (path.splitOn "/").foldlM t.enter (.folder first)

def read (t : FileTree) (path : String) : Except ReadFault String := do
  match ← t.find path with
  | .folder _ => throw .isFolder
  | .file none => throw .notText
  | .file (some text) => return text

end FileTree

end ScriptLint.Cli
