import ScriptLint.Dictionary
import ScriptLint.Text.Blank

/-!
Message templates: text with slots `{name}` that a context fills. A slot runs from an opening brace to
the first closing brace behind it, blanks around its name do not count, and a slot whose name the
context does not know stays as written. Values are never looked into for further slots.
-/

namespace ScriptLint.Template

/-- Fills the slots of a template; `slot` holds what stands behind the brace of a slot still open. -/
def fillFrom (context : Dictionary) : (slot : Option (List Char)) → List Char → List Char
  | none, [] => []
  | some name, [] => '{' :: name
  | none, c :: cs => if c = '{' then fillFrom context (some []) cs else c :: fillFrom context none cs
  | some name, c :: cs =>
    if c = '}' then
      match context.find? (String.ofList (Text.trim name)) with
      | some value => value.toList ++ fillFrom context none cs
      | none => '{' :: (name ++ '}' :: fillFrom context none cs)
    else fillFrom context (some (name ++ [c])) cs

def fill (template : String) (context : Dictionary) : String :=
  String.ofList (fillFrom context none template.toList)

end ScriptLint.Template
