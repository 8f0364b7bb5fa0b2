import ScriptLint.Syntax.Parse.Group

/-!
The parse of a script. It never fails: every script has a tree, and what is wrong with the script is
told beside it.
-/

namespace ScriptLint

/-- What a parse makes of a script: its tree, and the faults in the order they were met. -/
structure Parsed where
  tree : Tree
  faults : List Fault

def Parsed.diagnostics (p : Parsed) : List Diagnostic := p.faults.map Fault.diagnostic

/-- The run of a parse over a script, to its end or to a breach. -/
def Parse.run (source : String) : Except Breach (List Statement × Cursor) :=
  (statements (groups maxNesting) none).run (.ofSource source)

/-- The tree of a script and its faults. No run breaks off, so the second case is never met. -/
def parse (source : String) : Parsed :=
  match Parse.run source with
  | .ok (body, c) => { tree := ⟨⟨body, ⟨0, c.size⟩⟩⟩, faults := c.faults.toList }
  | .error _ => { tree := ⟨default⟩, faults := [] }

end ScriptLint
