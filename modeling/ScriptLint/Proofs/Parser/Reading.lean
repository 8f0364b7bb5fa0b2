import ScriptLint.Proofs.Parser.Reading.Group
import ScriptLint.Proofs.Parser.Safety

/-!
A parse reads the statements of its tree, from the first token of a script to the last, with as many
groups around each other as may be nested. Whatever is said of trees and of faults can be shown of what is
read, step by step.
-/

namespace ScriptLint

open ScriptLint.Parser Cursor

/-- What a parse answers has been read, to the end of the script. -/
theorem exists_reads (source : String) :
    ∃ body d, Reads ⟨Parse.maxNesting, none⟩ (.ofSource source) (body.map .statement) d ∧ d.rest = [] ∧
      parse source = ⟨⟨⟨body, ⟨0, source.utf8ByteSize⟩⟩⟩, d.faults.toList⟩ := by
  obtain ⟨body, d, hrun, hreaches⟩ := Parse.run_ends source
  obtain ⟨hreads, hend⟩ := gives_iff.mp (Parse.statements_reads
    (Parse.groups_read Parse.maxNesting none) (sound_ofSource source) rfl) body d hrun
  refine ⟨body, d, hreads, ?_, ?_⟩
  · obtain hrest | ⟨cl, hcl, -⟩ := hend
    · exact hrest
    · cases hcl
  · rw [parse_eq hrun, hreaches.size_eq]
    rfl

end ScriptLint
