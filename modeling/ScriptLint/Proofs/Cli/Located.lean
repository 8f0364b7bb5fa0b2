import ScriptLint.Cli.Run
import ScriptLint.Proofs.Json.Record
import ScriptLint.Proofs.Source.Position

/-!
Diagnostics with their lines and columns. Which line an offset is on, and where on it, follows from the line
feeds in front of it; the position is found whatever the text and the offset, no two offsets share one, and
positions are in the order of their offsets. A located diagnostic tells the position of its start, counted
from one, so all of this is true of what is printed.
-/

namespace ScriptLint

namespace Cli

def number? : Json → Option Nat
  | .nat n => some n
  | _ => none

/-- The line and the column in a located diagnostic; one without a span has neither. -/
def coordinates? (j : Json) : Option (Option Nat × Option Nat) := do
  let fields ← Json.fields? ["rule_name", "severity", "message", "span", "file", "context", "line", "column"] 8 j
  let line ← fields.getOption? "line" number?
  let column ← fields.getOption? "column" number?
  return (line, column)

theorem coordinates?_located (index : LineIndex) (d : Diagnostic) :
    let p? := d.span.map fun s => (index.position s.start).fromOne
    coordinates? (located index d) = some (p?.map Position.line, p?.map Position.column) := by
  intro p?
  have hrow : located index d = .ofFields (Json.row [("rule_name", some (.text d.rule)),
      ("severity", some (.text d.severity.key)), ("message", some (.text d.message)),
      ("span", d.span.map Span.toJson), ("file", d.file.map .text), ("context", d.context.map Dictionary.toJson),
      ("line", (p?.map Position.line).map .nat), ("column", (p?.map Position.column).map .nat)]) := by
    cases hspan : d.span <;>
      simp [located, Diagnostic.toFields, Json.row, Json.field?, Position.fromOne, p?, hspan]
  have hnodup :
      ["rule_name", "severity", "message", "span", "file", "context", "line", "column"].Nodup := by decide
  rw [hrow, coordinates?]
  refine Json.fields?_bind rfl hnodup ?_
  refine Json.getOption?_bind hnodup rfl (fun _ => rfl) (fun _ _ => rfl) ?_
  exact Json.getOption?_bind hnodup rfl (fun _ => rfl) (fun _ _ => rfl) rfl

end Cli

open LineIndex in
/-- The position of an offset, also of one past the end. Its line has the number of the line feeds among the
bytes in front of it, its column is counted from where the last of these ends, and no line feed stands between
the two. The table of the lines is in order and has one more than there are line feeds, and whatever finds the
number of the lines in it that start at the offset or in front of it finds this line, with its start never
behind the offset. Positions differ as their offsets do and are ordered as they are, and what is printed of
diagnostics are the positions of their starts, counted from one. -/
theorem line_feeds_tell_positions (text : String) :
    let bytes := Text.bytes text
    let index := LineIndex.ofText text
    (index.lineCount = bytes.count feed + 1 ∧ index.table.length = index.lineCount ∧
        index.table.Pairwise (· < ·)) ∧
      (∀ offset, let p := index.position offset
        p.line < index.lineCount ∧ p.line = (bytes.take offset).count feed ∧
          (∃ start, StartsLine bytes p.line start ∧ index.table[p.line]? = some start ∧
            start + p.column = offset) ∧
          (∀ i, offset - p.column ≤ i → i < offset → bytes[i]? ≠ some feed) ∧
          ∀ k, index.Splits offset k ↔ k = p.line + 1) ∧
      Function.Injective index.position ∧
      (∀ m n, (index.position m).Before (index.position n) ↔ m < n) ∧
      (∀ ds, ∃ js, Cli.locatedAll text ds = .arr js ∧
        js.map Cli.coordinates? = ds.map fun d =>
          let p? := d.span.map fun s => (index.position s.start).fromOne
          some (p?.map Position.line, p?.map Position.column)) ∧
      ∀ m n, (index.position m).fromOne.Before (index.position n).fromOne ↔ m < n := by
  intro bytes index
  refine ⟨⟨lineCount_eq text, length_table text, pairwise_table text⟩, fun offset => ?_,
    position_injective text, fun m n => position_before_iff text m, fun ds => ?_, fun m n => ?_⟩
  · obtain ⟨start, htable, hsum⟩ := table_line_position text offset
    exact ⟨index.position_line_lt offset, line_position text offset,
      ⟨start, startsLine_of_table text htable, htable, hsum⟩,
      fun i => not_feed_of_column text offset, fun k => splits_iff text offset⟩
  · refine ⟨_, rfl, ?_⟩
    rw [List.map_map]
    exact List.map_congr_left fun d _ => Cli.coordinates?_located index d
  · rw [Position.fromOne_before]
    exact position_before_iff text m

end ScriptLint
