import ScriptLint.Diagnostic.Json
import ScriptLint.Proofs.Json.Record

/-!
Spans, dictionaries and diagnostics are read back from JSON as they were written.
-/

namespace ScriptLint

open Json

/-- Both offsets of the span are 64 bits wide, as offsets are. -/
def Span.Fits (s : Span) : Prop := s.start < 0x10000000000000000 ∧ s.stop < 0x10000000000000000

instance (s : Span) : Decidable s.Fits := inferInstanceAs (Decidable (_ ∧ _))

theorem Span.ofJson?_toJson {s : Span} (h : s.Fits) : ofJson? s.toJson = some s := by
  have hnodup : ["start", "end"].Nodup := by decide
  have hrow : s.toJson = ofFields (row [("start", some (.nat s.start)), ("end", some (.nat s.stop))]) := rfl
  rw [hrow, ofJson?]
  refine fields?_bind rfl hnodup ?_
  refine get?_bind hnodup rfl (if_pos h.1) ?_
  exact get?_bind hnodup rfl (if_pos h.2) rfl

namespace Dictionary

/-- A name behind all the others goes to the end. -/
theorem insertEntry_of_lt {name value : String} {entries : List (String × String)}
    (h : ∀ e ∈ entries, e.1 < name) : insertEntry name value entries = entries ++ [(name, value)] := by
  induction entries with
  | nil => rfl
  | cons e rest ih =>
      obtain ⟨he, hrest⟩ := List.forall_mem_cons.mp h
      rw [insertEntry, if_neg (String.lt_asymm he), if_neg (String.ne_of_lt he).symm, ih hrest,
        List.cons_append]

/-- Entries in ascending order are put in one behind the other. -/
theorem entries_foldl_insert (rest : List (String × String)) (d : Dictionary)
    (h : (d.entries ++ rest).Pairwise (·.1 < ·.1)) :
    (rest.foldl (fun d e => d.insert e.1 e.2) d).entries = d.entries ++ rest := by
  induction rest generalizing d with
  | nil => exact (List.append_nil _).symm
  | cons e rest ih =>
      have hentries : (d.insert e.1 e.2).entries = d.entries ++ [e] :=
        insertEntry_of_lt fun a ha => (List.pairwise_append.mp h).2.2 a ha e List.mem_cons_self
      rw [List.foldl_cons, ih, hentries, List.append_assoc, List.singleton_append]
      rwa [hentries, List.append_assoc, List.singleton_append]

theorem ofList_entries (d : Dictionary) : ofList d.entries = d := by
  have hentries := entries_foldl_insert d.entries .empty d.ascending
  rw [← ofList] at hentries
  cases d
  exact mk.injEq _ _ _ _ ▸ hentries

theorem ofJson?_toJson (d : Dictionary) : ofJson? d.toJson = some d := by
  have hmembers : d.toJson = .obj (d.entries.map fun e => ⟨some e.1, .text e.2⟩) := by
    rw [toJson, ofFields_eq, List.map_map]
    rfl
  rw [hmembers, ofJson?]
  exact Option.bind_eq_some_iff.mpr ⟨d.entries, mapM_map_eq_some fun _ _ => rfl, congrArg some d.ofList_entries⟩

end Dictionary

namespace Diagnostic

def Fits (d : Diagnostic) : Prop := ∀ s ∈ d.span, s.Fits

theorem ofJson?_toJson {d : Diagnostic} (h : d.Fits) : ofJson? d.toJson = some d := by
  have hrow : d.toJson = ofFields (row [("rule_name", some (.text d.rule)),
      ("severity", some (.text d.severity.key)), ("message", some (.text d.message)),
      ("span", d.span.map Span.toJson), ("file", d.file.map .text),
      ("context", d.context.map Dictionary.toJson)]) := by
    simp [toJson, toFields, row, field?_some]
  have hnodup : ["rule_name", "severity", "message", "span", "file", "context"].Nodup := by decide
  rw [hrow, ofJson?]
  refine fields?_bind rfl hnodup ?_
  refine get?_bind hnodup rfl rfl ?_
  refine get?_bind hnodup rfl d.severity.ofKey?_key ?_
  refine get?_bind hnodup rfl rfl ?_
  refine getOption?_bind hnodup rfl (fun _ => rfl) (fun s hs => Span.ofJson?_toJson (h s hs)) ?_
  refine getOption?_bind hnodup rfl (fun _ => rfl) (fun _ _ => rfl) ?_
  exact getOption?_bind hnodup rfl (fun _ => rfl) (fun c _ => c.ofJson?_toJson) rfl

end Diagnostic

end ScriptLint
