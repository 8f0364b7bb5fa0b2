import ScriptLint.Proofs.Parser.Slices
import ScriptLint.Proofs.Syntax.Decode

/-!
What is written as JSON is read back: trees, diagnostics and catalog documents. Numbers have widths there,
which those of a script that is not too long have room in.
-/

namespace ScriptLint

theorem Span.In.fits {source : String} {s : Span} (h : s.In source)
    (hsize : source.utf8ByteSize < 0x10000000000000000) : s.Fits :=
  ⟨Nat.lt_of_le_of_lt (Nat.le_trans h.start_le_stop h.stop_le) hsize, Nat.lt_of_le_of_lt h.stop_le hsize⟩

/-- A script whose size is 64 bits wide gives a tree and diagnostics with such offsets only. -/
theorem fits_parse {source : String} (h : source.utf8ByteSize < 0x10000000000000000) :
    (parse source).tree.Fits ∧ ∀ d ∈ (parse source).diagnostics, d.Fits := by
  obtain ⟨body, c, hreads, -, hparse⟩ := exists_reads source
  obtain ⟨hc, hbody⟩ := hreads.standsIn (Cursor.sound_ofSource source) (Cursor.on_ofSource source)
  rw [hparse]
  constructor
  · rw [Tree.Fits, Part.all_iff, Part.parts_block]
    exact ⟨⟨Nat.zero_lt_of_lt h, h⟩, fun p hp q hq => (hbody p hp q hq).span_in.fits h⟩
  · intro d hd s hs
    obtain ⟨f, hf, rfl⟩ := List.mem_map.mp hd
    obtain rfl := Option.some.inj hs
    exact (hc.faults_in f (Array.mem_toList_iff.mp hf)).fits h

/-- Trees, diagnostics and catalog documents are read back as they were written, whatever they leave out and
however deeply they nest. A tree is written again as it was written before, and no two trees are written
alike. -/
theorem json_forms_lose_nothing :
    (∀ t : Tree, t.Fits → Tree.ofJson? t.toJson = some t) ∧
      (∀ d : Diagnostic, d.Fits → Diagnostic.ofJson? d.toJson = some d) ∧
      (∀ d : Document, d.Fits → Document.ofJson? d.toJson = some d) ∧
      (∀ t : Tree, t.Fits → (Tree.ofJson? t.toJson).map Tree.toJson = some t.toJson) ∧
      ∀ t u : Tree, t.Fits → u.Fits → t.toJson = u.toJson → t = u := by
  refine ⟨fun _ => Tree.ofJson?_toJson, fun _ => Diagnostic.ofJson?_toJson, fun _ => Document.ofJson?_toJson,
    ?_, ?_⟩
  · intro t h
    rw [Tree.ofJson?_toJson h]
    rfl
  · intro t u ht hu h
    refine Option.some.inj ?_
    calc some t = Tree.ofJson? t.toJson := (Tree.ofJson?_toJson ht).symm
      _ = Tree.ofJson? u.toJson := by rw [h]
      _ = some u := Tree.ofJson?_toJson hu

/-- A script with a group that is not closed, a fault in it, a document with a switch and an alias, and two
trees of the script and of a longer one. -/
theorem json_forms_lose_nothing_unclosed :
    let t := (parse "Get-Item -Path:($x 2> $null").tree
    let d : Diagnostic := { rule := "parse", severity := .parseError, message := "unclosed", span := some ⟨15, 27⟩ }
    let p : ParameterEntry := { name := "Force", isSwitch := true, declarations := [{ position := some 0 }] }
    let c : CommandEntry := { name := "Get-Item", kind := .cmdlet, parameters := [p] }
    let document : Document := { version := "1.0", commands := [c], aliases := .single "gi" "Get-Item" }
    (Tree.ofJson? t.toJson = some t ∧ (Tree.ofJson? t.toJson).map Tree.toJson = some t.toJson) ∧
      Diagnostic.ofJson? d.toJson = some d ∧ Document.ofJson? document.toJson = some document ∧
      (⟨⟨[], ⟨0, 1⟩⟩⟩ : Tree).toJson ≠ (⟨⟨[], ⟨0, 2⟩⟩⟩ : Tree).toJson := by
  have ht : (parse "Get-Item -Path:($x 2> $null").tree.Fits := (fits_parse (by decide)).1
  have hempty (s : Span) (hs : s.Fits) : (⟨⟨[], s⟩⟩ : Tree).Fits := Part.all_of_children_eq_nil hs rfl
  obtain ⟨htree, hdiagnostic, hdocument, hagain, hdistinct⟩ := json_forms_lose_nothing
  refine ⟨⟨htree _ ht, hagain _ ht⟩, hdiagnostic _ ?_, hdocument _ ?_, fun h => ?_⟩
  · simp [Diagnostic.Fits, Span.Fits]
  · simp [Document.Fits, CommandEntry.Fits, ParameterEntry.Fits, Declaration.Fits]
  · exact absurd (hdistinct _ _ (hempty _ (by decide)) (hempty _ (by decide)) h) nofun

end ScriptLint
