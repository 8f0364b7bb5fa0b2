import ScriptLint.Proofs.Parser.Reading

/-!
What a parse without diagnostics says of a script. All of its tokens are one forest, the statements of the
tree, and what holds of forests holds of them.
-/

namespace ScriptLint

open Cursor

/-- What is read without a fault is a forest of the tokens passed. -/
theorem Reads.forest {k : Level} {b d : Cursor} {ps : List Part} (h : Reads k b ps d)
    (hd : d.faults = #[]) : ∃ ms, ms.Perm (ps.flatMap Part.nodes) ∧ Forest b.rest ms d.rest := by
  induction h with
  | nil => exact ⟨[], .nil, .nil⟩
  | passing hpassing =>
      cases hpassing with
      | aside hrest ht | leave hrest ht => exact ⟨[], .nil, by rw [hrest]; exact .aside ht .nil⟩
      | cut hrest ht => exact ⟨[], .nil, by rw [hrest]; exact .cut ht .nil⟩
      | stray | lacking => exact absurd hd faults_report_ne
  | append h h' ih ih' =>
      obtain ⟨ms', hms', hbehind⟩ := ih' hd
      obtain ⟨ms, hms, hfront⟩ := ih (h'.no_faults hd)
      exact ⟨ms ++ ms', by simpa using hms.append hms', hfront.append hbehind⟩
  | operand hrest ht => exact ⟨_, .refl _, by rw [hrest]; exact .operand ht .nil⟩
  | @comment _ _ t ts hrest ht =>
      have haside : Forest (t :: ts) [] ts := .aside (by rw [ht]; rfl) .nil
      exact ⟨_, .refl _, by rw [hrest]; exact .joint rfl haside .nil .nil⟩
  | @joint _ _ _ p _ _ hp ih =>
      obtain ⟨ms, hms, hforest⟩ := ih hd
      have hparts := hms.trans (hp.holds.perm.flatMap_right Part.nodes)
      rw [List.map_nil, List.append_nil] at hparts
      cases p with
      | node n =>
          rw [Part.flatMap_nodes_parts] at hparts
          exact ⟨[n], .refl _, .joint (Part.isJoint_of_isJoint_node hp.joint) hforest hparts .nil⟩
      -- neither an element nor a redirection is a node: there are only those in it
      | element e | redirection r =>
          exact ⟨ms, by simpa [Part.parts, Part.rows, Part.nodes] using hparts, hforest⟩
  | @group _ _ _ _ _ _ _ _ n _ _ hrest hn _ hholds hcloser ih =>
      obtain ⟨ms, hms, hforest⟩ := ih hd
      have hparts := hms.trans (hholds.perm.flatMap_right Part.nodes)
      rw [List.flatMap_append, Part.flatMap_nodes_parts,
        Part.flatMap_nodes_map_node Node.expression] at hparts
      obtain ⟨ms', hms', hforest'⟩ := hforest.drop_all hparts
      rw [hcloser] at hforest'
      exact ⟨[n], .refl _, by rw [hrest]; exact .group hn hforest' hms' .nil⟩
  | unclosed | cutOff | tooDeep | bodiless => exact absurd hd faults_report_ne

theorem Parsed.diagnostics_eq_nil {p : Parsed} : p.diagnostics = [] ↔ p.faults = [] :=
  List.map_eq_nil_iff

/-- The tokens of a script without diagnostics form the statements of its tree. -/
theorem forest_of_no_diagnostics {source : String} (h : (parse source).diagnostics = []) :
    ∃ ms, ms.Perm ((parse source).tree.body.statements.map Node.statement) ∧
      Forest (tokenize source) ms [] := by
  obtain ⟨body, d, hreads, hend, hparse⟩ := exists_reads source
  have hfaults := Parsed.diagnostics_eq_nil.mp h
  rw [hparse] at hfaults ⊢
  obtain ⟨ms, hms, hforest⟩ := hreads.forest (Array.toList_eq_nil_iff.mp hfaults)
  rw [hend] at hforest
  rw [Part.flatMap_nodes_map_node Node.statement] at hms
  exact ⟨ms, hms, hforest⟩

/-- A script that is parsed without diagnostics is well bracketed. Its openers and closers are nested,
each opener closed by a closer of its own, no string is left open, and every group of the tree below the
script itself spans from its opener to the closer of this opener. -/
theorem well_bracketed_of_no_diagnostics {source : String}
    (h : (parse source).diagnostics = []) :
    Nested (brackets (tokenize source)) ∧
      (∀ t ∈ tokenize source, t.kind ≠ .string true) ∧
      ∀ s ∈ (parse source).tree.body.statements, ∀ n, Node.Within n (.statement s) →
        n.Bracketed (brackets (tokenize source)) := by
  obtain ⟨ms, hms, hforest⟩ := forest_of_no_diagnostics h
  obtain ⟨bs, hbs, hnested, hnodes⟩ := hforest.nested
  obtain rfl : brackets (tokenize source) = bs := hbs.trans (List.append_nil bs)
  refine ⟨hnested, ?_, ?_⟩
  · intro t ht hkind
    exact List.not_mem_nil (hforest.mem_of_unterminated ht hkind)
  · intro s hs
    exact hnodes _ (hms.mem_iff.mpr (List.mem_map_of_mem hs))

theorem well_bracketed_call :
    (parse "& { (1) }").diagnostics = [] ∧ Nested (brackets (tokenize "& { (1) }")) :=
  ⟨by decide +kernel, (well_bracketed_of_no_diagnostics (by decide +kernel)).1⟩

end ScriptLint
