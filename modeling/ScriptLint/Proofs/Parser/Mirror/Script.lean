import ScriptLint.Proofs.Parser.Mirror.Group
import ScriptLint.Proofs.Parser.Safety

/-!
Whole scripts side by side. If the tokens of the left script lie beside those of the right one, and nothing
stands behind them there, both scripts are parsed alike.
-/

namespace ScriptLint.Mirror

open ScriptLint.Parser ScriptLint.Parse Cursor

/-- All of the right script is the left one as it stands there. -/
structure Faces (M : Mirror) (source source' : String) : Prop where
  size_eq : M.size = source.utf8ByteSize
  size_eq' : M.size' = source'.utf8ByteSize
  offset_zero : M.offset 0 = 0
  tail_eq : M.tail = []
  unlimited : M.limit? = none
  beside : M.Beside true (tokenize source) (tokenize source')

namespace Faces

variable {M : Mirror} {source source' : String}

/-- A parse starts abreast in both scripts. -/
theorem abreast (h : M.Faces source source') :
    M.Abreast (M.Beside true) 0 True (.ofSource source) (.ofSource source') where
  sound := sound_ofSource source
  ahead := h.beside
  size_eq := h.size_eq.symm
  size_eq' := h.size_eq'.symm
  lastEnd_eq := fun _ => congrArg M.back h.offset_zero.symm
  faults_told := rfl
  recent := fun f hf => absurd hf (Array.not_mem_empty f)
  room := fun _ hl => absurd (h.unlimited.symm.trans hl) nofun

/-- Both scripts have the same tree and the same faults, as they are told, if the parse of the left one is
quiet. -/
theorem parse_agrees (h : M.Faces source source')
    (hquiet : ∀ c : Cursor, c.faults.toList = (parse source).faults → M.Quiet c) :
    M.Alike Telling.block (parse source).tree.body (parse source').tree.body ∧
      (parse source').faults.map M.right.fault = (parse source).faults.map M.left.fault := by
  obtain ⟨body, d, hrun, -⟩ := Parse.run_ends source
  obtain ⟨body', d', hrun', -⟩ := Parse.run_ends source'
  rw [parse_eq hrun] at hquiet ⊢
  rw [parse_eq hrun']
  have hlevels : M.Levels 0 (groups maxNesting) (groups maxNesting) :=
    levels_agree (.inl ⟨rfl, h.unlimited⟩)
  rcases statements_agrees hlevels (.inl rfl) h.abreast _ _ _ _ hrun hrun' (hquiet d rfl) with
    ⟨-, hstops⟩ | ⟨halike, hd⟩
  · exact absurd (.inl h.tail_eq) hstops
  have hsize : d'.size = M.offset d.size := by
    rw [hd.size_eq', hd.size_eq, M.size_eq h.tail_eq]
  have hspan : M.left.span ⟨0, d.size⟩ = M.right.span ⟨0, d'.size⟩ := by
    rw [hsize, View.span, View.span, right_offset]
    exact congrArg (Span.mk · _) (congrArg M.back h.offset_zero)
  refine ⟨?_, hd.faults_told⟩
  rw [Alike, Telling.block_mk, Telling.block_mk, halike, hspan]

/-- A right script that is told as it is has the tree and the faults of the left one. -/
theorem parse_eq (h : M.Faces source source')
    (hquiet : ∀ c : Cursor, c.faults.toList = (parse source).faults → M.Quiet c)
    (hright : M.right = ⟨View.whole, none⟩ := by exact rfl) :
    (parse source').tree.body = M.left.block (parse source).tree.body ∧
      (parse source').faults = (parse source).faults.map M.fault := by
  obtain ⟨htree, hfaults⟩ := h.parse_agrees hquiet
  have hfault : M.right.fault = id := by rw [hright]; rfl
  rw [hfault, List.map_id] at hfaults
  rw [Alike, hright] at htree
  exact ⟨(htree.trans (View.whole_block _)).symm, hfaults⟩

end Faces

end ScriptLint.Mirror
