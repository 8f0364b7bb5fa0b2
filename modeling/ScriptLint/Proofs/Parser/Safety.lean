import ScriptLint.Proofs.Parser.Safety.Group
import ScriptLint.Proofs.Syntax.Scan
import ScriptLint.Syntax.Parse

/-!
No script breaks a parse off. The lexer stays inside the text and cuts it between characters only, and
the run over its tokens comes to an end: each token that is taken is there, each span ends behind its
start, each word is cut between two characters, each loop moves on, and each group that is left has been
entered, so that none is open at the end.
-/

namespace ScriptLint

open ScriptLint.Parser Cursor

namespace Lexer

/-- The characters of a type literal never close more brackets than they have opened. -/
theorem count_le_of_prefix_text {source : String} {t : Token} (ht : t ∈ tokenize source)
    (hkind : t.kind = .typeLiteral) {p : List Char} (hp : p <+: t.text.toList) :
    p.count ']' ≤ p.count '[' := by
  obtain ⟨before, c, behind, -, rfl⟩ := exists_of_mem_tokensFrom ht
  obtain ⟨rfl, hlength⟩ := (Fits.scanned c behind).brackets hkind
  rw [toList_text_token, hlength] at hp
  cases p with
  | nil => exact Nat.le_refl _
  | cons d p =>
      obtain ⟨rfl, hprefix⟩ := List.cons_prefix_cons.mp hp
      have := count_le_of_prefix_typeLength (Nat.le_refl 1) hprefix
      rw [List.count_cons_of_ne (by decide), List.count_cons_self]
      omega

end Lexer

/-- Every run of a parse comes to its end, with all its groups left again. -/
theorem Parse.run_ends (source : String) :
    ∃ body c, run source = .ok (body, c) ∧ Reaches (.ofSource source) c :=
  ends_iff.mp (statements_ends (groups_safe maxNesting) (sound_ofSource source) none)

/-- The tree and the faults of a script are those of the run over it. -/
theorem parse_eq {source : String} {body : List Statement} {c : Cursor}
    (h : Parse.run source = .ok (body, c)) :
    parse source = ⟨⟨⟨body, ⟨0, c.size⟩⟩⟩, c.faults.toList⟩ := by
  unfold parse
  rw [h]

/-- A script is parsed without a breach. The run over its tokens ends with every group left again, and
what it ends with is what `parse` answers. No token takes characters that are not there, every place in
one that the lexer comes by stands between two characters of the script, and in a type literal no bracket
closes that is not open. The spans of tokens, the contents of strings and the digits of numbers are cut
inside their texts. -/
theorem parse_never_breaks_off (source : String) :
    (∃ body c, Parse.run source = .ok (body, c) ∧ c.depth = 0 ∧
        parse source = ⟨⟨⟨body, ⟨0, c.size⟩⟩⟩, c.faults.toList⟩) ∧
      (∀ c cs, (Lexer.scan c cs).2 ≤ cs.length) ∧
      (∀ t ∈ tokenize source, ∀ head tail, t.text = head ++ tail →
        String.Pos.Raw.IsValid source ⟨t.start + head.utf8ByteSize⟩) ∧
      (∀ t ∈ tokenize source, t.kind = .typeLiteral →
        ∀ p, p <+: t.text.toList → p.count ']' ≤ p.count '[') ∧
      (∀ t : Token, t.span.start ≤ t.span.stop) ∧
      (∀ text, Literal.contents text <:+: text.toList) ∧
      ∀ cs, (Literal.unsigned cs).head? = some '.' →
        String.Pos.Raw.IsValid (String.ofList (Literal.unsigned cs)) ⟨1⟩ := by
  obtain ⟨body, c, hrun, hreaches⟩ := Parse.run_ends source
  refine ⟨⟨body, c, hrun, hreaches.depth_eq, parse_eq hrun⟩, ?_, ?_, ?_, ?_, ?_, ?_⟩
  · exact fun c cs => (Lexer.Fits.scanned c cs).length_le
  · exact fun t ht head tail h => isValid_in_token ht head tail h
  · exact fun t ht hkind p hp => Lexer.count_le_of_prefix_text ht hkind hp
  · exact fun t => Nat.le_add_right _ _
  · exact Literal.contents_isInfix
  · exact fun cs => Literal.isValid_behind_point

end ScriptLint
