import ScriptLint.Proofs.Parser.Brackets
import ScriptLint.Proofs.Parser.Composition
import ScriptLint.Proofs.Syntax.Marks

/-!
Tokens that run away with the rest of a script. A parse reports a string without its mark, and it reports the
group that a token without its mark stands in, for the group is not closed any more. Of a block comment or a
variable in braces outside of all groups it has nothing to say.
-/

namespace ScriptLint

open ScriptLint.Parser ScriptLint.Parse Cursor

/-- In a script without diagnostics every string, block comment and variable in braces ends with its mark,
if only the last token of the script does. If the last token does not, it is a comment or a variable, its mark
stands nowhere behind its beginning, and all groups that are opened in front of it are closed there. So a
string that runs away is always reported, and so is a comment or a variable that does with a group open. -/
theorem clean_parse_closes_tokens {source : String} (h : (parse source).diagnostics = []) :
    ((∀ t ∈ tokenize source, t.Closed) ↔ ∀ t ∈ (tokenize source).getLast?, t.Closed) ∧
      ∀ before t behind, tokenize source = before ++ t :: behind → ¬t.Closed →
        behind = [] ∧ Nested (brackets before) ∧ (t.kind = .comment ∨ t.kind = .variable) ∧ t.RunsOut := by
  constructor
  · refine ⟨fun hall t ht => hall t (List.mem_of_getLast? ht), fun hlast t ht => ?_⟩
    obtain ⟨before, behind, hsplit⟩ := List.append_of_mem ht
    rcases closed_or_last hsplit with hclosed | ⟨rfl, -⟩
    · exact hclosed
    · exact hlast t (by rw [hsplit, List.getLast?_concat]; rfl)
  · intro before t behind hsplit hclosed
    obtain ⟨rfl, hkind⟩ := (closed_or_last hsplit).resolve_left hclosed
    obtain ⟨ms, -, hforest⟩ := forest_of_no_diagnostics h
    have hstring : t.kind ≠ .string true := fun hstring =>
      List.not_mem_nil (hforest.mem_of_unterminated (hsplit ▸ List.mem_append_right _ List.mem_cons_self) hstring)
    obtain ⟨hkind, hruns⟩ := hkind.resolve_left hstring
    obtain ⟨bs, hbs, hnested, -⟩ := hforest.nested
    have hbracket : t.kind.isBracket = false := by rcases hkind with hkind | hkind <;> rw [hkind] <;> rfl
    have hbefore : brackets (before ++ [t]) = brackets before := by
      rw [brackets, List.filter_append, List.filter_singleton, hbracket]
      exact List.append_nil _
    have hall : brackets before = bs := by
      rw [← hbefore, ← hsplit, hbs]
      exact List.append_nil bs
    exact ⟨rfl, hall ▸ hnested, hkind, hruns⟩

theorem clean_parse_closes_tokens_copy :
    ((parse "Copy-Item <# all #> $\x7bfrom\x7d 'to'").diagnostics = [] ∧
        ∀ t ∈ tokenize "Copy-Item <# all #> $\x7bfrom\x7d 'to'", t.Closed) ∧
      let before := [⟨.openParen, "(", 0⟩, ⟨.word, "1", 1⟩, ⟨.closeParen, ")", 2⟩]
      let t : Token := ⟨.comment, "<# no end", 3⟩
      (parse "(1)<# no end").diagnostics = [] ∧ tokenize "(1)<# no end" = before ++ [t] ∧
        Nested (brackets before) ∧ t.RunsOut := by
  have hcopy : (parse "Copy-Item <# all #> $\x7bfrom\x7d 'to'").diagnostics = [] := by decide +kernel
  have hopen : (parse "(1)<# no end").diagnostics = [] := by decide +kernel
  have htokens : tokenize "(1)<# no end" = [⟨.openParen, "(", 0⟩, ⟨.word, "1", 1⟩, ⟨.closeParen, ")", 2⟩] ++
      [⟨.comment, "<# no end", 3⟩] := by decide +kernel
  refine ⟨⟨hcopy, (clean_parse_closes_tokens hcopy).1.mpr (by decide +kernel)⟩, hopen, htokens, ?_⟩
  obtain ⟨-, hnested, -, hruns⟩ := (clean_parse_closes_tokens hopen).2 _ _ _ htokens (by decide +kernel)
  exact ⟨hnested, hruns⟩

/-- A block comment that is not closed swallows the script unseen. -/
theorem open_comment_unreported :
    ¬∀ source, (parse source).diagnostics = [] →
      ∀ t ∈ tokenize source, t.kind = .comment ∨ t.kind = .variable → t.Closed := by
  intro h
  have hclosed := h "<# Get-Item" (by decide +kernel) ⟨.comment, "<# Get-Item", 0⟩ (by decide +kernel) (.inl rfl)
  exact absurd hclosed (by decide +kernel)

/-- Whatever stands behind a script without diagnostics, a semicolon and the beginning of a block comment
that is not closed, there are no diagnostics, and all that a parse makes of it is a comment. -/
theorem parse_append_open_comment {s text : String} (hclean : (parse s).diagnostics = [])
    (hsemicolon : ∃ t, t.kind = .semicolon ∧ tokenize (s ++ ";") = tokenize s ++ [t])
    (htext : ¬['#', '>'] <:+: text.toList) :
    let source := s ++ ";" ++ ("<#" ++ text)
    let comment : Token := ⟨.comment, "<#" ++ text, s.utf8ByteSize + 1⟩
    (parse source).diagnostics = [] ∧
      (parse source).tree.body.statements =
        (parse s).tree.body.statements ++ [.trivia comment.text comment.span] := by
  intro source comment
  obtain ⟨t, hkind, hstart, htokens⟩ := tokenize_append ("<#" ++ text) hsemicolon
  have hmove : (tokenize ("<#" ++ text)).map (Token.move (s.utf8ByteSize + 1)) = [comment] := by
    rw [tokenize_open_comment htext]
    exact congrArg (fun start => [Token.mk .comment ("<#" ++ text) start]) (Nat.zero_add _)
  obtain ⟨_, d₁, hrun₁, -⟩ := Parse.run_ends s
  obtain ⟨_, d, hrun, -⟩ := Parse.run_ends source
  obtain ⟨n₁, r₁, hrounds₁, rfl⟩ := Mirror.statements_eq_ok hrun₁
  obtain ⟨n, r, hrounds, rfl⟩ := Mirror.statements_eq_ok hrun
  have hfaults₁ : d₁.faults = #[] := by
    rw [parse_eq hrun₁] at hclean
    exact Array.toList_inj.mp (List.map_eq_nil_iff.mp hclean)
  rw [hmove] at htokens
  -- the loop comes past the semicolon and past the comment, and then there is nothing left
  obtain ⟨c, hrest, hfaults, -, hleads⟩ :=
    Parse.leads_past_semicolon hrounds₁ hfaults₁ hkind hstart htokens hrounds
  obtain ⟨m, -, hrounds⟩ := (hleads.trans (Mirror.leads_comment _ none r₁ hrest rfl)) _ _ hrounds
  obtain ⟨_, _, _, -, hround, hend⟩ := Mirror.Leads.rounds_eq_ok hrounds
  rw [Mirror.statementsRound_of_stops _ _ (.inl rfl)] at hround
  cases hround
  cases hend
  rw [parse_eq hrun, parse_eq hrun₁]
  exact ⟨congrArg (fun faults => faults.toList.map Fault.diagnostic) hfaults, Array.toList_push⟩

end ScriptLint
