import Mathlib.Data.List.Forall2
import ScriptLint.Proofs.Parser.Spelling
import ScriptLint.Proofs.Source.LineIndex
import ScriptLint.Proofs.Syntax.Spelling.Walk

/-!
Line ends. Whether the lines of a script end in a line feed alone or in a carriage return and a line feed
makes no difference: the tokens are of the same kinds, and everything is found on the same line and in the
same column as before.
-/

namespace ScriptLint

/-- Where a span starts in a text. -/
def Span.place (s : Span) (text : String) : Position := (LineIndex.ofText text).position s.start

/-- A carriage return is the last thing on its line, so nothing behind it changes its place. -/
theorem Position.along_returns (p : Position) (cs : List Char) (n : Nat) :
    p.along (Spelling.returns.chars cs) (Spelling.returns.offset cs n) = p.along cs n := by
  induction cs generalizing p n with
  | nil => rfl
  | cons c cs ih =>
      rw [Spelling.chars_cons, Spelling.offset]
      by_cases hc : c = '\n'
      · subst hc
        show p.along ('\r' :: '\n' :: Spelling.returns.chars cs) _ = _
        by_cases hn : n < '\n'.utf8Size
        · rw [if_pos hn, along_of_lt hn]
          exact along_of_lt hn
        · obtain ⟨m, rfl⟩ := Nat.exists_eq_add_of_le (Nat.not_lt.mp hn)
          rw [if_neg hn, Nat.add_sub_cancel_left, along_add, ← ih]
          have hreturn : String.utf8Len (Spelling.returns.char '\n') = '\r'.utf8Size + '\n'.utf8Size := rfl
          rw [hreturn, Nat.add_assoc, along_add, along_add]
          rfl
      · have hchar : Spelling.returns.char c = [c] := if_neg hc
        have hsize : String.utf8Len [c] = c.utf8Size := Nat.zero_add _
        rw [hchar, List.singleton_append, hsize]
        by_cases hn : n < c.utf8Size
        · rw [if_pos hn, along_of_lt hn, along_of_lt hn]
        · obtain ⟨m, rfl⟩ := Nat.exists_eq_add_of_le (Nat.not_lt.mp hn)
          rw [if_neg hn, Nat.add_sub_cancel_left, along_add, along_add, ih]

namespace Telling

/-- A script told with a carriage return in front of each line feed. -/
def returns (source : String) : Telling :=
  ⟨⟨Spelling.returns.offset source.toList, true⟩, some .returns⟩

variable {source : String}

theorem place_span_returns (s : Span) :
    ((returns source).span s).place (Spelling.returns.text source) = s.place source := by
  unfold Span.place
  rw [LineIndex.position_ofText, LineIndex.position_ofText, Spelling.toList_text]
  exact Position.along_returns _ _ _

theorem rule_diagnostic_fault (v : Telling) (f : Fault) : (v.fault f).diagnostic.rule = f.diagnostic.rule := by
  obtain ⟨u, _ | w⟩ := v
  · rfl
  · obtain ⟨problem, s⟩ := f
    cases problem <;> rfl

/-- The diagnostics tell the same checks, one after the other, at the same places. -/
theorem places_diagnostics_returns (fs : List Fault) :
    ((fs.map (returns source).fault).map Fault.diagnostic).map
        (fun d => (d.rule, d.span.map (·.place (Spelling.returns.text source)))) =
      (fs.map Fault.diagnostic).map fun d => (d.rule, d.span.map (·.place source)) := by
  rw [List.map_map, List.map_map, List.map_map]
  refine List.map_congr_left fun f _ => Prod.ext (rule_diagnostic_fault _ f) ?_
  exact congrArg some (place_span_returns f.span)

end Telling

/-- A script without carriage returns is read as the script that has one in front of each of its line feeds:
its tokens are of the same kinds, its diagnostics tell the same checks at the same lines and columns, and it
calls the same commands there, with the same elements. -/
theorem line_ends_agree {source : String} (h : '\r' ∉ source.toList) :
    let other := Spelling.returns.text source
    (tokenize other).map Token.kind = (tokenize source).map Token.kind ∧
    (parse other).diagnostics.map (fun d => (d.rule, d.span.map (·.place other))) =
      (parse source).diagnostics.map (fun d => (d.rule, d.span.map (·.place source))) ∧
    List.Forall₂ (fun i' i => i'.span.place other = i.span.place source ∧
        i'.commandName? = i.commandName?.map Spelling.returns.text ∧
        i'.elements = i.elements.map (Telling.returns source).element)
      (Walker.ofTree (parse other).tree).toList (Walker.ofTree (parse source).tree).toList := by
  intro other
  obtain ⟨hbody, hfaults⟩ := @parse_text .returns source fun _ => h
  refine ⟨?_, ?_, ?_⟩
  · rw [Spelling.tokenize_text fun _ => h, List.map_map]
    rfl
  · rw [Parsed.diagnostics, hfaults]
    exact Telling.places_diagnostics_returns _
  · have hcalls : (Walker.ofTree (parse other).tree).toList =
        (Walker.ofTree (parse source).tree).toList.map (Telling.returns source).invocation := by
      rw [View.toList_walker, View.toList_walker, ← Telling.named_statements, hbody,
        Telling.statements_block]
      rfl
    rw [hcalls, List.forall₂_map_left_iff, List.forall₂_same]
    intro i _
    refine ⟨?_, Telling.commandName?_invocation _ i, ?_⟩
    · obtain ⟨operator, head, es, rs, s⟩ := i
      rw [Telling.invocation_mk]
      exact Telling.place_span_returns s
    · obtain ⟨operator, head, es, rs, s⟩ := i
      rw [Telling.invocation_mk]

/-- A here-string, a comment, a line that a backtick goes on with, a string over two lines, and two faults. -/
theorem line_ends_agree_here_string :
    let source := "@'\nx\n'@ # y\nGet-Item \x60\n -Path \"a\x60\nb\"\n)\n'"
    let other := Spelling.returns.text source
    '\r' ∉ source.toList ∧
    (tokenize other).map Token.kind = (tokenize source).map Token.kind ∧
    (parse other).diagnostics.map (fun d => (d.rule, d.span.map (·.place other))) =
      [("PSParseUnexpectedToken", some ⟨6, 0⟩), ("PSParseUnterminatedString", some ⟨7, 0⟩)] ∧
    (Walker.ofTree (parse other).tree).toList.length = 1 := by
  intro source other
  have hsource : '\r' ∉ source.toList := by decide
  obtain ⟨hkinds, hplaces, hcalls⟩ := line_ends_agree hsource
  exact ⟨hsource, hkinds, hplaces.trans (by decide +kernel), hcalls.length_eq.trans (by decide +kernel)⟩

end ScriptLint
