import ScriptLint.Proofs.Parser.OneStage
import ScriptLint.Proofs.Parser.Order
import ScriptLint.Proofs.Parser.Slices
import ScriptLint.Proofs.Syntax.Quoting

/-!
Commands that are named by a string. A name can be quoted so that the string stands for it whatever is in
it. Between double quotes the string may depend on variables, and then the call has no name; what the parse
takes for a variable there is not quite what the lexer does.
-/

namespace ScriptLint

open ScriptLint.Parser ScriptLint.Parse Cursor Literal

namespace Literal

/-- The string is written between double quotes, as a here-string or not. -/
def isDoubleQuoted (text : String) : Bool :=
  ['\x22'].isPrefixOf text.toList || ['@', '\x22'].isPrefixOf text.toList

theorem unquote_snd (text : String) :
    (unquote text).2 = (isDoubleQuoted text && expands ' ' (contents text)) := by
  unfold unquote isDoubleQuoted
  split
  case h_1 h | h_2 h | h_3 h | h_4 h => simp [h]
  case h_5 hhere _ hquote =>
    have hplain : ['\x22'].isPrefixOf text.toList = false := by
      refine Bool.eq_false_iff.mpr fun h => ?_
      obtain ⟨us, hus⟩ := List.isPrefixOf_iff_prefix.mp h
      exact hquote us hus.symm
    have hhere : ['@', '\x22'].isPrefixOf text.toList = false := by
      refine Bool.eq_false_iff.mpr fun h => ?_
      obtain ⟨us, hus⟩ := List.isPrefixOf_iff_prefix.mp h
      exact hhere us hus.symm
    rw [hplain, hhere]
    rfl

end Literal

/-- A call with a string as its head has no name if the string is written between double quotes and holds a
plain `$`. -/
theorem commandName?_of_string {source : String} {i : Invocation} (hi : i ∈ (parse source).tree.calls)
    {value : String} {expandable : Bool} {s : Span} (hhead : i.head = .stringLiteral value expandable s) :
    i.commandName? = none ↔ isDoubleQuoted (s.slice source) ∧ HoldsPlainDollar (contents (s.slice source)) := by
  have hnode : Node.invocation i ∈ (Node.block (parse source).tree.body).below := Node.mem_calls.mp hi
  have hwithin : Part.Within (.expression i.head) (.block (parse source).tree.body) :=
    Relation.ReflTransGen.tail (Part.within_of_within (Node.mem_below.mp hnode)) (by simp [Part.parts, Part.rows])
  have hsaid := ((parse_standsIn source).1 _ hwithin).2
  rw [hhead] at hsaid
  have hexpandable : expandable = (isDoubleQuoted (s.slice source) && expands ' ' (contents (s.slice source))) := by
    rw [← unquote_snd, show Literal.unquote (s.slice source) = (value, expandable) from hsaid]
  rw [Invocation.commandName?, hhead, ← expands_iff, ← Bool.and_eq_true, ← hexpandable]
  cases expandable <;> simp

/-- A script with the tokens of `& ` and a string. -/
theorem parse_called {source : String} {t : Token}
    (htokens : tokenize source = [⟨.ampersand, "&", 0⟩, ⟨.whitespace, " ", 1⟩, t])
    (ht : t.kind = .string false) :
    (parse source).diagnostics = [] ∧
      (parse source).tree.calls = [⟨some .call, t.stringLiteral, [], [], ⟨0, t.stop⟩⟩] := by
  obtain ⟨body, d, hrun, -⟩ := Parse.run_ends source
  have hrest : (ofSource source).rest = [⟨.ampersand, "&", 0⟩, ⟨.whitespace, " ", 1⟩, t] := htokens
  obtain ⟨e, hstage, hend, -, hsize, hfaults⟩ :=
    stage_of_called (g := groups maxNesting) hrest rfl rfl ht (Nat.zero_le _)
  have hstop : 0 < e.size := by
    have htiles := tiles_tokenize source
    rw [htokens] at htiles
    exact hsize ▸ Nat.lt_of_lt_of_le (htiles.start_lt_stop List.mem_cons_self) htiles.2.2.start_le
  obtain ⟨rfl, rfl⟩ := statements_of_stage hend hstage hrest (by decide) (by decide) rfl hstop hrun
  rw [parse_eq hrun, Parsed.diagnostics, hfaults]
  exact ⟨rfl, rfl⟩

/-- A text is taken to depend on variables if some `$` in it has no backtick in front of it. Such a `$` is
not escaped, and as long as no two backticks stand side by side the others are. The lexer takes no quote for
the end of a string that is escaped by the same rule. A call with a string as its head lacks a name if the
string holds such a `$` between double quotes. -/
theorem nameless_iff_plain_dollar (cs : List Char) :
    (expands ' ' cs ↔ HoldsPlainDollar cs) ∧ (HoldsPlainDollar cs → HoldsVariable cs) ∧
      (¬['\x60', '\x60'] <:+: cs → (expands ' ' cs ↔ HoldsVariable cs)) ∧
      (∀ n, Lexer.quotedLength '\x22' cs = (n, true) →
        ∃ body, cs.take n = body ++ ['\x22'] ∧ escapesNext body = false) ∧
      ∀ source, ∀ i ∈ (parse source).tree.calls, ∀ value expandable s,
        i.head = .stringLiteral value expandable s → contents (s.slice source) = cs →
          (i.commandName? = none ↔ isDoubleQuoted (s.slice source) ∧ HoldsPlainDollar cs) := by
  refine ⟨expands_iff cs, HoldsPlainDollar.holdsVariable, fun hcs => ?_,
    fun n => Lexer.escapesNext_of_quotedLength, ?_⟩
  · rw [expands_iff]
    exact ⟨HoldsPlainDollar.holdsVariable, fun h => h.holdsPlainDollar hcs⟩
  · rintro source i hi value expandable s hhead rfl
    exact commandName?_of_string hi hhead

/-- A call whose name depends on a variable. -/
theorem nameless_iff_plain_dollar_variable :
    ∃ i, (parse "& \x22$x\x22").tree.calls = [i] ∧ contents "\x22$x\x22" = ['$', 'x'] ∧
      i.commandName? = none := by
  have htokens : tokenize "& \x22$x\x22" =
      [⟨.ampersand, "&", 0⟩, ⟨.whitespace, " ", 1⟩, ⟨.string false, "\x22$x\x22", 2⟩] := by
    decide +kernel
  have hcalls := (parse_called htokens rfl).2
  have hplain : HoldsPlainDollar ['$', 'x'] := ⟨[], by decide, nofun⟩
  have hcontents : contents "\x22$x\x22" = ['$', 'x'] := by decide +kernel
  obtain ⟨-, -, -, -, hname⟩ := nameless_iff_plain_dollar ['$', 'x']
  refine ⟨_, hcalls, hcontents, ?_⟩
  refine (hname _ _ (hcalls ▸ List.mem_cons_self) _ _ _ rfl ?_).mpr ⟨?_, hplain⟩ <;> decide +kernel

/-- Behind a backtick that is escaped a `$` is not, but it is overlooked, so the name that depends on it
counts as fixed. -/
theorem escaped_backtick_hides_variable :
    (¬∀ cs, expands ' ' cs ↔ HoldsVariable cs) ∧
      (parse "& \x22\x60\x60$x\x22").tree.calls.map Invocation.commandName? = [some "\x60\x60$x"] := by
  refine ⟨fun h => ?_, by decide +kernel⟩
  have hholds : HoldsVariable ['\x60', '\x60', '$', 'x'] := ⟨['\x60', '\x60'], by decide, by decide⟩
  exact absurd ((h _).mpr hholds) (by decide)

theorem parse_braced {name : String} (hname : '\x7d' ∉ name.toList) :
    (parse (braced name)).diagnostics = [] ∧
      (parse (braced name)).tree.body.statements = [.pipeline
        ⟨[.expression (.variable name false ⟨0, (braced name).utf8ByteSize⟩)],
          ⟨0, (braced name).utf8ByteSize⟩⟩] := by
  let t : Token := ⟨.variable, braced name, 0⟩
  let c := ofSource (braced name)
  have hrest : c.rest = [t] := tokenize_braced hname
  obtain ⟨body, d, hrun, -⟩ := Parse.run_ends (braced name)
  have hlast : (c.pass t []).lastEnd = (braced name).utf8ByteSize := Nat.zero_add _
  have hstage : stage (groups maxNesting) c = .ok (some (.expression t.variableReference), c.pass t []) :=
    stage_of_operand hrest startsOperand_variable rfl (primary_of_variable hrest rfl)
      (groups_safe _) (sound_ofSource _)
  have hstop : 0 < (c.pass t []).size := by
    show 0 < (braced name).utf8ByteSize
    rw [braced, String.utf8ByteSize_append, String.utf8ByteSize_append]
    exact Nat.lt_of_lt_of_le (by decide) (Nat.le_add_left _ _)
  obtain ⟨rfl, rfl⟩ := statements_of_stage rfl hstage hrest (show TokenKind.variable ≠ .word by decide)
    (show TokenKind.variable ≠ .comment by decide) rfl hstop hrun
  rw [parse_eq hrun]
  refine ⟨rfl, ?_⟩
  have hname : t.variableReference = .variable name false ⟨0, (braced name).utf8ByteSize⟩ := by
    rw [Token.variableReference, variableName_braced]
    exact congrArg (fun stop => Expression.variable name false ⟨0, stop⟩) (Nat.zero_add _)
  rw [hlast, alone, hname]
  exact congrArg (fun stop => [Statement.pipeline ⟨_, ⟨0, stop⟩⟩]) (Nat.max_eq_left (Nat.zero_le _))

/-- What is written as a string is one token, and behind `& ` it calls the command that it names. -/
theorem Literal.Writes.reads_back {text s : String} (h : Writes text s) :
    tokenize text = [⟨.string false, text, 0⟩] ∧ (parse ("& " ++ text)).diagnostics = [] ∧
      ∃ i, (parse ("& " ++ text)).tree.calls = [i] ∧ i.commandName? = some s := by
  obtain ⟨c, cs, htext, hscan, hblank⟩ := h.scanned
  obtain ⟨hclean, hcalls⟩ := parse_called (tokenize_called htext hscan hblank) rfl
  refine ⟨tokenize_of_scan htext hscan, hclean, _, hcalls, ?_⟩
  simp [Invocation.commandName?, Token.stringLiteral, h.unquoted]

/-- Every text can be quoted so that it is read back. Between single quotes, its own ones doubled, it is one
string and names a command. So it is between double quotes if nothing in it is expanded or escaped, and in a
here-string if its lines do not end that and it does not end with a carriage return. And every name without
a closing brace is that of the variable which is written with the name in braces. -/
theorem quoting_round_trips :
    (∀ s, tokenize (quoted '\x27' s) = [⟨.string false, quoted '\x27' s, 0⟩] ∧
        (parse ("& " ++ quoted '\x27' s)).diagnostics = [] ∧
        ∃ i, (parse ("& " ++ quoted '\x27' s)).tree.calls = [i] ∧ i.commandName? = some s) ∧
      (∀ s : String, '$' ∉ s.toList → '\x60' ∉ s.toList →
        tokenize (quoted '\x22' s) = [⟨.string false, quoted '\x22' s, 0⟩] ∧
        (parse ("& " ++ quoted '\x22' s)).diagnostics = [] ∧
        ∃ i, (parse ("& " ++ quoted '\x22' s)).tree.calls = [i] ∧ i.commandName? = some s) ∧
      (∀ s : String, ¬['\n', '\x27', '@'] <:+: '\n' :: s.toList → s.toList.getLast? ≠ some '\r' →
        unquote (hereString s) = (s, false) ∧
        tokenize (hereString s) = [⟨.string false, hereString s, 0⟩] ∧
        (parse ("& " ++ hereString s)).diagnostics = [] ∧
        ∃ i, (parse ("& " ++ hereString s)).tree.calls = [i] ∧ i.commandName? = some s) ∧
      ∀ name : String, '\x7d' ∉ name.toList →
        tokenize (braced name) = [⟨.variable, braced name, 0⟩] ∧
        variableName (braced name) = (name, false) ∧ (parse (braced name)).diagnostics = [] ∧
        (parse (braced name)).tree.body.statements = [.pipeline
          ⟨[.expression (.variable name false ⟨0, (braced name).utf8ByteSize⟩)],
            ⟨0, (braced name).utf8ByteSize⟩⟩] := by
  refine ⟨fun s => (writes_quoted s).reads_back,
    fun s hdollar htick => (writes_doubleQuoted hdollar htick).reads_back,
    fun s hmark hreturn => ?_, fun name hname => ?_⟩
  · have hwrites := writes_hereString hmark hreturn
    exact ⟨hwrites.unquoted, hwrites.reads_back⟩
  · exact ⟨tokenize_braced hname, variableName_braced name, parse_braced hname⟩

/-- A text with quotes, a line end and what looks like the end of a here-string. -/
theorem quoting_round_trips_quotes :
    (∃ i, (parse ("& " ++ quoted '\x27' "it's\n'@")).tree.calls = [i] ∧
        i.commandName? = some "it's\n'@") ∧
      (∃ i, (parse ("& " ++ quoted '\x22' "a \x22b\x22")).tree.calls = [i] ∧
        i.commandName? = some "a \x22b\x22") ∧
      unquote (hereString "it's '@") = ("it's '@", false) ∧
      variableName (braced "a b:c") = ("a b:c", false) := by
  obtain ⟨hsingle, hdouble, hhere, hbraced⟩ := quoting_round_trips
  refine ⟨(hsingle _).2.2, (hdouble _ (by decide) (by decide)).2.2, ?_, ?_⟩
  · exact (hhere _ (by decide) (by decide)).1
  · exact (hbraced _ (by decide)).2.1

end ScriptLint
