import ScriptLint.Catalog.Index
import ScriptLint.Catalog.Standard
import ScriptLint.Lint
import ScriptLint.Proofs.Diagnostic.Case
import ScriptLint.Proofs.Parser.Spelling
import ScriptLint.Proofs.Rule.CmdletUse
import ScriptLint.Proofs.Syntax.Spelling.Walk

/-!
Linting and the case of letters. A catalog answers for a name whatever its case, and so the verdict on a call
does not depend on the case of the command and of its parameters. Two scripts that differ in the case of
letters only get the same diagnostics, but for what these quote.
-/

namespace ScriptLint

/-- The provider gives the same answers whatever the case of a name. -/
def Provider.IgnoresCase (p : Provider) : Prop :=
  ∀ name, p.alias? (Text.fold name) = p.alias? name ∧ p.metadata (Text.fold name) = p.metadata name

theorem Catalog.ignoresCase_provider (c : Catalog) : c.provider.IgnoresCase := by
  intro name
  constructor
  · show c.alias? (Text.fold name) = c.alias? name
    rw [alias?, alias?, Text.fold_fold]
  · show c.metadata (Text.fold name) = c.metadata name
    rw [metadata, metadata, Text.fold_fold]

theorem Provider.IgnoresCase.resolve_fold {p : Provider} (h : p.IgnoresCase) (name : String) :
    p.resolve (Text.fold name) = p.resolve name := by
  unfold resolve resolveDirectly
  rw [(h name).1, (h name).2]

@[simp] theorem isSwitch_fold (command : Option Command) (name : String) :
    isSwitch command (Text.fold name) = isSwitch command name := by
  simp only [isSwitch, Command.parameter?, Text.sameName_fold]

theorem MandatorySet.contains_fold (s : MandatorySet) (name : String) :
    s.contains (Text.fold name) = s.contains name := by
  simp only [contains, Text.sameName_fold]

namespace Spelling

theorem parameterName?_element (w : Spelling) (e : Element) :
    (w.element e).parameterName? = e.parameterName?.map w.text := by
  cases e <;> rfl

theorem takes_folded (command : Option Command) (e : Element) :
    (folded.element e).Takes command ↔ e.Takes command := by
  simp only [Element.Takes, ← isSwitch_eq_false_iff]
  constructor
  · rintro ⟨name, span, he, hswitch⟩
    rcases e with ⟨name', _ | _, _⟩ | _
    · obtain ⟨rfl, -, rfl⟩ := Element.parameter.inj he
      rw [folded_text, isSwitch_fold] at hswitch
      exact ⟨name', _, rfl, hswitch⟩
    · cases he
    · cases he
  · rintro ⟨name, span, rfl, hswitch⟩
    exact ⟨folded.text name, span, rfl, by rw [folded_text, isSwitch_fold, hswitch]⟩

theorem bindsByPosition_folded (i : Invocation) (command : Option Command) :
    (folded.invocation i).bindsByPosition command = i.bindsByPosition command := by
  obtain ⟨operator, head, es, rs, s⟩ := i
  rw [invocation, elements_eq]
  refine any_isPositional_bind_map (fun e => ?_) (takes_folded command) es
  rw [parameterName?_element, Option.map_eq_none_iff]

theorem namedParameters_folded (i : Invocation) (command : Option Command) :
    (folded.invocation i).namedParameters command = (i.namedParameters command).map Text.fold := by
  obtain ⟨operator, head, es, rs, s⟩ := i
  simp only [Invocation.namedParameters_eq, invocation, elements_eq, List.filterMap_map, List.map_filterMap]
  congr 1
  funext e
  rw [Function.comp_apply, parameterName?_element]
  exact congrArg (Option.map · _) (funext folded_text)

end Spelling

/-- The verdict with the name that the script uses in small letters. -/
def Verdict.fold : Verdict → Verdict
  | conformant reason => conformant reason
  | nonConformant command resolved => nonConformant (Text.fold command) resolved

namespace CmdletUse

open Spelling

variable {p : Provider} {i : Invocation}

theorem checkResolved_folded (i : Invocation) (name : String) (c : Command) :
    checkResolved (folded.invocation i) (Text.fold name) c = (checkResolved i name c).fold := by
  have hany : ((i.namedParameters (some c)).map Text.fold).any (MandatorySet.ofCommand c).contains =
      (i.namedParameters (some c)).any (MandatorySet.ofCommand c).contains := by
    rw [List.any_map]
    exact congrArg (List.any _) (funext (MandatorySet.ofCommand c).contains_fold)
  simp only [checkResolved, bindsByPosition_folded, namedParameters_folded, hany]
  split_ifs <;> rfl

theorem check_folded (h : p.IgnoresCase) (i : Invocation) :
    check p (folded.invocation i) = (check p i).fold := by
  rw [check, check, commandName?_invocation]
  cases i.commandName? with
  | none => rfl
  | some name =>
      simp only [Option.map_some, folded_text, h.resolve_fold]
      cases p.resolve name with
      | resolved c => exact checkResolved_folded i name c
      | unresolved => rfl
      | fault f => rfl

theorem fold_context (command resolved : String) :
    (context (Text.fold command) resolved).fold = (context command resolved).fold := by
  simp only [context, Text.sameName_fold]
  split
  · rw [Dictionary.fold_single, Dictionary.fold_single, Text.fold_fold]
  · rw [Dictionary.fold_insert, Dictionary.fold_insert, Dictionary.fold_single, Dictionary.fold_single,
      Text.fold_fold]

theorem warning?_folded (h : p.IgnoresCase) (file : String) (i : Invocation) :
    (warning? p file (folded.invocation i)).map Diagnostic.fold =
      (warning? p file i).map Diagnostic.fold := by
  rw [warning?, warning?, check_folded h]
  cases check p i with
  | conformant reason => rfl
  | nonConformant command resolved =>
      have hspan : (folded.invocation i).span = i.span := by cases i; rfl
      simp only [Verdict.fold, Option.map_some, warning, Diagnostic.fold_inFile, hspan,
        Check.fold_diagnostic _ (fold_context command resolved)]

/-- The rule reports the calls in small letters as it reports the calls themselves. -/
theorem warnings_folded (h : p.IgnoresCase) (file : String) (calls : List Invocation) :
    ((calls.map folded.invocation).filterMap (warning? p file)).map Diagnostic.fold =
      (calls.filterMap (warning? p file)).map Diagnostic.fold := by
  rw [List.filterMap_map, List.map_filterMap, List.map_filterMap]
  exact congrArg (List.filterMap · calls) (funext (warning?_folded h file))

end CmdletUse

/-- The view of a script in small letters: everything stands where it stands in the script. -/
theorem view_folded (source : String) : (⟨Spelling.folded.offset source.toList, true⟩ : View) = .whole := by
  rw [View.whole, View.mk.injEq]
  exact ⟨funext (Spelling.offset_folded _), rfl⟩

theorem named_folded (source : String) :
    View.named (parse (Text.fold source)).tree.body.statements =
      (View.named (parse source).tree.body.statements).map Spelling.folded.invocation := by
  obtain ⟨hbody, -⟩ := @parse_text .folded source nofun
  rw [view_folded, Spelling.folded_text] at hbody
  have hstatements : Telling.statements ⟨.whole, some .folded⟩ (parse source).tree.body.statements =
      Spelling.folded.statements (parse source).tree.body.statements := View.whole_statements _
  rw [hbody, Telling.statements_block, hstatements, Spelling.named_statements]

theorem faults_folded (source : String) :
    (parse (Text.fold source)).faults =
      (parse source).faults.map fun f => ⟨Spelling.folded.problem f.problem, f.span⟩ := by
  obtain ⟨-, hfaults⟩ := @parse_text .folded source nofun
  rw [view_folded, Spelling.folded_text] at hfaults
  exact hfaults

theorem Problem.fold_context (p : Problem) :
    (Spelling.folded.problem p).context.fold = p.context.fold := by
  cases p with
  | unexpectedToken text =>
      show (Dictionary.single "token" (Spelling.folded.text text)).fold = (Dictionary.single "token" text).fold
      rw [Dictionary.fold_single, Dictionary.fold_single, Spelling.folded_text, Text.fold_fold]
  | _ => rfl

theorem Problem.check_folded (p : Problem) : (Spelling.folded.problem p).check = p.check := by
  cases p <;> rfl

theorem diagnostics_folded (source : String) :
    (parse (Text.fold source)).diagnostics.map Diagnostic.fold =
      (parse source).diagnostics.map Diagnostic.fold := by
  rw [Parsed.diagnostics, Parsed.diagnostics, faults_folded, List.map_map, List.map_map, List.map_map]
  refine List.map_congr_left fun f _ => ?_
  simp only [Function.comp_apply, Fault.diagnostic, Problem.check_folded]
  exact Check.fold_diagnostic _ f.problem.fold_context f.span

/-- A script and the script in small letters get the same diagnostics, but for what these quote. -/
theorem issues_folded {p : Provider} (h : p.IgnoresCase) (source file : String) :
    (lint (Text.fold source) p file).issues.map Diagnostic.fold =
      (lint source p file).issues.map Diagnostic.fold := by
  have hrule (t : Tree) : (Registry.builtin p).runAll t file =
      (View.named t.body.statements).filterMap (CmdletUse.warning? p file) := by
    rw [← View.toList_walker]
    exact List.append_nil _
  have hfile (ds : List Diagnostic) : (ds.map (·.inFile file)).map Diagnostic.fold =
      (ds.map Diagnostic.fold).map (·.inFile file) := by
    rw [List.map_map, List.map_map]
    rfl
  simp only [lint, LintResult.ofParsed, List.map_append, hfile, diagnostics_folded, hrule, named_folded,
    CmdletUse.warnings_folded h]

/-- Two scripts that differ in the case of letters only: with a catalog, whatever it lists, a run over the one
passes if a run over the other does, and it finds the same, at the same places. Only what the diagnostics quote
may differ, and that in the case of letters. -/
theorem lint_eq_of_fold_eq {source source' : String} (h : Text.fold source = Text.fold source') (c : Catalog)
    (file : String) :
    let r := lint source c.provider file
    let r' := lint source' c.provider file
    r.ok = r'.ok ∧
      r.issues.map (fun d => (d.rule, d.severity, d.span)) = r'.issues.map (fun d => (d.rule, d.severity, d.span)) ∧
      r.issues.map Diagnostic.fold = r'.issues.map Diagnostic.fold := by
  intro r r'
  have hissues : r.issues.map Diagnostic.fold = r'.issues.map Diagnostic.fold := by
    rw [← issues_folded c.ignoresCase_provider, h, issues_folded c.ignoresCase_provider]
  have hread {α : Type} (f : Diagnostic → α) (hf : ∀ d, f d.fold = f d) :
      r.issues.map f = r'.issues.map f := by
    have h := congrArg (List.map f) hissues
    rwa [List.map_map, List.map_map, show f ∘ Diagnostic.fold = f from funext hf] at h
  refine ⟨?_, hread _ fun _ => rfl, hissues⟩
  have hseverities := hread (·.severity.isFailure) fun _ => rfl
  have hany (ds : List Diagnostic) :
      ds.any (·.severity.isFailure) = (ds.map (·.severity.isFailure)).any id := by
    rw [List.any_map]
    rfl
  rw [LintResult.ok, LintResult.ok, hany, hany, hseverities]

theorem lint_eq_of_fold_eq_select :
    let c : Catalog := ⟨"1.0.0", [("select-string", Standard.selectString.command)], [("sls", "Select-String")]⟩
    let r := lint "IF ($x) \x7b SLS -casesensitive \x7d )" c.provider "a.ps1"
    let r' := lint "if ($X) \x7b sls -CaseSensitive \x7d )" c.provider "a.ps1"
    Text.fold "IF ($x) \x7b SLS -casesensitive \x7d )" = Text.fold "if ($X) \x7b sls -CaseSensitive \x7d )" ∧
      r.ok = false ∧ r.issues.map (fun d => (d.rule, d.severity, d.span)) =
        [("PSParseUnexpectedToken", .parseError, some ⟨31, 32⟩),
          ("PSUseCmdletCorrectly", .warning, some ⟨10, 28⟩)] ∧
      r.issues.map Diagnostic.fold = r'.issues.map Diagnostic.fold := by
  intro c r r'
  have hfold : Text.fold "IF ($x) \x7b SLS -casesensitive \x7d )" =
      Text.fold "if ($X) \x7b sls -CaseSensitive \x7d )" := by decide +kernel
  obtain ⟨hok, hplaces, hissues⟩ := lint_eq_of_fold_eq hfold c "a.ps1"
  exact ⟨hfold, hok.trans (by decide +kernel), hplaces.trans (by decide +kernel), hissues⟩

end ScriptLint
