import ScriptLint.Proofs.Parser.Mirror.Group
import ScriptLint.Proofs.Parser.Mirror.Moved
import ScriptLint.Proofs.Parser.Safety
import ScriptLint.Proofs.Syntax.Locality

/-!
Scripts compose. A script behind a semicolon is read as it is read alone, if the script in front of the
semicolon is read without a fault.
-/

namespace ScriptLint

open ScriptLint.Parser ScriptLint.Parse Cursor
open Mirror (bind_eq_ok)

namespace Parse

variable {g : Groups} {closer : Option Closer} {c d : Cursor} {t : Token} {ts : List Token}

/-- What a loop over statements has found before does not matter to a round. -/
theorem statementsRound_append {before found : Array Statement} {r : ForInStep (Array Statement)}
    (h : statementsRound g closer (before ++ found) c = .ok (r, d)) :
    ∃ r₀, statementsRound g closer found c = .ok (r₀, d) ∧ r = match r₀ with
      | .done found => .done (before ++ found)
      | .yield found => .yield (before ++ found) := by
  rw [statementsRound, skip_bind_run, get_bind_run] at h ⊢
  cases hrest : (c.skip separates).rest with
  | nil =>
      rw [hrest] at h
      cases h
      exact ⟨_, rfl, rfl⟩
  | cons t ts =>
      rw [hrest] at h
      dsimp only at h ⊢
      split_ifs at h ⊢
      · obtain ⟨t, e, hadvance, h⟩ := bind_eq_ok.mp h
        cases h
        exact ⟨_, bind_eq_ok.mpr ⟨t, d, hadvance, rfl⟩, congrArg ForInStep.yield Array.push_append⟩
      · cases h
        exact ⟨_, rfl, rfl⟩
      · obtain ⟨s, e, hstatement, h⟩ := bind_eq_ok.mp h
        obtain ⟨_, e', hreport, h⟩ := bind_eq_ok.mp h
        cases h
        refine ⟨_, bind_eq_ok.mpr ⟨s, e, hstatement, bind_eq_ok.mpr ⟨_, d, hreport, rfl⟩⟩, ?_⟩
        rw [Array.append_assoc]

/-- A loop over statements adds what it finds to what has been found before. -/
theorem rounds_append {before found r : Array Statement} {n : Nat}
    (h : rounds (statementsRound g closer) n (before ++ found) c = .ok (r, d)) :
    ∃ r₀, rounds (statementsRound g closer) n found c = .ok (r₀, d) ∧ r = before ++ r₀ := by
  induction n generalizing found c with
  | zero => cases h
  | succ n ih =>
      obtain ⟨m, s, e, hm, hround, hrest⟩ := Mirror.Leads.rounds_eq_ok h
      obtain rfl := Nat.succ.inj hm
      obtain ⟨s₀, hround₀, rfl⟩ := statementsRound_append hround
      cases s₀ with
      | done found' =>
          cases hrest
          exact ⟨found', bind_eq_ok.mpr ⟨_, _, hround₀, rfl⟩, rfl⟩
      | yield found' =>
          obtain ⟨r₀, hrun, rfl⟩ := ih hrest
          exact ⟨r₀, bind_eq_ok.mpr ⟨_, _, hround₀, hrun⟩, rfl⟩

end Parse

namespace Parse

/-- The loop over a script behind a semicolon comes past the semicolon with the statements in front of it,
if these are read without a fault. -/
theorem leads_past_semicolon {s₁ s : String} {r₁ : Array Statement} {d₁ : Cursor}
    {x : Array Statement × Cursor} {n m : Nat}
    (hrun₁ : rounds (statementsRound (groups maxNesting) none) n #[] (.ofSource s₁) = .ok (r₁, d₁))
    (hclean : d₁.faults = #[]) (hkind : t.kind = .semicolon) (hstart : t.start = s₁.utf8ByteSize)
    (htokens : tokenize s = tokenize s₁ ++ t :: ts)
    (hrun : rounds (statementsRound (groups maxNesting) none) m #[] (.ofSource s) = .ok x) :
    ∃ d, d.rest = ts ∧ d.faults = #[] ∧ d.size = s.utf8ByteSize ∧
      Mirror.Leads (statementsRound (groups maxNesting) none) (#[], .ofSource s) (r₁, d) := by
  have htail (u : Token) (us : List Token) (h : t :: ts = u :: us) :
      u.kind.endsStatement ∧ u.start = s₁.utf8ByteSize + 0 := by
    cases h
    rw [hkind]
    exact ⟨rfl, hstart⟩
  let M := Mirror.moved 0 s₁.utf8ByteSize s.utf8ByteSize (t :: ts) none nofun htail
  have hlevels : M.Levels 0 (groups maxNesting) (groups maxNesting) :=
    Mirror.levels_agree (.inl ⟨rfl, rfl⟩)
  have habreast : M.Abreast (M.Beside true) 0 True (.ofSource s₁) (.ofSource s) := by
    refine Mirror.abreast_moved rfl rfl ?_ (fun _ => rfl) rfl nofun
    have hmove : Token.move 0 = id := rfl
    rw [hmove, List.map_id]
    exact htokens
  obtain ⟨r, d, hleads, ⟨halike, hd⟩, hstops⟩ :=
    Mirror.statements_lead hlevels (.inl rfl) ⟨rfl, habreast⟩ hrun₁ hrun
      (M.quiet_of_no_faults hclean)
  have hrest : d.rest = t :: ts := hd.rest_eq_tail (Mirror.stops_none.mp hstops)
  have hsame : r = r₁ :=
    Array.toList_inj.mp ((Mirror.alike_moved.mp halike).trans (View.whole_statements r₁.toList))
  refine ⟨{ d with rest := ts }, rfl, hd.no_faults hclean, hd.size_eq', ?_⟩
  rw [← hsame]
  exact hleads.trans (Mirror.leads_separator _ _ r hrest (by rw [hkind]; rfl))

/-- What a loop finds that starts in front of a script which stands further on. -/
theorem rounds_of_moved {s₂ : String} {k : Nat} {r₂ r : Array Statement} {c' d₂ d : Cursor} {n m : Nat}
    (hrun₂ : rounds (statementsRound (groups maxNesting) none) n #[] (.ofSource s₂) = .ok (r₂, d₂))
    (hrest : c'.rest = (tokenize s₂).map (Token.move k)) (hsize : c'.size = s₂.utf8ByteSize + k)
    (hfaults : c'.faults = #[])
    (hrun : rounds (statementsRound (groups maxNesting) none) m #[] c' = .ok (r, d)) :
    r.toList = (View.shift k).statements r₂.toList ∧
      d.faults.toList = d₂.faults.toList.map fun f => ⟨f.problem, (View.shift k).span f.span⟩ := by
  let M := Mirror.moved k s₂.utf8ByteSize (s₂.utf8ByteSize + k) [] none (fun _ => rfl) (by simp)
  have hlevels : M.Levels 0 (groups maxNesting) (groups maxNesting) :=
    Mirror.levels_agree (.inl ⟨rfl, rfl⟩)
  have habreast : M.Abreast (M.Beside true) 0 False (.ofSource s₂) c' :=
    Mirror.abreast_moved rfl hsize (by rw [hrest, List.append_nil]) False.elim hfaults (by simp)
  have hempty : M.Found (M.Beside true) 0 False #[] (.ofSource s₂) #[] c' := ⟨rfl, habreast⟩
  have hquiet : M.Quiet d₂ :=
    M.quiet_of_admitted fun f _ h => h.elim (absurd rfl) Bool.false_ne_true
  rcases Mirror.found_of_rounds hlevels (.inl rfl) hempty hrun₂ hrun hquiet with
    ⟨-, hstops⟩ | ⟨⟨halike, hd⟩, -⟩
  · exact absurd (.inl rfl) hstops
  · exact ⟨Mirror.alike_moved.mp halike, hd.faults_eq⟩

end Parse

/-- Where a semicolon behind a script stays a token of its own, the tokens of both scripts around it stay. -/
theorem tokenize_append {s₁ : String} (s₂ : String)
    (h : ∃ t, t.kind = .semicolon ∧ tokenize (s₁ ++ ";") = tokenize s₁ ++ [t]) :
    ∃ t, t.kind = .semicolon ∧ t.start = s₁.utf8ByteSize ∧
      tokenize (s₁ ++ ";" ++ s₂) =
        tokenize s₁ ++ t :: (tokenize s₂).map (Token.move (s₁.utf8ByteSize + 1)) := by
  obtain ⟨t, hkind, htokens⟩ := h
  have htext {s : String} : (tokenize s).flatMap (·.text.toList) = s.toList :=
    Lexer.flatMap_tokensFrom 0 0 s.toList
  obtain ⟨cs, d, us, hcs, -, -, ht, hlocal⟩ := Lexer.tokensFrom_local htokens
  have hsemicolon : d :: us = [';'] := by
    have hall := htext (s := s₁ ++ ";")
    rw [htokens, List.flatMap_append, htext, String.toList_append] at hall
    have hend := Lexer.flatMap_tokensFrom 0 (0 + String.utf8Len cs) (d :: us)
    rw [← ht] at hend
    exact hend.symm.trans (List.append_cancel_left hall)
  obtain ⟨rfl, rfl⟩ := List.cons.inj hsemicolon
  have hcs : cs = s₁.toList := by
    rw [String.toList_append] at hcs
    exact (List.append_cancel_right hcs).symm
  have htokens' := hlocal ';' s₂.toList (.inl ⟨rfl, by decide⟩) fun h => absurd rfl h
  have hscan : Lexer.scan ';' s₂.toList = (.semicolon, 0) := rfl
  rw [Lexer.tokensFrom_zero_cons, hscan, hcs, Nat.zero_add, String.utf8Len_toList] at htokens'
  refine ⟨Lexer.token s₁.utf8ByteSize ';' s₂.toList, congrArg Prod.fst hscan, rfl, ?_⟩
  have hmove := Lexer.tokensFrom_add (s₁.utf8ByteSize + 1) 0 0 s₂.toList
  rw [Nat.zero_add] at hmove
  rw [tokenize, String.toList_append, String.toList_append, List.append_assoc]
  exact htokens'.trans (congrArg (fun ts => tokenize s₁ ++ _ :: ts) hmove)

/-- A script behind a semicolon. If the script in front of the semicolon has no faults, and the semicolon is
a token of its own there, the statements are those of the one script, followed by those of the other with
their spans moved. So are the calls that a walk finds, and what the rule reports. -/
theorem parse_append_semicolon {s₁ s₂ : String} (hclean : (parse s₁).diagnostics = [])
    (hsemicolon : ∃ t, t.kind = .semicolon ∧ tokenize (s₁ ++ ";") = tokenize s₁ ++ [t]) :
    let p₁ := parse s₁
    let p₂ := parse s₂
    let p := parse (s₁ ++ ";" ++ s₂)
    let v := View.shift (s₁.utf8ByteSize + 1)
    p.tree.body.statements = p₁.tree.body.statements ++ v.statements p₂.tree.body.statements ∧
      p.diagnostics = p₂.diagnostics.map v.diagnostic ∧
      (Walker.ofTree p.tree).toList =
        (Walker.ofTree p₁.tree).toList ++ (Walker.ofTree p₂.tree).toList.map v.invocation ∧
      ∀ provider file, CmdletUse.analyze provider p.tree file =
        CmdletUse.analyze provider p₁.tree file ++
          (CmdletUse.analyze provider p₂.tree file).map v.diagnostic := by
  intro p₁ p₂ p v
  obtain ⟨t, hkind, hstart, htokens⟩ := tokenize_append s₂ hsemicolon
  obtain ⟨_, d₁, hrun₁, -⟩ := Parse.run_ends s₁
  obtain ⟨_, d₂, hrun₂, -⟩ := Parse.run_ends s₂
  obtain ⟨_, d, hrun, -⟩ := Parse.run_ends (s₁ ++ ";" ++ s₂)
  have hp₁ : p₁ = _ := parse_eq hrun₁
  have hp₂ : p₂ = _ := parse_eq hrun₂
  have hp : p = _ := parse_eq hrun
  obtain ⟨n₁, r₁, hrounds₁, rfl⟩ := Mirror.statements_eq_ok hrun₁
  obtain ⟨n₂, r₂, hrounds₂, rfl⟩ := Mirror.statements_eq_ok hrun₂
  obtain ⟨n, r, hrounds, rfl⟩ := Mirror.statements_eq_ok hrun
  have hfaults₁ : d₁.faults = #[] := by
    have hclean : p₁.diagnostics = [] := hclean
    rw [hp₁] at hclean
    exact Array.toList_inj.mp (List.map_eq_nil_iff.mp hclean)
  -- the loop comes past the semicolon, and goes on from there as if it had found nothing yet
  obtain ⟨c, hrest, hfaults, hsize, hleads⟩ :=
    Parse.leads_past_semicolon hrounds₁ hfaults₁ hkind hstart htokens hrounds
  obtain ⟨m, -, hbehind⟩ := hleads _ _ hrounds
  rw [← @Array.append_empty _ r₁] at hbehind
  obtain ⟨r₀, hrounds₀, rfl⟩ := Parse.rounds_append hbehind
  have hsize : c.size = s₂.utf8ByteSize + (s₁.utf8ByteSize + 1) := by
    rw [hsize, String.utf8ByteSize_append, String.utf8ByteSize_append, Nat.add_comm]
    rfl
  obtain ⟨hstatements, hfaults⟩ := Parse.rounds_of_moved hrounds₂ hrest hsize hfaults hrounds₀
  have hbody : p.tree.body.statements =
      p₁.tree.body.statements ++ v.statements p₂.tree.body.statements := by
    rw [hp, hp₁, hp₂]
    exact (Array.toList_append).trans (congrArg (r₁.toList ++ ·) hstatements)
  have hwalk : (Walker.ofTree p.tree).toList =
      (Walker.ofTree p₁.tree).toList ++ (Walker.ofTree p₂.tree).toList.map v.invocation := by
    rw [View.toList_walker, View.toList_walker, View.toList_walker, hbody, View.named_append,
      View.named_statements]
  refine ⟨hbody, ?_, hwalk, fun provider file => ?_⟩
  · rw [hp, hp₂, Parsed.diagnostics, Parsed.diagnostics, hfaults, List.map_map, List.map_map]
    rfl
  · rw [CmdletUse.analyze, hwalk, List.filterMap_append, View.warnings_map_invocation]
    rfl

theorem parse_append_semicolon_calls :
    (parse "Get-Item").diagnostics = [] ∧
      tokenize ("Get-Item" ++ ";") = tokenize "Get-Item" ++ [⟨.semicolon, ";", 8⟩] ∧
      (parse ("Get-Item" ++ ";" ++ "$x | Stop-Job")).tree.body.statements =
        (parse "Get-Item").tree.body.statements ++
          (View.shift 9).statements (parse "$x | Stop-Job").tree.body.statements :=
  ⟨by decide +kernel, by decide +kernel, (parse_append_semicolon (by decide +kernel)
    ⟨⟨.semicolon, ";", 8⟩, rfl, by decide +kernel⟩).1⟩

end ScriptLint
