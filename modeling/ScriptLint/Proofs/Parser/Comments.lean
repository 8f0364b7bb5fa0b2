import Mathlib.Data.List.Induction
import ScriptLint.Proofs.Parser.CommentReports
import ScriptLint.Proofs.Parser.Mirror.Script
import ScriptLint.Proofs.Parser.Safety
import ScriptLint.Proofs.Syntax.Locality

/-!
Block comments and blanks. A block comment may be replaced by spaces without a change to what is found in a
script, but not everywhere: behind some tokens a parse passes over blanks and not over comments.
-/

namespace ScriptLint

open String (utf8Len)
open ScriptLint.Parser ScriptLint.Parse Cursor

namespace Lexer

/-- The characters of a run of blanks. -/
def isPadding (c : Char) : Bool := Text.isBlank c && !isLineEnd c

variable {c : Char} {cs bs : List Char} {offset : Nat}

theorem scan_of_isPadding (h : isPadding c) (cs : List Char) :
    scan c cs = (.whitespace, runLength isPadding cs) := by
  obtain ⟨hblank, hline⟩ := Bool.and_eq_true_iff.mp h
  have hline : c ≠ '\n' ∧ c ≠ '\r' := by simpa [isLineEnd] using hline
  have htick : c ≠ '\x60' := by
    rintro rfl
    exact absurd hblank (by decide)
  rw [scan, if_neg hline.1, if_neg hline.2, if_neg fun h => htick h.1, if_pos hblank]
  rfl

theorem isPadding_of_takesBlanks {us : List Char} (h : takesBlanks (token offset c us)) : isPadding c := by
  rw [takesBlanks_token, Bool.and_eq_true, decide_eq_true_iff] at h
  obtain ⟨hkind, hblank⟩ := h
  refine Bool.and_eq_true_iff.mpr ⟨hblank, ?_⟩
  by_contra hline
  have hline : c = '\n' ∨ c = '\r' := by
    rwa [Bool.not_eq_true', Bool.not_eq_false, isLineEnd, Bool.or_eq_true, decide_eq_true_iff,
      decide_eq_true_iff] at hline
  rcases hline with rfl | rfl <;> simp [scan] at hkind

theorem isPadding_of_mem_text {w : Token} {us : List Char} (hw : w = token offset c us)
    (h : takesBlanks w) : ∀ d ∈ w.text.toList, isPadding d := by
  subst hw
  have hc := isPadding_of_takesBlanks h
  intro d hd
  rw [toList_text_token, scan_of_isPadding hc] at hd
  rcases List.mem_cons.mp hd with rfl | hd
  · exact hc
  · have hstarts : us.takeWhile isPadding <+: us := List.takeWhile_prefix isPadding
    exact List.mem_takeWhile_imp (List.prefix_iff_eq_take.mp hstarts ▸ hd)

theorem runLength_append_of_all (hbs : ∀ c ∈ bs, isPadding c) (cs : List Char) :
    runLength isPadding (bs ++ cs) = bs.length + runLength isPadding cs := by
  rw [runLength, List.takeWhile_append_of_pos hbs, List.length_append]
  rfl

/-- Blanks in front of a text are one token, to which the blanks at its start belong. -/
theorem tokensFrom_padding (offset : Nat) (hne : bs ≠ []) (hbs : ∀ c ∈ bs, isPadding c) (cs : List Char) :
    ∃ w : Token, w.kind = .whitespace ∧ w.start = offset ∧ tokensFrom 0 offset (bs ++ cs) =
      w :: tokensFrom (runLength isPadding cs) (offset + utf8Len bs) cs := by
  obtain ⟨c, bs, rfl⟩ := List.exists_cons_of_ne_nil hne
  have hscan := scan_of_isPadding (hbs c List.mem_cons_self) (bs ++ cs)
  have hrun := runLength_append_of_all (fun d hd => hbs d (List.mem_cons_of_mem c hd)) cs
  refine ⟨token offset c (bs ++ cs), congrArg Prod.fst hscan, rfl, ?_⟩
  rw [List.cons_append, tokensFrom_zero_cons, hscan, hrun, tokensFrom_length_add, add_utf8Len_cons]

theorem utf8Len_spaces (n : Nat) : utf8Len (List.replicate n ' ') = n := by
  induction n with
  | zero => rfl
  | succ n ih => rw [List.replicate_succ, String.utf8Len_cons, ih]; rfl

/-- Spaces are one token with the blanks around them. -/
theorem tokensFrom_spaces (offset : Nat) {n : Nat} (hn : n ≠ 0) (hbs : ∀ c ∈ bs, isPadding c)
    (cs : List Char) :
    ∃ w : Token, w.kind = .whitespace ∧ w.start = offset ∧
      tokensFrom 0 offset (bs ++ (List.replicate n ' ' ++ cs)) =
        w :: tokensFrom (runLength isPadding cs) (offset + utf8Len bs + n) cs := by
  have hne : bs ++ List.replicate n ' ' ≠ [] := by simp [hn]
  have hall : ∀ c ∈ bs ++ List.replicate n ' ', isPadding c := by
    intro c hc
    rcases List.mem_append.mp hc with hc | hc
    · exact hbs c hc
    · rw [List.eq_of_mem_replicate hc]
      decide
  obtain ⟨w, hkind, hstart, hw⟩ := tokensFrom_padding offset hne hall cs
  rw [List.append_assoc, String.utf8Len_append, utf8Len_spaces, ← Nat.add_assoc] at hw
  exact ⟨w, hkind, hstart, hw⟩

/-- The blanks at the start of a text are a token, if there are any. -/
theorem exists_padding (offset : Nat) (cs : List Char) :
    ∃ gs : List Token, (∀ t ∈ gs, t.kind = .whitespace) ∧
      tokensFrom 0 offset cs = gs ++ tokensFrom (runLength isPadding cs) offset cs := by
  cases cs with
  | nil => exact ⟨[], by simp, rfl⟩
  | cons c cs =>
      cases hc : isPadding c with
      | false => exact ⟨[], by simp, by simp [hc]⟩
      | true =>
          have hscan := scan_of_isPadding hc cs
          refine ⟨[token offset c cs], ?_, ?_⟩
          · simp [token, hscan]
          · simp [hc, hscan]

end Lexer

/-- The script of some tokens with spaces in the place of the token `t`. -/
def blanked (before : List Token) (t : Token) (behind : List Token) : String :=
  String.join (before.map Token.text) ++ String.ofList (List.replicate t.text.utf8ByteSize ' ') ++
    String.join (behind.map Token.text)

theorem toList_blanked (before behind : List Token) (t : Token) :
    (blanked before t behind).toList = before.flatMap (·.text.toList) ++
      List.replicate t.text.utf8ByteSize ' ' ++ behind.flatMap (·.text.toList) := by
  rw [blanked, String.toList_append, String.toList_append, String.toList_join, String.toList_join,
    String.toList_ofList, List.flatMap_map, List.flatMap_map]

/-- The tokens of a script with spaces in the place of a block comment. One token of blanks stands for the
comment, and for the blanks around it. -/
theorem tokenize_blanked {source : String} {before behind : List Token} {t : Token}
    (h : tokenize source = before ++ t :: behind) (hmark : t.text.toList.head? = some '<') :
    ∃ front gs₁ gs₂ rest w, before = front ++ gs₁ ∧ behind = gs₂ ++ rest ∧
      (∀ u ∈ gs₁, u.kind = .whitespace) ∧ (∀ u ∈ gs₂, u.kind = .whitespace) ∧
      w.kind = .whitespace ∧ (∃ u us, gs₁ ++ t :: gs₂ = u :: us ∧ w.start = u.start) ∧
      tokenize (blanked before t behind) = front ++ w :: rest := by
  obtain ⟨cs, d, text, after, -, hbefore, ht, htext, hbehind, hlocal⟩ := Lexer.tokenize_split h
  obtain ⟨gs₂, hgs₂, hafter⟩ := Lexer.exists_padding (utf8Len cs + utf8Len (d :: text)) after
  have hsize : t.text.utf8ByteSize = utf8Len (d :: text) := by
    rw [← htext, String.utf8Len_toList]
  have hblanked : (blanked before t behind).toList =
      cs ++ (List.replicate t.text.utf8ByteSize ' ' ++ after) := by
    rw [toList_blanked, hbefore, hbehind, Lexer.flatMap_tokensFrom, List.drop_zero, List.append_assoc]
  have hne : t.text.utf8ByteSize ≠ 0 := by
    rw [hsize, String.utf8Len_cons]
    have := d.utf8Size_pos
    omega
  cases hlast : before.getLast?.any Lexer.takesBlanks with
  | false =>
      have htokens : tokenize (blanked before t behind) = before ++
          Lexer.tokensFrom 0 (utf8Len cs) (List.replicate t.text.utf8ByteSize ' ' ++ after) := by
        have hd : d = '<' := by
          rw [htext] at hmark
          exact Option.some.inj hmark
        obtain ⟨m, hm⟩ := Nat.exists_eq_succ_of_ne_zero hne
        rw [tokenize, hblanked, hm]
        exact hlocal ' ' _ (.inr ⟨rfl, hd⟩) fun _ => hlast
      obtain ⟨w, hkind, hstart, hw⟩ := Lexer.tokensFrom_spaces (utf8Len cs) hne (List.forall_mem_nil _) after
      refine ⟨before, [], gs₂, _, w, (List.append_nil _).symm, hbehind.trans hafter, by simp, hgs₂, hkind,
        ⟨t, gs₂, rfl, ?_⟩, ?_⟩
      · rw [hstart, ht]
        rfl
      · rw [← hsize]
        exact htokens.trans (congrArg (before ++ ·) hw)
  | true =>
      obtain ⟨w₀, hw₀, htakes⟩ : ∃ w₀, before.getLast? = some w₀ ∧ Lexer.takesBlanks w₀ := by
        cases hw₀ : before.getLast? with
        | none => simp [hw₀] at hlast
        | some w₀ => exact ⟨w₀, rfl, by simpa [hw₀] using hlast⟩
      obtain ⟨front, rfl⟩ := List.getLast?_eq_some_iff.mp hw₀
      rw [List.append_assoc, List.singleton_append] at h
      obtain ⟨cs₀, d₀, text₀, after₀, -, hfront, hstart₀, htext₀, -, hlocal₀⟩ :=
        Lexer.tokenize_split h
      have hpadded := Lexer.isPadding_of_mem_text hstart₀ htakes
      rw [htext₀] at hpadded
      have hcs : cs = cs₀ ++ d₀ :: text₀ := by
        rw [← hbefore, List.flatMap_append, hfront, List.flatMap_singleton, htext₀]
      have htokens : tokenize (blanked (front ++ [w₀]) t behind) = front ++ Lexer.tokensFrom 0 (utf8Len cs₀)
          (d₀ :: text₀ ++ (List.replicate t.text.utf8ByteSize ' ' ++ after)) := by
        have hd₀ : d₀ ≠ '&' := by
          rintro rfl
          exact absurd (hpadded '&' List.mem_cons_self) (by decide)
        rw [tokenize, hblanked, hcs, List.append_assoc]
        exact hlocal₀ d₀ _ (.inl ⟨rfl, hd₀⟩) fun h => absurd rfl h
      obtain ⟨w, hkind, hstart, hw⟩ := Lexer.tokensFrom_spaces (utf8Len cs₀) hne hpadded after
      have hkind₀ : w₀.kind = .whitespace := of_decide_eq_true (Bool.and_eq_true_iff.mp htakes).1
      refine ⟨front, [w₀], gs₂, _, w, rfl, hbehind.trans hafter, by simpa using hkind₀, hgs₂, hkind,
        ⟨w₀, t :: gs₂, rfl, ?_⟩, ?_⟩
      · rw [hstart, hstart₀]
        rfl
      · rw [← hsize, hcs, String.utf8Len_append]
        exact htokens.trans (congrArg (front ++ ·) hw)

/-- Two scripts in which blanks and comments may stand for one another. Comments do not count, and the fault
`f` is known not to be met. -/
def blanking (size : Nat) (f : Fault) : Mirror where
  offset := id
  mono := monotone_id
  comments := false
  size := size
  size' := size
  tail := []
  limit? := none
  excluded := (· = f)
  size_eq := fun _ => rfl
  size_apart := fun _ _ h => h
  tail_head := nofun
  excluded_all := fun h => h.elim (absurd rfl) nofun

/-- Whether blanks and comments may stand for one another behind some tokens. -/
def leavesAll (free : Bool) (ts : List Token) : Bool := ts.foldl (fun free t => t.leaves free) free

/-- Only the last token that is not blank matters to what may stand behind it. -/
theorem leavesAll_eq_true {ts : List Token}
    (h : (ts.filter (·.kind ≠ .whitespace)).getLast?.any Token.awaits = false) :
    leavesAll true ts = true := by
  induction ts using List.reverseRecOn with
  | nil => rfl
  | append_singleton ts t ih =>
      have hleaves : leavesAll true (ts ++ [t]) = t.leaves (leavesAll true ts) := by
        rw [leavesAll, List.foldl_append]
        rfl
      rw [hleaves]
      by_cases hblank : t.kind = .whitespace
      · rw [List.filter_append, List.filter_singleton] at h
        rw [Token.leaves_of_whitespace hblank]
        exact ih (by simpa [hblank] using h)
      · rw [List.filter_append, List.filter_singleton] at h
        rw [Token.leaves_of_ne hblank]
        simpa [hblank] using h

section

variable {size : Nat} {f : Fault} {free : Bool} {ts ts' : List Token}

theorem beside_append {front : List Token}
    (h : (blanking size f).Beside (leavesAll free front) ts ts') :
    (blanking size f).Beside free (front ++ ts) (front ++ ts') := by
  induction front generalizing free with
  | nil => exact h
  | cons t front ih =>
      exact .cons ⟨rfl, rfl, fun _ _ _ => rfl, Telling.suits_of_eq_none rfl t, Nat.zero_le _,
        fun _ _ _ _ _ h => h⟩ (ih h)

theorem beside_refl : (blanking size f).Beside free ts ts := by
  have h : (blanking size f).Beside free (ts ++ []) (ts ++ []) := beside_append .nil
  rwa [List.append_nil] at h

end

/-- The tokens of a script lie beside those of the script with spaces in the place of a comment. -/
theorem beside_blanked {source : String} {before behind : List Token} {t : Token} {size : Nat}
    (h : tokenize source = before ++ t :: behind) (hkind : t.kind = .comment)
    (hmark : t.text.toList.head? = some '<')
    (hbefore : (before.filter (·.kind ≠ .whitespace)).getLast?.any Token.awaits = false)
    (hbehind : (behind.dropWhile (·.kind = .whitespace)).head?.map Token.kind ≠ some .comma) :
    (blanking size ⟨.unexpectedToken t.text, t.span⟩).Beside true (tokenize source)
      (tokenize (blanked before t behind)) := by
  obtain ⟨front, gs₁, gs₂, rest, w, rfl, rfl, hgs₁, hgs₂, hw, ⟨u, us, hstarts, hstart⟩, htokens⟩ :=
    tokenize_blanked h hmark
  have hleaves : leavesAll true front = true := by
    have hnone : gs₁.filter (·.kind ≠ .whitespace) = [] :=
      List.filter_eq_nil_iff.mpr fun v hv => by simp [hgs₁ v hv]
    rw [List.filter_append, hnone, List.append_nil] at hbefore
    exact leavesAll_eq_true hbefore
  have hgap : (blanking size ⟨.unexpectedToken t.text, t.span⟩).Gap (gs₁ ++ t :: gs₂) [w] := by
    refine ⟨rfl, fun v hv => ?_, fun v hv => ?_, ⟨u, us, w, [], hstarts, rfl, hstart, fun _ _ h => h⟩,
      ⟨t, gs₂, ?_, hkind, rfl⟩⟩
    · rcases List.mem_append.mp hv with hv | hv
      · exact TokenKind.isTrivia_of_whitespace (hgs₁ v hv)
      · rcases List.mem_cons.mp hv with rfl | hv
        · rw [hkind]
          rfl
        · exact TokenKind.isTrivia_of_whitespace (hgs₂ v hv)
    · rw [List.mem_singleton.mp hv, hw]
    · rw [List.dropWhile_append_of_pos fun v hv => by simp [hgs₁ v hv],
        List.dropWhile_cons_of_neg (by simp [hkind])]
  rw [List.dropWhile_append_of_pos fun v hv => by simp [hgs₂ v hv]] at hbehind
  have hsplit : tokenize source = front ++ (gs₁ ++ t :: gs₂ ++ rest) := by rw [h]; simp
  rw [hsplit, htokens]
  refine beside_append ?_
  rw [hleaves]
  exact .gap hgap hbehind beside_refl

theorem size_blanked {source : String} {before behind : List Token} {t : Token}
    (h : tokenize source = before ++ t :: behind) :
    (blanked before t behind).utf8ByteSize = source.utf8ByteSize := by
  have htext := Lexer.flatMap_tokensFrom 0 0 source.toList
  rw [show Lexer.tokensFrom 0 0 source.toList = _ from h, List.drop_zero] at htext
  rw [← String.utf8Len_toList, ← String.utf8Len_toList (s := source), ← htext, toList_blanked]
  simp [String.utf8Len_append, Lexer.utf8Len_spaces]

theorem faces_blanked {source : String} {before behind : List Token} {t : Token}
    (htokens : tokenize source = before ++ t :: behind) (hkind : t.kind = .comment)
    (hmark : t.text.toList.head? = some '<')
    (hbefore : (before.filter (·.kind ≠ .whitespace)).getLast?.any Token.awaits = false)
    (hbehind : (behind.dropWhile (·.kind = .whitespace)).head?.map Token.kind ≠ some .comma) :
    (blanking source.utf8ByteSize ⟨.unexpectedToken t.text, t.span⟩).Faces source
      (blanked before t behind) where
  size_eq := rfl
  size_eq' := (size_blanked htokens).symm
  offset_zero := rfl
  tail_eq := rfl
  unlimited := rfl
  beside := beside_blanked htokens hkind hmark hbefore hbehind

/-- A block comment may be replaced by spaces. This changes no diagnostic and, but for the comment, nothing in
the tree: a walk finds the same calls, with the same names and spans, their elements are bound alike for
every command, and the rule reports the same. It is so unless the comment stands behind a token from where
a parse may look for what belongs to it across blanks only, or in front of a comma, or in a hashtable, where it
may be reported itself. -/
theorem parse_blanked {source : String} {before behind : List Token} {t : Token}
    (htokens : tokenize source = before ++ t :: behind) (hkind : t.kind = .comment)
    (hmark : t.text.toList.head? = some '<')
    (hbefore : (before.filter (·.kind ≠ .whitespace)).getLast?.any Token.awaits = false)
    (hbehind : (behind.dropWhile (·.kind = .whitespace)).head?.map Token.kind ≠ some .comma)
    (hreported : (∃ o ∈ before, o.kind = .atBrace) →
      ⟨.unexpectedToken t.text, t.span⟩ ∉ (parse source).faults) :
    let p := parse source
    let p' := parse (blanked before t behind)
    p'.diagnostics = p.diagnostics ∧
      View.bare.statements p'.tree.body.statements = View.bare.statements p.tree.body.statements ∧
      (Walker.ofTree p'.tree).toList.map (fun i => (i.commandName?, i.span)) =
        (Walker.ofTree p.tree).toList.map (fun i => (i.commandName?, i.span)) ∧
      (∀ command, (Walker.ofTree p'.tree).toList.map (fun i => (i.bindings command).map View.bare.binding) =
        (Walker.ofTree p.tree).toList.map (fun i => (i.bindings command).map View.bare.binding)) ∧
      ∀ provider file, CmdletUse.analyze provider p'.tree file = CmdletUse.analyze provider p.tree file := by
  intro p p'
  have hquiet (c : Cursor) (hc : c.faults.toList = (parse source).faults) :
      (blanking source.utf8ByteSize ⟨.unexpectedToken t.text, t.span⟩).Quiet c := by
    refine Mirror.quiet_of_admitted _ ?_
    rintro f hf rfl
    have hf := hc ▸ Array.mem_toList_iff.mpr hf
    exact hreported (table_of_comment_reported htokens hkind hf) hf
  obtain ⟨htree, hfaults⟩ :=
    (faces_blanked htokens hkind hmark hbefore hbehind).parse_agrees hquiet
  have hbody : View.bare.statements p'.tree.body.statements =
      View.bare.statements p.tree.body.statements := by
    have hstatements := congrArg Block.statements htree
    rw [Telling.statements_block, Telling.statements_block] at hstatements
    exact hstatements.symm
  have hfaults : p'.faults = p.faults :=
    calc p'.faults
        = p'.faults.map id := (List.map_id p'.faults).symm
      _ = p.faults.map id := hfaults
      _ = p.faults := List.map_id p.faults
  refine ⟨congrArg (List.map Fault.diagnostic) hfaults, hbody, ?_, fun command => ?_,
    View.analyze_of_bare_eq hbody⟩
  · exact View.map_walker_of_bare_eq (g := fun i => (i.commandName?, i.span)) hbody fun i =>
      Prod.ext (View.bare.commandName?_invocation i) (View.bare.span_invocation i)
  · exact View.map_walker_of_bare_eq (g := fun i => i.bindings command) hbody fun i =>
      View.bare.bindings_invocation i command

theorem parse_blanked_argument :
    let before : List Token := [⟨.word, "Get-Item", 0⟩, ⟨.whitespace, " ", 8⟩]
    let comment : Token := ⟨.comment, "<# a #>", 9⟩
    let behind : List Token := [⟨.whitespace, " ", 16⟩, ⟨.variable, "$x", 17⟩]
    tokenize "Get-Item <# a #> $x" = before ++ comment :: behind ∧ comment.kind = .comment ∧
      comment.text.toList.head? = some '<' ∧
      (before.filter (·.kind ≠ .whitespace)).getLast?.any Token.awaits = false ∧
      (behind.dropWhile (·.kind = .whitespace)).head?.map Token.kind ≠ some .comma ∧
      (∀ o ∈ before, o.kind ≠ .atBrace) ∧
      (parse (blanked before comment behind)).diagnostics = (parse "Get-Item <# a #> $x").diagnostics := by
  refine ⟨by decide +kernel, rfl, by decide +kernel, by decide +kernel, by decide +kernel,
    by decide +kernel, ?_⟩
  exact (parse_blanked (by decide +kernel) rfl (by decide +kernel) (by decide +kernel)
    (by decide +kernel) (by decide +kernel)).1

/-- Behind `return` a parse looks for a command across blanks only. With a comment in front of it the command
is not found. -/
theorem comment_hides_call :
    let before : List Token := [⟨.word, "return", 0⟩, ⟨.whitespace, " ", 6⟩]
    let comment : Token := ⟨.comment, "<# c #>", 7⟩
    let behind : List Token := [⟨.whitespace, " ", 14⟩, ⟨.word, "Get-Item", 15⟩]
    tokenize "return <# c #> Get-Item" = before ++ comment :: behind ∧
      blanked before comment behind = "return         Get-Item" ∧
      (Walker.ofTree (parse "return <# c #> Get-Item").tree).toList.map Invocation.commandName? = [] ∧
      (Walker.ofTree (parse "return         Get-Item").tree).toList.map Invocation.commandName? =
        [some "Get-Item"] := by
  refine ⟨?_, ?_, ?_, ?_⟩ <;> decide +kernel

end ScriptLint
