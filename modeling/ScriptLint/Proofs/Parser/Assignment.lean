import ScriptLint.Proofs.Parser.Mirror.Group
import ScriptLint.Proofs.Parser.OneStage
import ScriptLint.Proofs.Parser.Safety
import ScriptLint.Proofs.Syntax.Word

/-!
The blank behind an assignment operator. An operator is the first part of its word, and what is left of the
word is a word as well. So a blank behind the operator changes nothing but offsets only where the text behind
it is read as it is read alone; elsewhere the value of an assignment may be read as the name of a command.
-/

namespace ScriptLint

open String (utf8Len)
open ScriptLint.Parser ScriptLint.Parse Cursor
open Lexer (startsAfresh wordLength tokensFrom)

/-- A tree without the byte that stands behind the first `k` ones. -/
def View.seamless (k : Nat) : View := ⟨fun n => if n ≤ k then n else n - 1, true⟩

namespace Mirror

/-- A script in one that has a blank more behind the first `k` bytes. -/
def seamed (k size : Nat) (h : k ≤ size) : Mirror where
  offset := fun n => if n < k then n else n + 1
  mono := fun a b hab => by dsimp only; split_ifs <;> omega
  comments := true
  size := size
  size' := size + 1
  tail := []
  limit? := none
  excluded := fun _ => False
  size_eq := fun _ => (if_neg (Nat.not_lt.mpr h)).symm
  size_apart := fun _ _ heq => by split_ifs at heq <;> omega
  tail_head := fun _ _ h => absurd h.symm (List.cons_ne_nil _ _)
  excluded_all := excludes_nothing
  back := (View.seamless k).offset
  back_mono := fun a b hab => by simp only [View.seamless]; split_ifs <;> omega
  seam := k
  back_inj := fun m n hm hn => by simp only [View.seamless] at hn; split_ifs at hn ⊢ <;> omega

section

variable {k size : Nat} {hsize : k ≤ size}

theorem left_seamed : (seamed k size hsize).left = ⟨View.whole, none⟩ := by
  have hoffset : (View.seamless k).offset ∘ (seamed k size hsize).offset = id := by
    funext n
    simp only [Function.comp_apply, View.seamless, seamed, id]
    split_ifs <;> omega
  exact congrArg (fun offset => Telling.mk ⟨offset, true⟩ none) hoffset

/-- In front of the blank nothing is moved. -/
theorem offset_seamed {n : Nat} (h : n ≤ k) :
    (seamed k size hsize).right.offset n = (seamed k size hsize).left.offset n := by
  rw [left_seamed]
  exact if_pos h

theorem alike_seamed {ss ss' : List Statement} :
    (seamed k size hsize).Alike Telling.statements ss ss' ↔ (View.seamless k).statements ss' = ss := by
  have hwhole : (seamed k size hsize).left.statements ss = View.whole.statements ss := by
    rw [left_seamed]
    rfl
  rw [Alike, hwhole, View.whole_statements, eq_comm]
  rfl

theorem same_seamed {t : Token} (h : k ≤ t.start) : (seamed k size hsize).Same t (t.move 1) := by
  refine ⟨rfl, rfl, fun head _ _ => ?_, Telling.suits_of_eq_none rfl t, h,
    fun _ _ _ => apart_of_injective (fun a b hab => ?_) _⟩
  · show t.start + 1 + head.utf8ByteSize = if t.start + head.utf8ByteSize < k then _ else _
    rw [if_neg (by omega), Nat.add_right_comm]
  · dsimp only [seamed] at hab
    split_ifs at hab <;> omega

theorem beside_seamed {free : Bool} {ts : List Token} (h : ∀ t ∈ ts, k ≤ t.start) :
    (seamed k size hsize).Beside free ts (ts.map (Token.move 1)) := by
  induction ts generalizing free with
  | nil => exact .nil
  | cons t ts ih =>
      exact .cons (same_seamed (h t List.mem_cons_self)) (ih fun u hu => h u (List.mem_cons_of_mem t hu))

end

end Mirror

namespace Parse

variable {g : Groups} {c : Cursor} {t u : Token} {ts us : List Token} {tail : String} {start : Nat}

/-- Where a cursor comes to that passes the equals sign which the word ahead starts with. -/
def behindEquals (c : Cursor) (tail : String) (start : Nat) (ts : List Token) : Cursor :=
  { c with
    rest := if tail = "" then ts else ⟨.word, tail, start + 1⟩ :: ts
    lastEnd := start + 1 }

theorem passOperator_equals (hrest : c.rest = ⟨.word, "=" ++ tail, start⟩ :: ts) :
    passOperator 1 c = .ok (⟨.word, "=", start⟩, behindEquals c tail start ts) := by
  have hsize : ("=" ++ tail).utf8ByteSize = 1 + tail.utf8ByteSize := String.utf8ByteSize_append
  have hcurrent : passOperator 1 c =
      (if 1 < ("=" ++ tail).utf8ByteSize then do cut 1; advance else advance : Parser Token) c := by
    rw [passOperator, bind_run, current_of_rest hrest]
    rfl
  rw [hcurrent, behindEquals]
  by_cases htail : tail = ""
  · subst htail
    rw [if_neg (by decide), if_pos rfl, advance_of_rest hrest]
    rfl
  · have hpos : 0 < tail.utf8ByteSize := Nat.pos_of_ne_zero fun h =>
      htail (String.utf8ByteSize_eq_zero_iff.mp h)
    have hvalid : String.Pos.Raw.IsValid ("=" ++ tail) ⟨1⟩ :=
      String.Pos.Raw.isValid_iff_exists_append.mpr ⟨"=", tail, rfl, rfl⟩
    have hcut : (Token.mk .word ("=" ++ tail) start).cut 1 =
        (⟨.word, "=", start⟩, ⟨.word, tail, start + 1⟩) :=
      @Token.cut_eq _ "=" _ rfl
    rw [if_pos (by omega), if_neg htail, bind_run, cut_of_rest hrest hvalid, hcut]
    rfl

theorem assignmentLength?_equals (tail : String) : Literal.assignmentLength? ("=" ++ tail) = some 1 := by
  have htext : ("=" ++ tail).toList = '=' :: tail.toList := String.toList_append
  rw [Literal.assignmentLength?, htext]
  rfl

/-- A variable in front of an operator that assigns is all of its stage. -/
theorem stage_of_variable (hg : g.Safe) (hc : c.Sound) (hrest : c.rest = t :: u :: us)
    (ht : t.kind = .variable) (hu : u.kind = .word) (hassigns : (Literal.assignmentLength? u.text).isSome) :
    stage g c = .ok (some (.expression t.variableReference), c.pass t (u :: us)) := by
  obtain ⟨x, d, hrun, -⟩ := ends_iff.mp (stage_ends hg hc)
  have hstage : stage g c = expressionStage g c :=
    stage_of_ne hrest (by simp [ht]) (by simp [ht]) (by simp [ht])
  have hprimary := primary_of_variable (g := g) hrest ht
  have hround : expressionRound g #[] c = .ok (.yield #[t.variableReference], c.pass t (u :: us)) := by
    rw [expressionRound, get_bind_run, hrest]
    dsimp only
    simp only [ht, isParameter, reduceCtorEq, false_and, or_false, if_false]
    rw [if_neg (by decide), if_neg (by decide), bind_run, hprimary]
    rfl
  have hdone : expressionRound g #[t.variableReference] (c.pass t (u :: us)) =
      .ok (.done #[t.variableReference], c.pass t (u :: us)) := by
    rw [expressionRound, get_bind_run, show (c.pass t (u :: us)).rest = u :: us from rfl]
    dsimp only
    rw [hu, if_neg (by decide), if_neg (by decide), if_pos ⟨rfl, rfl, hassigns⟩]
    rfl
  rw [hrun]
  rw [hstage] at hrun
  obtain ⟨e?, f, hexpression, hreturn⟩ := Mirror.bind_eq_ok.mp hrun
  obtain ⟨parts, f, hloop, hjoined⟩ := Mirror.bind_eq_ok.mp hexpression
  cases Mirror.Leads.eq_of_yield_done hloop hround hdone
  cases hjoined
  exact hreturn.symm

/-- An assignment to a variable comes to its value. -/
theorem pipelineStatement_of_variable (hg : g.Safe) (hc : c.Sound)
    (hrest : c.rest = t :: ⟨.word, "=" ++ tail, start⟩ :: ts) (ht : t.kind = .variable) :
    pipelineStatement g c = (do
      let value ← assignedValue g (start + 1)
      let s ← span t.start (max value.span.stop (start + 1))
      return some (.assignment t.variableReference "=" value s) : Parser (Option Statement))
        (behindEquals c tail start ts) := by
  have hassigns := assignmentLength?_equals tail
  let d := c.pass t (⟨.word, "=" ++ tail, start⟩ :: ts)
  have hskip : d.skipBlanks = d := skip_of_rest rfl rfl
  have hahead : assignmentAhead? d = some 1 := hassigns
  rw [pipelineStatement, bind_run,
    stage_of_variable hg hc hrest ht rfl (by rw [hassigns]; rfl)]
  show (skipBlanks >>= _) d = _
  rw [skipBlanks_bind_run, get_bind_run, hskip, hahead]
  dsimp only
  rw [assignment, bind_assoc, bind_run, passOperator_equals rfl]
  show _ = (assignedValue g (start + 1) >>= _) _
  simp only [bind_assoc, pure_bind]
  rfl

/-- The key of an entry, in front of an equals sign. -/
theorem keyOf?_equals {key : List Char} (hne : key ≠ []) (hkey : '=' ∉ key) :
    keyOf? ⟨.word, String.ofList key ++ ("=" ++ tail), start⟩ = some key := by
  have htext : (String.ofList key ++ ("=" ++ tail)).toList = key ++ '=' :: tail.toList := by simp
  have htake : (key ++ '=' :: tail.toList).takeWhile (· ≠ '=') = key := by
    have hall : ∀ c ∈ key, decide (c ≠ '=') := fun c hc => decide_eq_true fun h => hkey (h ▸ hc)
    rw [List.takeWhile_append_of_pos hall, List.takeWhile_cons_of_neg (by decide), List.append_nil]
  have hlength : key.length < (key ++ '=' :: tail.toList).length := by simp
  unfold keyOf?
  dsimp only
  rw [htext, htake, if_pos ⟨rfl, hne, hlength⟩]

theorem entryValue_of_equals {key : Expression} {found : Array Entry}
    (hrest : c.rest = ⟨.word, "=" ++ tail, start⟩ :: ts) :
    entryValue g key found c = (do
      let value ← assignedValue g (start + 1)
      return found.push ⟨key, value⟩ : Parser (Array Entry)) (behindEquals c tail start ts) := by
  have hskip : c.skipBlanks = c := skip_of_rest hrest rfl
  have hhead : ("=" ++ tail).toList.head? = some '=' := by simp
  rw [entryValue, skipBlanks_bind_run, get_bind_run, hskip, hrest]
  dsimp only
  rw [if_pos ⟨rfl, hhead⟩, bind_run, passOperator_equals hrest]
  rfl

/-- The first entry of a hashtable comes to its value. -/
theorem hashtableRound_of_key {key : List Char} (hne : key ≠ []) (hkey : '=' ∉ key)
    (hrest : c.rest = ⟨.word, String.ofList key ++ ("=" ++ tail), start⟩ :: ts) :
    hashtableRound g #[] c = (do
      let value ← assignedValue g (start + utf8Len key + 1)
      return .yield #[⟨.bareword (String.ofList key) ⟨start, start + utf8Len key⟩, value⟩] :
        Parser (ForInStep (Array Entry))) (behindEquals c tail (start + utf8Len key) ts) := by
  let k : Token := ⟨.word, String.ofList key, start⟩
  let equals : Token := ⟨.word, "=" ++ tail, start + utf8Len key⟩
  have hsize : (String.ofList key).utf8ByteSize = utf8Len key := String.utf8ByteSize_ofList key
  have hskip : c.skip separatesEntries = c := skip_of_rest hrest rfl
  have hcutKey : cutKey ⟨.word, String.ofList key ++ ("=" ++ tail), start⟩ c =
      .ok ((), { c with rest := k :: equals :: ts }) := by
    rw [cutKey, keyOf?_equals hne hkey]
    dsimp only
    rw [cut_of_append hrest rfl, Token.cut_eq rfl, hsize]
  have hprimary : primary g { c with rest := k :: equals :: ts } =
      .ok (some (.bareword (String.ofList key) ⟨start, start + utf8Len key⟩),
        { c with rest := equals :: ts, lastEnd := start + utf8Len key }) := by
    rw [← hsize]
    rfl
  rw [hashtableRound, skip_bind_run, get_bind_run, hskip, hrest]
  dsimp only
  rw [if_neg (by decide), bind_run, hcutKey]
  show (primary g >>= _) { c with rest := k :: equals :: ts } = _
  rw [bind_run, hprimary]
  show (entryValue g _ #[] >>= _) { c with rest := equals :: ts, lastEnd := start + utf8Len key } = _
  have hbehind : behindEquals { c with rest := equals :: ts, lastEnd := start + utf8Len key } tail
      (start + utf8Len key) ts = behindEquals c tail (start + utf8Len key) ts := rfl
  rw [bind_run, entryValue_of_equals rfl, hbehind, bind_run, bind_run]
  cases assignedValue g (start + utf8Len key + 1) (behindEquals c tail (start + utf8Len key) ts) <;> rfl

end Parse

namespace Mirror

variable {M : Mirror} {g : Groups} {depth levels : Nat} {exact : Prop} {c c' : Cursor} {t : Token}
  {us us' ts ts' : List Token} {key : List Char} {tail tail' : String} {start : Nat}

variable (M) in
/-- Two cursors are side by side once blanks in front of the right one are passed over. -/
def Nears (depth : Nat) (c c' : Cursor) : Prop :=
  ∃ d', c'.skipSpacing = d'.skipSpacing ∧ M.Abreast (M.Beside true) depth True c d'

theorem Nears.assignedValue (hg : M.Levels depth g g) (h : M.Nears depth c c')
    (hstart : M.right.offset start = M.left.offset start) :
    M.Agree (assignedValue g start) c (assignedValue g start) c'
      (M.Passed M.Settled Telling.pipeline depth) := by
  obtain ⟨d', hskip, hd⟩ := h
  exact (assignedValue_agrees hg hd hstart).of_eq rfl (modify_bind_congr hskip)

theorem Nears.withDepth (h : M.Nears depth c c') (k k' : Nat) :
    M.Nears depth { c with depth := k } { c' with depth := k' } := by
  obtain ⟨d', hskip, hd⟩ := h
  exact ⟨{ d' with depth := k' }, congrArg (fun d : Cursor => { d with depth := k' }) hskip, hd.withDepth k k'⟩

theorem text_equals (v : Telling) : v.text "=" = "=" := by
  obtain ⟨u, _ | _ | _⟩ := v <;> rfl

/-- An assignment to a variable is read alike if its value is. -/
theorem pipelineStatement_agrees_of_variable (hg : M.Levels depth g g) (hc : c.Sound) (hc' : c'.Sound)
    (hrest : c.rest = t :: ⟨.word, "=" ++ tail, start⟩ :: ts)
    (hrest' : c'.rest = t :: ⟨.word, "=" ++ tail', start⟩ :: ts') (ht : t.kind = .variable)
    (hvariable : M.Alike Telling.expression t.variableReference t.variableReference)
    (hstop : M.right.offset (start + 1) = M.left.offset (start + 1))
    (hvalue : M.Nears depth (behindEquals c tail start ts) (behindEquals c' tail' start ts')) :
    M.Agree (pipelineStatement g) c (pipelineStatement g) c'
      (M.Read (M.Beside true) Telling.statement depth exact) := by
  refine Agree.of_eq ?_ (pipelineStatement_of_variable hg.safe hc hrest ht)
    (pipelineStatement_of_variable hg.safe hc' hrest' ht)
  refine (hvalue.assignedValue hg hstop).bind (fun _ => keeps_return (keeps_span _ _)) ?_
  rintro value d value' d' ⟨hvalue, hd⟩
  refine agree_span_bind (.pure ⟨?_, hd.beside⟩)
  have hstart : M.right.offset t.start = M.left.offset t.start := hvariable.start
  have hend : M.right.offset value'.span.stop = M.left.offset value.span.stop :=
    congrArg Span.stop hvalue.pipeline_span
  unfold Alike at hvariable hvalue
  simp only [Alike, Telling.statement_assignment, hvariable, hvalue, text_equals, View.span, hstart, hend,
    hstop, left_offset_max, right_offset_max]

/-- A hashtable is read alike if the value of its first entry is. -/
theorem hashtable_agrees_of_key (hg : M.Levels (depth + 1) (groups levels) (groups levels))
    (hne : key ≠ []) (hequals : '=' ∉ key)
    (hrest : c.rest = t :: ⟨.word, String.ofList key ++ ("=" ++ tail), t.stop⟩ :: ts)
    (hrest' : c'.rest = t :: ⟨.word, String.ofList key ++ ("=" ++ tail'), t.stop⟩ :: ts')
    (hoffset : ∀ n ≤ t.stop + utf8Len key + 1, M.right.offset n = M.left.offset n)
    (hkey : M.left.text (String.ofList key) = String.ofList key)
    (hkey' : M.right.text (String.ofList key) = String.ofList key)
    (hvalue : M.Nears (depth + 1) (behindEquals c tail (t.stop + utf8Len key) ts)
      (behindEquals c' tail' (t.stop + utf8Len key) ts')) :
    M.Agree (groups (levels + 1)).hashtable c (groups (levels + 1)).hashtable c'
      (M.Passed (M.Beside true) Telling.expression depth) := by
  have hlt : t.start ≤ t.stop := Nat.le_add_right _ _
  have hstop : t.stop ≤ t.stop + utf8Len key + 1 := by omega
  show M.Agree (advance >>= _) c (advance >>= _) c' _
  rw [agree_advance_bind hrest hrest']
  refine closed_agrees (v := fun v => List.map v.entry) (hoffset _ (by omega)) ?_ ?_
  · refine entries_agrees_of_first hg ?_
    refine Agree.of_eq ?_ (hashtableRound_of_key hne hequals rfl) (hashtableRound_of_key hne hequals rfl)
    refine ((hvalue.withDepth _ _).assignedValue hg (hoffset _ (Nat.le_refl _))).bind (fun _ => keeps_pure _) ?_
    rintro value d value' d' ⟨hvalue, hd⟩
    refine .pure (.inr ⟨AllAlike.nil.push ?_, hd.beside⟩)
    unfold Alike at hvalue
    simp only [Alike, Telling.entry_mk, Telling.expression_bareword, hkey, hkey', hvalue, View.span,
      hoffset _ hstop, hoffset _ (Nat.le_succ (t.stop + utf8Len key))]
  · intro es es' s s' halike hs
    have halike : es.map M.left.entry = es'.map M.right.entry := halike
    rw [Alike, Telling.expression_hashtable, Telling.expression_hashtable, halike, hs]

/-- A statement that starts with a hashtable is read alike if the hashtable is. -/
theorem pipelineStatement_agrees_of_hashtable (hg : M.Levels depth g g) (hk : c.kind? = some .atBrace)
    (hk' : c'.kind? = some .atBrace)
    (h : M.Agree g.hashtable c g.hashtable c' (M.Passed (M.Beside true) Telling.expression depth)) :
    M.Agree (pipelineStatement g) c (pipelineStatement g) c'
      (M.Read (M.Beside true) Telling.statement depth exact) := by
  have hstage {d : Cursor} (hd : d.kind? = some .atBrace) : stage g d = expressionStage g d := by
    obtain ⟨u, us, hrest, hu⟩ := kind?_eq_some.mp hd
    exact stage_of_ne hrest (by simp [hu]) (by simp [hu]) (by simp [hu])
  have hround {d : Cursor} (hd : d.kind? = some .atBrace) :
      expressionRound g #[] d =
        (do return .yield #[← g.hashtable] : Parser (ForInStep (Array Expression))) d := by
    obtain ⟨u, us, hrest, hu⟩ := kind?_eq_some.mp hd
    have hprimary : primary g d = (some <$> g.hashtable) d := by
      rw [primary, get_bind_run, hd]
      rfl
    rw [expressionRound, get_bind_run, hrest]
    simp only [hu, isParameter, reduceCtorEq, false_and, or_false, if_false]
    rw [if_neg (by decide), if_neg (by decide), bind_run, hprimary]
    show Except.bind (Except.bind (g.hashtable d) _) _ = Except.bind (g.hashtable d) _
    cases g.hashtable d <;> rfl
  refine pipelineStatement_agrees_of_stage hg (Agree.of_eq ?_ (hstage hk) (hstage hk'))
  refine expressionStage_agrees_of_expression (expression_agrees_of_first hg
    (Agree.of_eq ?_ (hround hk) (hround hk')))
  refine h.bind (fun _ => keeps_pure _) ?_
  rintro e d e' d' ⟨halike, hd⟩
  exact .pure ⟨AllAlike.nil.push halike, hd.imp id fun _ => trivial⟩

theorem statementsRound_of_statement (hrest : c.rest = t :: ts) (hseparates : separates t.kind = false)
    (hcomment : t.kind ≠ .comment) (found : Array Statement) :
    statementsRound g none found c = (do
      let s ← statement g
      reportIfAt t.start
      return ForInStep.yield (found ++ s.toArray) : Parser (ForInStep (Array Statement))) c := by
  have hskip : c.skip separates = c := skip_of_rest hrest hseparates
  rw [statementsRound, skip_bind_run, get_bind_run, hskip, hrest]
  dsimp only
  rw [if_neg hcomment, Option.map_none, if_neg (Option.some_ne_none t.kind).symm]

/-- The statements of two scripts of which the first one is read alike. -/
theorem statements_agrees_of_first (hg : M.Levels depth g g) (htail : M.tail = []) {t' : Token}
    (hrest : c.rest = t :: ts) (hrest' : c'.rest = t' :: ts') (hstart : t'.start = M.offset t.start)
    (hkind : t'.kind = t.kind) (hseparates : separates t.kind = false) (hcomment : t.kind ≠ .comment)
    (hc : c.Sound) (hfirst : M.Agree (statement g) c (statement g) c'
      (M.Read (M.Beside true) Telling.statement depth exact)) :
    M.Agree (statements g none) c (statements g none) c' fun body d body' d' =>
      M.Alike Telling.statements body body' ∧ M.Abreast M.Settled depth exact d d' := by
  intro body d body' d' hrun hrun' hquiet
  obtain ⟨n, r, hrounds, rfl⟩ := statements_eq_ok hrun
  obtain ⟨n', r', hrounds', rfl⟩ := statements_eq_ok hrun'
  obtain ⟨m, s, e, -, hround, hrest₁⟩ := Leads.rounds_eq_ok hrounds
  obtain ⟨m', s', e', -, hround', hrest₁'⟩ := Leads.rounds_eq_ok hrounds'
  rw [statementsRound_of_statement hrest hseparates hcomment] at hround
  rw [statementsRound_of_statement hrest' (by rwa [hkind]) (by rwa [hkind])] at hround'
  have hnone : M.Alike Telling.statements (#[] : Array Statement).toList (#[] : Array Statement).toList := by
    rw [Alike, Telling.statements_nil, Telling.statements_nil]
  have he : M.Quiet e := by
    cases s with
    | done s =>
        cases hrest₁
        exact hquiet
    | yield s => exact hquiet.of_adds (keeps_rounds (keeps_statementsRound hg.add none) m s) hrest₁
  obtain ⟨found, found', rfl, rfl, hfound⟩ := agree_found hstart (offset_eq_start hrest)
    (hfirst.and_ends (statement_ends hg.safe hc)) hnone _ _ _ _ hround hround' he
  rcases found_of_rounds hg (.inl rfl) hfound hrest₁ hrest₁' hquiet with ⟨-, hstops⟩ | ⟨h, -⟩
  · rw [htail] at hstops
    exact absurd (.inl rfl) hstops
  · exact h

/-- Behind a place where a word is cut and its rest is read as it is read alone. -/
theorem rest_behindEquals {cs : List Char} (h : startsAfresh cs) (c : Cursor) (start : Nat) :
    (behindEquals c (String.ofList (cs.take (wordLength cs))) start
      (tokensFrom (wordLength cs) (start + 1) cs)).rest = tokensFrom 0 (start + 1) cs :=
  Lexer.tokensFrom_of_startsAfresh h (start + 1)

/-- Behind the operator two scripts are side by side of which the right one has a blank more there. -/
theorem nears_seamed {source source' : String} {cs : List Char} (hfresh : startsAfresh cs)
    (hblank : ∀ d, cs.head? = some d → Text.isBlank d = false)
    (hsize : source.utf8ByteSize = start + 1 + utf8Len cs)
    (hsize' : source'.utf8ByteSize = source.utf8ByteSize + 1) (hk : start + 1 ≤ source.utf8ByteSize) :
    let cs' := ' ' :: cs
    (seamed (start + 1) source.utf8ByteSize hk).Nears depth
      (behindEquals (.ofSource source) (String.ofList (cs.take (wordLength cs))) start
        (tokensFrom (wordLength cs) (start + 1) cs))
      (behindEquals (.ofSource source') (String.ofList (cs'.take (wordLength cs'))) start
        (tokensFrom (wordLength cs') (start + 1) cs')) := by
  intro cs'
  have hrest := rest_behindEquals hfresh (.ofSource source) start
  have hrest' := @rest_behindEquals cs' rfl (.ofSource source') start
  generalize hc : behindEquals (.ofSource source) _ _ _ = c at hrest
  generalize hc' : behindEquals (.ofSource source') _ _ _ = c' at hrest'
  have htiles : Tiles (start + 1) c.rest c.size := by
    rw [hrest, ← hc]
    have h := Lexer.tiles_tokensFrom 0 (start + 1) cs
    rw [← hsize] at h
    exact h
  rw [Lexer.tokensFrom_space hblank] at hrest'
  refine ⟨{ c' with rest := tokensFrom 0 (start + 1 + 1) cs }, ?_, ?_⟩
  · rw [Cursor.skipSpacing, Cursor.skipSpacing, Cursor.skip, Cursor.skip, hrest']
    rfl
  · refine ⟨⟨?_, ?_⟩, ?_, ?_, ?_, ?_, ?_, ?_, fun _ h => absurd h.symm (Option.some_ne_none _)⟩
    · rwa [offset_eq_of_tiles htiles]
    · rw [offset_eq_of_tiles htiles, ← hc]
      exact Nat.le_refl _
    · rw [Lexer.tokensFrom_add, hrest]
      exact beside_seamed fun t ht => (hrest ▸ htiles).le_start ht
    · rw [← hc]
      rfl
    · rw [← hc']
      exact hsize'
    · rw [← hc, ← hc']
      exact fun _ => offset_seamed (Nat.le_refl _)
    · rw [← hc, ← hc']
      rfl
    · rw [← hc]
      exact fun f hf => absurd hf (Array.not_mem_empty f)

/-- A script and one with a blank more whose statements are read alike. -/
theorem parse_eq_of_seamed {source source' : String} {k : Nat} (hk : k ≤ source.utf8ByteSize) (hpos : 0 < k)
    (hrest : tokenize source = t :: ts) (hrest' : tokenize source' = t :: ts')
    (hsize' : source'.utf8ByteSize = source.utf8ByteSize + 1)
    (hseparates : separates t.kind = false) (hcomment : t.kind ≠ .comment)
    (hfirst : (seamed k source.utf8ByteSize hk).Agree (statement (groups maxNesting)) (.ofSource source)
      (statement (groups maxNesting)) (.ofSource source')
      ((seamed k source.utf8ByteSize hk).Read ((seamed k source.utf8ByteSize hk).Beside true)
        Telling.statement 0 True)) :
    (View.seamless k).block (parse source').tree.body = (parse source).tree.body ∧
      (parse source).diagnostics = (parse source').diagnostics.map (View.seamless k).diagnostic := by
  obtain ⟨body, d, hrun, -⟩ := Parse.run_ends source
  obtain ⟨body', d', hrun', -⟩ := Parse.run_ends source'
  have hstart : t.start = 0 := by
    have htiles := tiles_tokenize source
    rw [hrest] at htiles
    exact htiles.1
  obtain ⟨halike, hd⟩ := statements_agrees_of_first (levels_agree (.inl ⟨rfl, rfl⟩)) rfl hrest hrest'
    (by rw [hstart]; exact (if_pos hpos).symm) rfl hseparates hcomment (sound_ofSource source) hfirst
    _ _ _ _ hrun hrun' (quiet_of_admitted _ fun _ _ h => h)
  have hsize : (View.seamless k).offset d'.size = d.size := by
    rw [hd.size_eq, hd.size_eq']
    exact if_neg (by show ¬source.utf8ByteSize + 1 ≤ k; omega)
  have hfaults := hd.faults_told
  rw [left_seamed] at hfaults
  rw [parse_eq hrun, parse_eq hrun', Parsed.diagnostics, Parsed.diagnostics]
  refine ⟨?_, ?_⟩
  · rw [View.block, alike_seamed.mp halike, View.span, hsize]
    rfl
  · calc d.faults.toList.map Fault.diagnostic
        = (d.faults.toList.map (Telling.fault ⟨View.whole, none⟩)).map Fault.diagnostic := by
          rw [List.map_map]
          rfl
      _ = (d'.faults.toList.map Fault.diagnostic).map (View.seamless k).diagnostic := by
          rw [← hfaults, List.map_map, List.map_map]
          rfl

end Mirror

open Mirror

section

variable {name value : String} (hname : ∀ c ∈ name.toList, c.isAlpha) (hne : name.toList ≠ [])

theorem utf8ByteSize_blank (a b : String) :
    (a ++ "= " ++ b).utf8ByteSize = (a ++ "=" ++ b).utf8ByteSize + 1 := by
  have hequals : "=".utf8ByteSize = 1 := rfl
  have hblank : "= ".utf8ByteSize = 2 := rfl
  simp only [String.utf8ByteSize_append, hequals, hblank]
  omega

include hname hne

theorem tokenize_variable {source : String} {cs : List Char}
    (hsource : source.toList = '$' :: name.toList ++ '=' :: cs) :
    tokenize source = ⟨.variable, String.ofList ('$' :: name.toList), 0⟩ ::
      ⟨.word, "=" ++ String.ofList (cs.take (wordLength cs)), utf8Len ('$' :: name.toList)⟩ ::
        tokensFrom (wordLength cs) (utf8Len ('$' :: name.toList) + 1) cs := by
  rw [tokenize, hsource, Lexer.tokensFrom_variable hne hname, Lexer.tokensFrom_operator, Nat.zero_add]

theorem tokenize_key {source : String} {cs : List Char}
    (hsource : source.toList = '@' :: '\x7b' :: (name.toList ++ '=' :: cs)) :
    tokenize source = ⟨.atBrace, "@\x7b", 0⟩ ::
      ⟨.word, String.ofList name.toList ++ ("=" ++ String.ofList (cs.take (wordLength cs))), 2⟩ ::
        tokensFrom (wordLength cs) (2 + utf8Len name.toList + 1) cs := by
  rw [tokenize, hsource, ← Lexer.tokensFrom_key hne hname]
  rfl

/-- A blank behind the operator of an assignment to a variable. -/
theorem parse_blank_behind_variable (hvalue : ∀ c, value.toList.head? = some c → Text.isBlank c = false)
    (hfresh : startsAfresh value.toList) :
    let v := View.seamless ("$" ++ name ++ "=").utf8ByteSize
    let p := parse ("$" ++ name ++ "=" ++ value)
    let p' := parse ("$" ++ name ++ "= " ++ value)
    v.block p'.tree.body = p.tree.body ∧ p.diagnostics = p'.diagnostics.map v.diagnostic := by
  intro v p p'
  let start := utf8Len ('$' :: name.toList)
  have hsource : ("$" ++ name ++ "=" ++ value).toList = '$' :: name.toList ++ '=' :: value.toList := by simp
  have htokens : tokenize ("$" ++ name ++ "=" ++ value) = _ := tokenize_variable hname hne hsource
  have hsource' : ("$" ++ name ++ "= " ++ value).toList =
      '$' :: name.toList ++ '=' :: ' ' :: value.toList := by simp
  have htokens' : tokenize ("$" ++ name ++ "= " ++ value) = _ := tokenize_variable hname hne hsource'
  have hk : ("$" ++ name ++ "=").utf8ByteSize = start + 1 := by
    rw [String.utf8ByteSize_append, String.utf8ByteSize_append, ← String.utf8Len_toList name,
      show start = utf8Len name.toList + 1 from rfl, Nat.add_comm "$".utf8ByteSize]
    rfl
  have hsize : ("$" ++ name ++ "=" ++ value).utf8ByteSize = start + 1 + utf8Len value.toList := by
    rw [String.utf8ByteSize_append, hk, String.utf8Len_toList]
  have hle : start + 1 ≤ ("$" ++ name ++ "=" ++ value).utf8ByteSize := by omega
  have hv : v = View.seamless (start + 1) := congrArg View.seamless hk
  let M := seamed (start + 1) _ hle
  have hoffset {n : Nat} (h : n ≤ start + 1) : M.right.offset n = M.left.offset n := offset_seamed h
  have hvariable : M.Alike Telling.expression
      (Token.variableReference ⟨.variable, String.ofList ('$' :: name.toList), 0⟩)
      (Token.variableReference ⟨.variable, String.ofList ('$' :: name.toList), 0⟩) := by
    have hstop : (Token.mk .variable (String.ofList ('$' :: name.toList)) 0).stop = start := by
      rw [Token.stop, String.utf8ByteSize_ofList, Nat.zero_add]
    unfold Token.variableReference
    simp only [Alike, Telling.expression_variable, View.span, Token.span, hstop, hoffset (Nat.zero_le _),
      hoffset (Nat.le_succ start)]
    rw [show M.left.text = M.right.text from rfl]
  rw [hv]
  have hcomment : TokenKind.variable ≠ .comment := by decide
  have hkind : TokenKind.variable ≠ .word := by decide
  refine parse_eq_of_seamed hle (Nat.succ_pos _) htokens htokens' (utf8ByteSize_blank _ value) rfl hcomment ?_
  refine Agree.of_eq ?_ (statement_of_not_word htokens hkind) (statement_of_not_word htokens' hkind)
  exact pipelineStatement_agrees_of_variable (levels_agree (.inl ⟨rfl, rfl⟩)) (sound_ofSource _)
    (sound_ofSource _) htokens htokens' rfl hvariable (hoffset (Nat.le_refl _))
    (nears_seamed hfresh hvalue hsize (utf8ByteSize_blank _ value) hle)

/-- A blank behind the equals sign of the first entry of a hashtable. -/
theorem parse_blank_behind_key (hvalue : ∀ c, value.toList.head? = some c → Text.isBlank c = false)
    (hfresh : startsAfresh value.toList) :
    let v := View.seamless ("@\x7b" ++ name ++ "=").utf8ByteSize
    let p := parse ("@\x7b" ++ name ++ "=" ++ value)
    let p' := parse ("@\x7b" ++ name ++ "= " ++ value)
    v.block p'.tree.body = p.tree.body ∧ p.diagnostics = p'.diagnostics.map v.diagnostic := by
  intro v p p'
  let start := 2 + utf8Len name.toList
  have hsource : ("@\x7b" ++ name ++ "=" ++ value).toList =
      '@' :: '\x7b' :: (name.toList ++ '=' :: value.toList) := by simp
  have htokens : tokenize ("@\x7b" ++ name ++ "=" ++ value) = _ := tokenize_key hname hne hsource
  have hsource' : ("@\x7b" ++ name ++ "= " ++ value).toList =
      '@' :: '\x7b' :: (name.toList ++ '=' :: ' ' :: value.toList) := by simp
  have htokens' : tokenize ("@\x7b" ++ name ++ "= " ++ value) = _ := tokenize_key hname hne hsource'
  have hk : ("@\x7b" ++ name ++ "=").utf8ByteSize = start + 1 := by
    rw [String.utf8ByteSize_append, String.utf8ByteSize_append, ← String.utf8Len_toList name]
    rfl
  have hsize : ("@\x7b" ++ name ++ "=" ++ value).utf8ByteSize = start + 1 + utf8Len value.toList := by
    rw [String.utf8ByteSize_append, hk, String.utf8Len_toList]
  have hle : start + 1 ≤ ("@\x7b" ++ name ++ "=" ++ value).utf8ByteSize := by omega
  have hv : v = View.seamless (start + 1) := congrArg View.seamless hk
  let M := seamed (start + 1) _ hle
  have hoffset (n : Nat) (h : n ≤ start + 1) : M.right.offset n = M.left.offset n := offset_seamed h
  have hequals : '=' ∉ name.toList := fun h => absurd (hname '=' h) (by decide)
  have hlevels : M.Levels 0 (groups maxNesting) (groups maxNesting) := levels_agree (.inl ⟨rfl, rfl⟩)
  rw [hv]
  have hcomment : TokenKind.atBrace ≠ .comment := by decide
  have hkind : TokenKind.atBrace ≠ .word := by decide
  refine parse_eq_of_seamed hle (Nat.succ_pos _) htokens htokens' (utf8ByteSize_blank _ value) rfl hcomment ?_
  refine Agree.of_eq ?_ (statement_of_not_word htokens hkind) (statement_of_not_word htokens' hkind)
  refine pipelineStatement_agrees_of_hashtable hlevels (kind?_of_rest (c := .ofSource _) htokens)
    (kind?_of_rest (c := .ofSource _) htokens') ?_
  exact hashtable_agrees_of_key (levels_agree (.inl ⟨rfl, rfl⟩)) hne hequals htokens htokens' hoffset rfl rfl
    (nears_seamed hfresh hvalue hsize (utf8ByteSize_blank _ value) hle)

end

/-- A blank behind the operator of an assignment changes nothing but offsets, if the text behind the operator
is read as it is read alone. So for an assignment to a variable, and for the first entry of a hashtable. -/
theorem parse_blank_behind_operator {name : String} (hne : name ≠ "") (hname : ∀ c ∈ name.toList, c.isAlpha)
    {value : String} (hvalue : ∀ c, value.toList.head? = some c → Text.isBlank c = false) :
    (startsAfresh value.toList →
      let v := View.seamless ("$" ++ name ++ "=").utf8ByteSize
      let p := parse ("$" ++ name ++ "=" ++ value)
      let p' := parse ("$" ++ name ++ "= " ++ value)
      v.block p'.tree.body = p.tree.body ∧ p.diagnostics = p'.diagnostics.map v.diagnostic) ∧
    (startsAfresh (value ++ "\x7d").toList →
      let v := View.seamless ("@\x7b" ++ name ++ "=").utf8ByteSize
      let p := parse ("@\x7b" ++ name ++ "=" ++ (value ++ "\x7d"))
      let p' := parse ("@\x7b" ++ name ++ "= " ++ (value ++ "\x7d"))
      v.block p'.tree.body = p.tree.body ∧ p.diagnostics = p'.diagnostics.map v.diagnostic) := by
  have hne : name.toList ≠ [] := fun h => hne (String.toList_eq_nil_iff.mp h)
  have hclosed : ∀ c, (value ++ "\x7d").toList.head? = some c → Text.isBlank c = false := by
    intro c hc
    rw [String.toList_append] at hc
    cases hlist : value.toList with
    | nil =>
        rw [hlist] at hc
        cases hc
        rfl
    | cons d ds =>
        rw [hlist] at hc
        exact hvalue c (by rw [hlist]; exact hc)
  exact ⟨parse_blank_behind_variable hname hne hvalue, parse_blank_behind_key hname hne hclosed⟩

theorem parse_blank_behind_operator_group :
    "a" ≠ "" ∧ (∀ c ∈ "a".toList, c.isAlpha) ∧
      (∀ c, "(Get-Item)".toList.head? = some c → Text.isBlank c = false) ∧
      startsAfresh "(Get-Item)".toList ∧ startsAfresh ("(Get-Item)" ++ "\x7d").toList ∧
      (View.seamless ("$" ++ "a" ++ "=").utf8ByteSize).block
          (parse ("$" ++ "a" ++ "= " ++ "(Get-Item)")).tree.body =
        (parse ("$" ++ "a" ++ "=" ++ "(Get-Item)")).tree.body ∧
      (View.seamless ("@\x7b" ++ "a" ++ "=").utf8ByteSize).block
          (parse ("@\x7b" ++ "a" ++ "= " ++ ("(Get-Item)" ++ "\x7d"))).tree.body =
        (parse ("@\x7b" ++ "a" ++ "=" ++ ("(Get-Item)" ++ "\x7d"))).tree.body := by
  have hname : ∀ c ∈ "a".toList, c.isAlpha := List.all_eq_true.mp rfl
  have hvalue : ∀ c, "(Get-Item)".toList.head? = some c → Text.isBlank c = false := by
    intro c hc
    cases hc
    rfl
  have h := parse_blank_behind_operator (by decide) hname hvalue
  exact ⟨by decide, hname, hvalue, by decide, by decide, (h.1 (by decide)).1, (h.2 (by decide)).1⟩

/-- What is left of a word behind its operator is a word, so that a variable there becomes the name of a
command. -/
theorem variable_behind_operator_called :
    startsAfresh "$b".toList = false ∧
      (Walker.ofTree (parse "$a=$b").tree).toList.map Invocation.commandName? = [some "$b"] ∧
      (Walker.ofTree (parse "$a= $b").tree).toList.map Invocation.commandName? = [] := by
  refine ⟨?_, ?_, ?_⟩ <;> decide +kernel

end ScriptLint
