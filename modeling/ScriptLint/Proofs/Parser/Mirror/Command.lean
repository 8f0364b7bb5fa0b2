import ScriptLint.Proofs.Parser.Mirror.Rules
import ScriptLint.Syntax.Parse.Statement

/-!
Commands and expressions are read alike in two scripts side by side, if groups are. An operand leaves the
cursors behind its last token, where a gap may follow; a command or an expression is read up to a token
that ends it, and the cursors stand at this token.
-/

namespace ScriptLint.Mirror

open ScriptLint.Parser ScriptLint.Parse Cursor

variable (M : Mirror)

/-- Something has been read in both scripts. -/
def Passed {α β : Type} (rel : List Token → List Token → Prop) (f : Telling → α → β) (depth : Nat)
    (a : α) (d : Cursor) (b : α) (d' : Cursor) : Prop :=
  M.Alike f a b ∧ M.Abreast rel depth True d d'

/-- Something that may be missing has been looked for in both scripts. -/
def Read {α β : Type} (rel : List Token → List Token → Prop) (f : Telling → α → β) (depth : Nat)
    (exact : Prop) : Option α → Cursor → Option α → Cursor → Prop
  | none, d, none, d' => M.Abreast M.Settled depth exact d d'
  | some a, d, some b, d' => M.Passed rel f depth a d b d'
  | _, _, _, _ => False

/-- What two loops have gathered so far is alike, one by one. -/
def AllAlike {α β : Type} (f : Telling → α → β) (as bs : Array α) : Prop :=
  as.toList.map (f M.left) = bs.toList.map (f M.right)

/-- What two loops have gathered so far, and where they are. -/
def Collected {α β : Type} (rel : List Token → List Token → Prop) (f : Telling → α → β) (depth : Nat)
    (as : Array α) (d : Cursor) (bs : Array α) (d' : Cursor) : Prop :=
  M.AllAlike f as bs ∧ M.Abreast rel depth True d d'

/-- The groups of two levels are read alike with `depth` groups around them. -/
structure Levels (depth : Nat) (g g' : Groups) : Prop where
  add : g.Add
  safe : g.Safe
  block : ∀ {c c' : Cursor} {exact : Prop}, M.Abreast M.Settled depth exact c c' →
    c.kind? = some .openBrace →
    M.Agree g.block c g'.block c' (M.Passed (M.Beside true) Telling.block depth)
  subexpression : ∀ {c c' : Cursor} {exact : Prop} {k : TokenKind},
    M.Abreast M.Settled depth exact c c' → c.kind? = some k → k.closer? = some .paren →
    M.Agree g.subexpression c g'.subexpression c' (M.Passed (M.Beside true) Telling.expression depth)
  hashtable : ∀ {c c' : Cursor} {exact : Prop}, M.Abreast M.Settled depth exact c c' →
    c.kind? = some .atBrace →
    M.Agree g.hashtable c g'.hashtable c' (M.Passed (M.Beside true) Telling.expression depth)

variable {M} {α β : Type} {g g' : Groups} {depth : Nat} {exact : Prop} {c c' : Cursor}
  {t t' : Token} {free : Bool}

section

variable {f : Telling → α → β} {as bs : Array α} {a b : α}

theorem AllAlike.nil : M.AllAlike f #[] #[] := rfl

theorem AllAlike.push (h : M.AllAlike f as bs) (hab : M.Alike f a b) :
    M.AllAlike f (as.push a) (bs.push b) := by
  unfold AllAlike at h ⊢
  rw [Array.toList_push, Array.toList_push, List.map_append, List.map_append, h]
  exact congrArg (fun x => _ ++ [x]) hab

theorem AllAlike.single (h : M.Alike f a b) : M.AllAlike f #[a] #[b] := congrArg (fun x => [x]) h

theorem AllAlike.isEmpty_eq (h : M.AllAlike f as bs) : bs.isEmpty = as.isEmpty := by
  have hlength := congrArg List.length h
  rw [List.length_map, List.length_map, Array.length_toList, Array.length_toList] at hlength
  rw [Array.isEmpty, Array.isEmpty, hlength]

end

/-- The two spans of what is alike. -/
theorem Alike.span {e e' : Expression} (h : M.Alike Telling.expression e e') :
    M.right.span e'.span = M.left.span e.span := by
  rw [← Telling.span_expression, ← h, Telling.span_expression]

theorem Alike.start {e e' : Expression} (h : M.Alike Telling.expression e e') :
    M.right.offset e'.span.start = M.left.offset e.span.start := congrArg Span.start h.span

theorem Alike.stop {e e' : Expression} (h : M.Alike Telling.expression e e') :
    M.right.offset e'.span.stop = M.left.offset e.span.stop := congrArg Span.stop h.span

namespace Same

theorem bareword (h : M.Same t t') : M.Alike Telling.expression t.bareword t'.bareword := by
  simp only [Alike, Token.bareword, Telling.expression_bareword, h.text_eq, h.span_eq, right_text]

theorem stringLiteral (h : M.Same t t') :
    M.Alike Telling.expression t.stringLiteral t'.stringLiteral := by
  simp only [Alike, Token.stringLiteral, Telling.expression_stringLiteral, h.text_eq,
    Telling.unquote_text h.suits, h.span_eq, right_text]

theorem variableReference (h : M.Same t t') :
    M.Alike Telling.expression t.variableReference t'.variableReference := by
  simp only [Alike, Token.variableReference, Telling.expression_variable, h.text_eq,
    Telling.variableName_text, h.span_eq, right_text]

theorem typeLiteral (h : M.Same t t') : M.Alike Telling.expression t.typeLiteral t'.typeLiteral := by
  simp only [Alike, Token.typeLiteral, Telling.expression_typeLiteral, h.text_eq, h.span_eq, right_text]

end Same

theorem primary_agrees (hg : M.Levels depth g g') (hc : M.Abreast M.Settled depth exact c c') :
    M.Agree (primary g) c (primary g') c'
      (M.Read (M.Beside true) Telling.expression depth exact) := by
  rw [primary, primary, agree_get_bind]
  rcases hc.kind?_eq with hk | ⟨hnil, k, hk, hends⟩
  · rw [hk]
    split
    case h_1 hk =>
      refine agree_advance hc hk rfl rfl ?_
      intro t t' d d' hsame _ hd
      exact .pure ⟨hsame.bareword, hd.imp Beside.weaken id⟩
    case h_2 hk =>
      refine agree_advance hc hk rfl rfl ?_
      intro t t' d d' hsame _ hd
      unfold checkClosed
      rw [hsame.kind_eq]
      split
      case isTrue =>
        have hreport := hd.report (alike_fault (p := .unterminatedString t.quote) (fun _ => rfl) hsame.span_eq)
        rw [agree_report_bind, Telling.quote_eq hsame.text_eq]
        exact .pure ⟨hsame.stringLiteral, hreport.imp Beside.weaken id⟩
      case isFalse => exact .pure ⟨hsame.stringLiteral, hd.imp Beside.weaken id⟩
    case h_3 hk =>
      refine agree_advance hc hk rfl rfl ?_
      intro t t' d d' hsame _ hd
      exact .pure ⟨hsame.variableReference, hd.imp Beside.weaken id⟩
    case h_4 hk =>
      refine agree_advance hc hk rfl rfl ?_
      intro t t' d d' hsame _ hd
      exact .pure ⟨hsame.typeLiteral, hd.imp Beside.weaken id⟩
    case h_5 hk =>
      refine .map ((hg.block hc hk).mono ?_)
      rintro b d b' d' ⟨halike, hd⟩
      refine ⟨?_, hd⟩
      rw [Alike, Telling.expression_scriptBlock, Telling.expression_scriptBlock, halike]
    case h_6 hk | h_7 hk | h_8 hk => exact .map (hg.subexpression hc hk rfl)
    case h_9 hk => exact .map (hg.hashtable hc hk)
    case h_10 => exact .pure hc
  · rw [kind?_of_rest_nil hnil, hk]
    cases k <;> first | exact .pure hc | cases hends

/-- Parts of an expression, of which there is one at least. -/
theorem joined_agrees {rel : List Token → List Token → Prop} {parts parts' : Array Expression}
    (hparts : M.AllAlike Telling.expression parts parts') (hne : parts.toList ≠ [])
    (hc : M.Abreast rel depth True c c') :
    M.Agree (joined parts.toList) c (joined parts'.toList) c'
      (M.Read rel Telling.expression depth exact) := by
  unfold AllAlike at hparts
  match h : parts.toList, h' : parts'.toList with
  | [], _ => exact absurd h hne
  | _ :: _, [] => simp [h, h'] at hparts
  | [part], _ :: _ :: _ => simp [h, h'] at hparts
  | _ :: _ :: _, [part] => simp [h, h'] at hparts
  | [part], [part'] =>
    rw [h, h'] at hparts
    exact .pure ⟨(List.cons.inj hparts).1, hc⟩
  | first :: second :: rest, first' :: second' :: rest' =>
    rw [h, h'] at hparts
    have hfirst : M.Alike Telling.expression first first' := (List.cons.inj hparts).1
    refine agree_spanFrom_bind (.pure ⟨?_, hc⟩)
    simp only [Alike, Telling.expression_sequence, hparts, View.span, hfirst.start,
      hc.lastEnd_eq trivial]

theorem argumentAtom_agrees (hg : M.Levels depth g g')
    (hc : M.Abreast M.Settled depth exact c c') :
    M.Agree (argumentAtom g) c (argumentAtom g') c'
      (M.Read (M.Beside true) Telling.expression depth exact) := by
  rw [argumentAtom, argumentAtom, agree_get_bind]
  rcases hc.kind?_eq with hk | ⟨hnil, k, hk, hends⟩
  · rw [hk]
    split
    case h_1 hk | h_2 hk =>
      refine agree_advance hc hk rfl rfl ?_
      intro t t' d d' hsame _ hd
      exact .pure ⟨hsame.bareword, hd.imp Beside.weaken id⟩
    case h_3 => exact primary_agrees hg hc
  · rw [kind?_of_rest_nil hnil, hk]
    cases k <;> first | exact primary_agrees hg hc | cases hends

/-- A token touches the last one in both scripts or in neither. -/
theorem touching_eq (hc : M.Abreast (M.Beside free) depth True c c') (hseam : M.seam < c.lastEnd) :
    touching c' = touching c ∧ (touching c = true → M.Abreast M.Settled depth True c c') := by
  have hlast : c'.lastEnd = M.offset c.lastEnd := M.back_inj _ _ hseam (hc.lastEnd_eq trivial)
  have hstart {t t' : Token} {ts : List Token} (hmet : M.Met t t') (hrest : c.rest = t :: ts) :
      (t'.start = c'.lastEnd) = (t.start = c.lastEnd) := by
    have hle : c.lastEnd ≤ t.start := offset_eq_start hrest ▸ hc.sound.lastEnd_le
    rw [hmet.start_eq, hlast]
    exact propext ⟨fun h => (hmet.apart _ hle h.symm).symm, congrArg M.offset⟩
  have hahead := hc.ahead
  unfold touching
  generalize hrest : c.rest = ts at hahead
  generalize hrest' : c'.rest = ts' at hahead
  cases hahead with
  | nil =>
      refine ⟨?_, fun h => absurd h Bool.false_ne_true⟩
      split
      case h_1 => rfl
      case h_2 t ts htail =>
        have hends := (M.tail_head t ts htail).1
        have hkind : continuesArgument t.kind = false := by
          cases hk : t.kind <;> rw [hk] at hends <;> first | rfl | cases hends
        rw [hkind, Bool.and_false]
  | @cons _ t t' ts ts' hsame hbeside =>
      dsimp only
      simp only [hstart hsame.met hrest, hsame.kind_eq]
      refine ⟨trivial, fun h => hc.imp (fun _ => ?_) id⟩
      have hkind := (Bool.and_eq_true_iff.mp h).2
      have hblank : t.kind ≠ .whitespace := fun hblank => by simp [hblank, continuesArgument] at hkind
      rw [Token.leaves_of_ne hblank] at hbeside
      rw [hrest, hrest']
      exact .meets hsame hblank hbeside
  | emptied hgroup hbeside =>
      dsimp only
      simp only [hstart hgroup.met hrest, hgroup.met.kind_eq]
      refine ⟨trivial, fun _ => hc.imp (fun _ => ?_) id⟩
      rw [hrest, hrest']
      exact .emptied hgroup hbeside
  | gap hgap _ _ =>
      obtain ⟨t, us, t', us', rfl, rfl, -⟩ := hgap.starts
      have htrivia := hgap.trivia t List.mem_cons_self
      have hkind : continuesArgument t.kind = false := by
        cases hk : t.kind <;> rw [hk] at htrivia <;> first | rfl | cases htrivia
      have hkind' : continuesArgument t'.kind = false := by
        rw [hgap.blanks t' List.mem_cons_self]
        rfl
      simp only [List.cons_append, hkind, hkind', Bool.and_false, Bool.false_eq_true, false_imp_iff,
        and_self]

/-- The parts of an argument, of which there is one at least. -/
def Parts (M : Mirror) (depth : Nat) (parts : Array Expression) (d : Cursor)
    (parts' : Array Expression) (d' : Cursor) : Prop :=
  parts.toList ≠ [] ∧ M.seam < d.lastEnd ∧
    M.Collected (M.Beside true) Telling.expression depth parts d parts' d'

theorem adjacentRound_agrees (hg : M.Levels depth g g') {parts parts' : Array Expression}
    (h : M.Parts depth parts c parts' c') :
    M.Agree (adjacentRound g parts) c (adjacentRound g' parts') c'
      (Rounds (M.Parts depth) (M.Parts depth)) := by
  obtain ⟨hne, hseam, hparts, hc⟩ := h
  obtain ⟨htouching, hsettled⟩ := touching_eq hc hseam
  rw [adjacentRound, adjacentRound, agree_get_bind, htouching]
  split
  case isTrue h =>
    refine ((argumentAtom_agrees hg (hsettled h)).and_ends (argumentAtom_ends hg.safe hc.sound)).bind
      (fun part? => by cases part? <;> exact keeps_pure _) ?_
    rintro (_ | part) d (_ | part') d' ⟨hread, htakes⟩
    · exact .pure ⟨hne, (show d = c from htakes) ▸ hseam, hparts, hread.beside⟩
    · exact hread.elim
    · exact hread.elim
    · exact .pure ⟨by simp, (hsettled h).seam_lt htakes, hparts.push hread.1, hread.2⟩
  case isFalse => exact .pure ⟨hne, hseam, hparts, hc⟩

theorem adjacent_agrees (hg : M.Levels depth g g') (hc : M.Abreast M.Settled depth exact c c') :
    M.Agree (adjacent g) c (adjacent g') c'
      (M.Read (M.Beside true) Telling.expression depth exact) := by
  refine ((argumentAtom_agrees hg hc).and_ends (argumentAtom_ends hg.safe hc.sound)).bind
    (fun first? => ?_) ?_
  · cases first? with
    | none => exact keeps_pure _
    | some first =>
        exact keeps_bind (keeps_repeating (keeps_adjacentRound hg.add) _) fun _ => keeps_joined _
  rintro (_ | first) d (_ | first') d' ⟨hread, htakes⟩
  · exact .pure hread
  · exact hread.elim
  · exact hread.elim
  have hfirst : M.Parts depth #[first] d #[first'] d' :=
    ⟨by simp, hc.seam_lt htakes, .single hread.1, hread.2⟩
  refine (agree_loop (keeps_adjacentRound hg.add) hfirst fun _ _ _ _ h =>
    adjacentRound_agrees hg h).bind (fun _ => keeps_joined _) ?_
  rintro parts e parts' e' ⟨hne, -, hparts, he⟩
  exact joined_agrees hparts hne he

/-- A comma is ahead in both scripts or in neither. -/
theorem agree_commaAhead {γ δ : Type} {f : Bool → Parser γ} {f' : Bool → Parser δ}
    {R : γ → Cursor → δ → Cursor → Prop} (hc : M.Abreast (M.Beside free) depth exact c c')
    (htrue : M.Abreast M.Settled depth exact c.skipBlanks c'.skipBlanks →
      c.skipBlanks.kind? = some .comma → M.Agree (f true) c.skipBlanks (f' true) c'.skipBlanks R)
    (hfalse : M.Agree (f false) c (f' false) c' R) :
    M.Agree (commaAhead >>= f) c (commaAhead >>= f') c' R := by
  have hyes {c : Cursor} (h : c.skipBlanks.kind? = some .comma) :
      commaAhead c = .ok (true, c.skipBlanks) := by
    show (if c.skipBlanks.kind? = some .comma then _ else _ : Parser Bool) c = _
    rw [if_pos h]
    rfl
  have hno {c : Cursor} (h : c.skipBlanks.kind? ≠ some .comma) :
      commaAhead c = .ok (false, c) := by
    show (if c.skipBlanks.kind? = some .comma then _ else _ : Parser Bool) c = _
    rw [if_neg h]
    rfl
  rcases hc.skipBlanks_or with hskip | ⟨-, ⟨t, us, hrest, hkind, -⟩, hcomma'⟩
  · by_cases hcomma : c.skipBlanks.kind? = some .comma
    · have hcomma' : c'.skipBlanks.kind? = some .comma := by
        rcases hskip.kind?_eq with hk | ⟨hnil, -⟩
        · rw [hk, hcomma]
        · cases (kind?_of_rest_nil hnil).symm.trans hcomma
      exact .bind_of_ok (hyes hcomma) (hyes hcomma') (htrue hskip hcomma)
    · have hcomma' : c'.skipBlanks.kind? ≠ some .comma := by
        rcases hskip.kind?_eq with hk | ⟨-, k, hk, hends⟩
        · rwa [hk]
        · rw [hk]
          rintro ⟨⟩
          cases hends
      exact .bind_of_ok (hno hcomma) (hno hcomma') hfalse
  · have hcomma : c.skipBlanks.kind? ≠ some .comma := by
      rw [kind?_of_rest hrest, hkind]
      exact nofun
    exact .bind_of_ok (hno hcomma) (hno hcomma') hfalse

theorem arrayRound_agrees (hg : M.Levels depth g g') {items items' : Array Expression}
    (h : M.Collected (M.Beside true) Telling.expression depth items c items' c') :
    M.Agree (arrayRound g items) c (arrayRound g' items') c'
      (Rounds (M.Collected (M.Beside true) Telling.expression depth)
        (M.Collected (M.Beside true) Telling.expression depth)) := by
  obtain ⟨hitems, hc⟩ := h
  refine agree_commaAhead hc (fun hskip hcomma => ?_) (.pure ⟨hitems, hc⟩)
  refine agree_advance hskip hcomma rfl rfl fun t t' d d' _ _ hd => ?_
  rw [agree_skipSpacing_bind]
  refine (adjacent_agrees hg hd.skipSpacing).bind
    (fun item? => by cases item? <;> exact keeps_pure _) ?_
  rintro (_ | item) e (_ | item') e' hread
  · exact .pure ⟨hitems, hread.beside⟩
  · exact hread.elim
  · exact hread.elim
  · exact .pure ⟨hitems.push hread.1, hread.2⟩

theorem argument_agrees (hg : M.Levels depth g g') (hc : M.Abreast M.Settled depth exact c c') :
    M.Agree (argument g) c (argument g') c'
      (M.Read (M.Beside true) Telling.expression depth exact) := by
  have hadds (first : Expression) : Adds (do
      let items ← repeating (arrayRound g) #[first]
      return some (Expression.array items.toList (← spanFrom first.span.start))) :=
    keeps_bind (keeps_repeating (keeps_arrayRound hg.add) _) fun _ => keeps_return (keeps_spanFrom _)
  refine (adjacent_agrees hg hc).bind (fun first? => ?_) ?_
  · cases first? with
    | none => exact keeps_pure _
    | some first =>
        refine keeps_bind keeps_commaAhead fun comma => ?_
        cases comma with
        | false => exact keeps_pure _
        | true => exact hadds first
  rintro (_ | first) d (_ | first') d' hread
  · exact .pure hread
  · exact hread.elim
  · exact hread.elim
  refine agree_commaAhead hread.2 (fun hskip _ => ?_) (.pure hread)
  have hfirst : M.Collected (M.Beside true) Telling.expression depth #[first] d.skipBlanks #[first']
      d'.skipBlanks := ⟨.single hread.1, hskip.beside⟩
  refine (agree_loop (keeps_arrayRound hg.add) hfirst fun _ _ _ _ h =>
    arrayRound_agrees hg h).bind (fun _ => keeps_return (keeps_spanFrom _)) ?_
  rintro items e items' e' ⟨hitems, he⟩
  refine agree_spanFrom_bind (.pure ⟨?_, he⟩)
  unfold AllAlike at hitems
  simp only [Alike, Telling.expression_array, hitems, View.span, hread.1.start, he.lastEnd_eq trivial]

/-- An argument is looked for across blanks, which no gap may interrupt. -/
theorem argumentIf_agrees (hg : M.Levels depth g g')
    (hc : M.Abreast (M.Beside free) depth True c c') {expected : Bool}
    (hfree : expected = true → free = false) :
    M.Agree (argumentIf g expected) c (argumentIf g' expected) c'
      (M.Passed (M.Beside true) (fun v => Option.map v.expression) depth) := by
  cases expected with
  | false => exact .pure ⟨rfl, hc.imp Beside.weaken id⟩
  | true =>
      obtain rfl := hfree rfl
      refine (argument_agrees hg hc.skipBlanks).mono ?_
      rintro (_ | e) d (_ | e') d' hread
      · exact ⟨rfl, hread.beside⟩
      · exact hread.elim
      · exact hread.elim
      · exact ⟨congrArg some hread.1, hread.2⟩

theorem redirection_agrees (hg : M.Levels depth g g') (hc : M.Abreast M.Settled depth exact c c')
    (hk : c.kind? = some .redirection) :
    M.Agree (redirection g) c (redirection g') c'
      (M.Passed (M.Beside true) Telling.redirection depth) := by
  refine agree_advance hc hk rfl rfl fun t t' d d' hsame hkind hd => ?_
  have hmerges : '&' ∈ t'.text.toList ↔ '&' ∈ t.text.toList := by
    rw [hsame.text_eq]
    exact Telling.mem_text rfl
  simp only [hmerges]
  refine (argumentIf_agrees hg hd fun hexpected => ?_).bind
    (fun _ => keeps_return (keeps_spanFrom _)) ?_
  · rw [Token.awaits, hkind]
    exact congrArg not hexpected
  · rintro target e target' e' ⟨htarget, he⟩
    refine agree_spanFrom_bind (.pure ⟨?_, he⟩)
    unfold Alike at htarget
    simp only [Alike, Telling.redirection_mk, htarget, View.span, hsame.text_eq, right_text,
      hsame.start_eq, right_offset, he.lastEnd_eq trivial]

theorem parameter_agrees (hg : M.Levels depth g g') (hc : M.Abreast M.Settled depth exact c c')
    {colon : Bool} (hk : c.kind? = some (.parameter colon)) :
    M.Agree (parameter g) c (parameter g') c'
      (M.Passed (M.Beside true) Telling.element depth) := by
  refine agree_advance hc hk rfl rfl fun t t' d d' hsame hkind hd => ?_
  rw [hsame.kind_eq, Telling.parameterName_eq hsame.kind_eq hsame.text_eq]
  refine (argumentIf_agrees hg hd fun hexpected => ?_).bind
    (fun _ => keeps_return (keeps_spanFrom _)) ?_
  · rw [Token.awaits, of_decide_eq_true hexpected]
    rfl
  · rintro argument e argument' e' ⟨hargument, he⟩
    refine agree_spanFrom_bind (.pure ⟨?_, he⟩)
    unfold Alike at hargument
    simp only [Alike, Telling.element_parameter, hargument, View.span, right_text, hsame.start_eq,
      right_offset, he.lastEnd_eq trivial]

/-- What has been read behind the names of two commands. -/
structure Called (M : Mirror) (rel : List Token → List Token → Prop) (depth : Nat)
    (args : Arguments) (d : Cursor) (args' : Arguments) (d' : Cursor) : Prop where
  elements : M.AllAlike Telling.element args.elements args'.elements
  redirections : M.AllAlike Telling.redirection args.redirections args'.redirections
  ended_eq : args'.parametersEnded = args.parametersEnded
  abreast : M.Abreast rel depth True d d'

theorem pass_of_isSpacing {ts : List Token} (h : t.kind.isSpacing) :
    c.pass t ts = { c with rest := ts } := by
  rw [Cursor.pass, if_pos h]

/-- Behind the name of a command, blanks and comments are passed over one by one. -/
theorem leads_commandRound (g : Groups) (args : Arguments) (c : Cursor) :
    Leads (commandRound g) (args, c) (args, c.skip TokenKind.isTrivia) := by
  refine Leads.skip fun c t ts hrest htrivia => Leads.of_yield ?_
  rw [commandRound, get_bind_run, hrest]
  dsimp only
  rw [if_pos htrivia, bind_run, advance_of_rest hrest,
    pass_of_isSpacing (TokenKind.isSpacing_of_isTrivia _ htrivia)]
  rfl

theorem commandRound_agrees (hg : M.Levels depth g g') {args args' : Arguments}
    (h : M.Called M.Settled depth args c args' c') :
    M.Agree (commandRound g args) c (commandRound g' args') c'
      (Rounds (M.Called (M.Beside true) depth) (M.Called M.Settled depth)) := by
  have hc := h.abreast
  rw [commandRound, commandRound, agree_get_bind]
  cases hrest : c.rest with
  | nil =>
      rcases hc.rest_of_nil hrest with hrest' | ⟨t, ts, hrest', hends⟩
      · rw [hrest']
        exact .pure h
      · rw [hrest']
        dsimp only
        rw [TokenKind.isTrivia_of_endsStatement hends, TokenKind.isTerminator_of_endsStatement hends]
        exact .pure h
  | cons t ts =>
      obtain ⟨t', ts', hrest', hmet⟩ := hc.meet hrest
      have hk := kind?_of_rest hrest
      have hdashes : t'.text = "--" ↔ t.text = "--" := by
        rw [hmet.text_eq]
        exact Telling.text_eq_iff rfl
      rw [hrest']
      dsimp only
      simp only [hmet.kind_eq, hdashes, h.ended_eq]
      split_ifs with htrivia hend hredirection hparameter hdashes
      · obtain ⟨u', us', hu', hpass⟩ := hc.pass_trivia hrest htrivia
        rw [agree_advance_bind hrest hu']
        exact .pure { h with abreast := hpass }
      · exact .pure h
      · rw [hredirection] at hk
        refine .map ((redirection_agrees hg hc hk).mono ?_)
        rintro r d r' d' ⟨hr, hd⟩
        exact ⟨h.elements, h.redirections.push hr, rfl, hd⟩
      · obtain ⟨colon, hcolon⟩ := isParameter_iff.mp hparameter.1
        rw [hcolon] at hk
        refine .map ((parameter_agrees hg hc hk).mono ?_)
        rintro e d e' d' ⟨he, hd⟩
        exact ⟨h.elements.push he, h.redirections, rfl, hd⟩
      · rw [hdashes.1] at hk
        refine agree_advance hc hk rfl rfl fun u u' d d' _ _ hd => .pure ?_
        exact ⟨h.elements, h.redirections, rfl, hd.imp Beside.weaken id⟩
      · refine (argument_agrees hg hc).bind (fun value? => by cases value? <;> exact keeps_pure _) ?_
        rintro (_ | value) d (_ | value') d' hread
        · exact .pure { h with abreast := hread }
        · exact hread.elim
        · exact hread.elim
        · have hvalue : M.Alike Telling.element (.argument value) (.argument value') := by
            rw [Alike, Telling.element_argument, Telling.element_argument, hread.1]
          exact .pure ⟨h.elements.push hvalue, h.redirections, rfl, hread.2⟩

/-- A command whose head has been read in both scripts. -/
theorem command_agrees (hg : M.Levels depth g g') (hc : M.Abreast (M.Beside true) depth True c c')
    {start start' : Nat} (hstart : M.right.offset start' = M.left.offset start) (operator : Option CallOperator)
    {head head' : Expression} (hhead : M.Alike Telling.expression head head') :
    M.Agree (command g start operator head) c (command g' start' operator head') c'
      (M.Passed M.Settled Telling.invocation depth) := by
  have hempty : M.Called (M.Beside true) depth {} c {} c' := ⟨.nil, .nil, rfl, hc⟩
  refine (agree_repeating (Q := M.Called M.Settled depth) (keeps_commandRound hg.add) hempty
    fun args d args' d' h => ?_).bind (fun _ => keeps_get_bind fun _ => keeps_return (keeps_span _ _)) ?_
  · exact ⟨_, _, leads_commandRound g args d, leads_commandRound g' args' d',
      commandRound_agrees hg { h with abreast := h.abreast.skipTrivia }⟩
  · rintro args d args' d' ⟨helements, hredirections, -, hd⟩
    rw [agree_get_bind]
    refine agree_span_bind (.pure ⟨?_, hd⟩)
    unfold AllAlike at helements hredirections
    have hstop := hhead.stop
    unfold Alike at hhead
    simp only [Alike, Telling.invocation_mk, hhead, helements, hredirections, View.span, hstart,
      left_offset_max, right_offset_max, hd.lastEnd_eq trivial, hstop]

/-- The parts of an expression, of which there may be none yet. -/
def Operands (M : Mirror) (rel : List Token → List Token → Prop) (depth : Nat) (exact : Prop)
    (parts : Array Expression) (d : Cursor) (parts' : Array Expression) (d' : Cursor) : Prop :=
  M.AllAlike Telling.expression parts parts' ∧
    M.Abreast rel depth (exact ∨ parts.toList ≠ []) d d'

theorem leads_expressionRound (g : Groups) (parts : Array Expression) (c : Cursor) :
    Leads (expressionRound g) (parts, c) (parts, c.skip TokenKind.isTrivia) := by
  refine Leads.skip fun c t ts hrest htrivia => Leads.of_yield ?_
  rw [expressionRound, get_bind_run, hrest]
  dsimp only
  rw [if_pos htrivia, bind_run, advance_of_rest hrest,
    pass_of_isSpacing (TokenKind.isSpacing_of_isTrivia _ htrivia)]
  rfl

theorem expressionRound_agrees (hg : M.Levels depth g g') {parts parts' : Array Expression}
    (h : M.Operands M.Settled depth exact parts c parts' c') :
    M.Agree (expressionRound g parts) c (expressionRound g' parts') c'
      (Rounds (M.Operands (M.Beside true) depth exact) (M.Operands M.Settled depth exact)) := by
  obtain ⟨hparts, hc⟩ := h
  rw [expressionRound, expressionRound, agree_get_bind]
  cases hrest : c.rest with
  | nil =>
      rcases hc.rest_of_nil hrest with hrest' | ⟨t, ts, hrest', hends⟩
      · rw [hrest']
        exact .pure ⟨hparts, hc⟩
      · rw [hrest']
        dsimp only
        rw [TokenKind.isTrivia_of_endsStatement hends, TokenKind.isTerminator_of_endsStatement hends]
        exact .pure ⟨hparts, hc⟩
  | cons t ts =>
      obtain ⟨t', ts', hrest', hmet⟩ := hc.meet hrest
      have hk := kind?_of_rest hrest
      rw [hrest']
      dsimp only
      rw [hmet.kind_eq, hmet.text_eq, Telling.assignmentLength?_text, hparts.isEmpty_eq]
      split_ifs with htrivia hend hassign hword
      · obtain ⟨u', us', hu', hpass⟩ := hc.pass_trivia hrest htrivia
        rw [agree_advance_bind hrest hu']
        exact .pure ⟨hparts, hpass⟩
      · exact .pure ⟨hparts, hc⟩
      · exact .pure ⟨hparts, hc⟩
      -- a word, a parameter, a comma or a redirection is a part by itself
      · have hkind : t.kind.isBracket = false ∧ t.kind.isSpacing = false := by
          rcases hword with h | h | h | h
          · rw [h]
            exact ⟨rfl, rfl⟩
          · obtain ⟨colon, h⟩ := isParameter_iff.mp h
            rw [h]
            exact ⟨rfl, rfl⟩
          · rw [h]
            exact ⟨rfl, rfl⟩
          · rw [h]
            exact ⟨rfl, rfl⟩
        refine agree_advance hc hk hkind.1 hkind.2 fun u u' d d' hsame _ hd => .pure ?_
        exact ⟨hparts.push hsame.bareword, hd.imp Beside.weaken fun _ => trivial⟩
      · refine (primary_agrees hg hc).bind (fun part? => by cases part? <;> exact keeps_pure _) ?_
        rintro (_ | part) d (_ | part') d' hread
        · exact .pure ⟨hparts, hread⟩
        · exact hread.elim
        · exact hread.elim
        · exact .pure ⟨hparts.push hread.1, hread.2.imp id fun _ => trivial⟩

/-- An expression whose first part is read alike. -/
theorem expression_agrees_of_first (hg : M.Levels depth g g')
    (hfirst : M.Agree (expressionRound g #[]) c (expressionRound g' #[]) c'
      (Rounds (M.Operands (M.Beside true) depth exact) (M.Operands M.Settled depth exact))) :
    M.Agree (expression g) c (expression g') c' (M.Read M.Settled Telling.expression depth exact) := by
  refine (agree_repeating_of_first (Q := M.Operands M.Settled depth exact)
    (keeps_expressionRound hg.add) hfirst fun parts d parts' d' h => ?_).bind (fun _ => keeps_joined _) ?_
  · exact ⟨_, _, leads_expressionRound g parts d, leads_expressionRound g' parts' d',
      expressionRound_agrees hg ⟨h.1, h.2.skipTrivia⟩⟩
  · rintro parts d parts' d' ⟨hparts, hd⟩
    by_cases hne : parts.toList = []
    · have hne' : parts'.toList = [] := by
        unfold AllAlike at hparts
        rw [hne] at hparts
        exact List.map_eq_nil_iff.mp hparts.symm
      rw [hne, hne']
      exact .pure (hd.imp id .inl)
    · exact joined_agrees hparts hne (hd.imp id fun _ => .inr hne)

theorem expression_agrees (hg : M.Levels depth g g') (hc : M.Abreast M.Settled depth exact c c') :
    M.Agree (expression g) c (expression g') c' (M.Read M.Settled Telling.expression depth exact) :=
  expression_agrees_of_first hg (expressionRound_agrees hg
    ⟨.nil, hc.imp id fun h => h.resolve_right fun h => h rfl⟩)

end ScriptLint.Mirror
