import ScriptLint.Proofs.Syntax.Locality

/-!
Marks. A string, a block comment and a variable in braces are looked for up to the mark that ends them, over
line ends and brackets. Where the mark is missing, the token takes the rest of the script, so only the last
token of a script can be without it.
-/

namespace ScriptLint

namespace TokenKind

/-- The kinds of the tokens that a mark ends. -/
def isMarked : TokenKind → Bool
  | .comment | .variable | .string _ => true
  | _ => false

end TokenKind

namespace Token

/-- The mark that the token starts with and the one that is to end it, if it is a string, a block comment
or a variable in braces. -/
def marks? (t : Token) : Option (List Char × List Char) :=
  match t.kind, t.text.toList with
  | .comment, '<' :: '#' :: _ => some (['<', '#'], ['#', '>'])
  | .variable, '$' :: '{' :: _ => some (['$', '{'], ['}'])
  | .string _, '@' :: quote :: _ => some (['@', quote], ['\n', quote, '@'])
  | .string _, quote :: _ => some ([quote], [quote])
  | _, _ => none

/-- If a mark is to end the token, it does, behind the one that the token starts with. -/
def Closed (t : Token) : Prop := ∀ m ∈ t.marks?, m.2 <:+ t.text.toList.drop m.1.length

instance (t : Token) : Decidable t.Closed := inferInstanceAs (Decidable (∀ m ∈ t.marks?, _))

/-- The mark that is to end the token stands nowhere behind the one that it starts with. -/
def RunsOut (t : Token) : Prop := ∃ m ∈ t.marks?, ¬m.2 <:+: t.text.toList.drop m.1.length

theorem closed_of_marks? {t : Token} (h : t.marks? = none) : t.Closed := by
  rw [Closed, h]
  nofun

theorem marks?_of_not_isMarked {t : Token} (h : t.kind.isMarked = false) : t.marks? = none := by
  obtain ⟨kind, text, start⟩ := t
  cases kind <;> first | rfl | cases h

end Token

namespace Lexer

theorem isSuffix_take_of_lengthThrough? {pattern cs : List Char} {n : Nat}
    (h : lengthThrough? pattern cs = some n) : pattern <:+ cs.take n := by
  induction cs generalizing n with
  | nil => cases h
  | cons c cs ih =>
      rw [lengthThrough?] at h
      split at h
      case isTrue hp =>
        obtain rfl := Option.some.inj h
        exact ⟨[], List.prefix_iff_eq_take.mp (List.isPrefixOf_iff_prefix.mp hp)⟩
      case isFalse =>
        obtain ⟨m, hm, rfl⟩ := Option.map_eq_some_iff.mp h
        exact (ih hm).trans (List.suffix_cons c _)

theorem not_isInfix_of_lengthThrough? {pattern cs : List Char} (hne : pattern ≠ [])
    (h : lengthThrough? pattern cs = none) : ¬pattern <:+: cs := by
  induction cs with
  | nil => exact fun hinfix => hne (List.infix_nil.mp hinfix)
  | cons c cs ih =>
      rw [lengthThrough?] at h
      split at h
      case isTrue => cases h
      case isFalse hp =>
        rw [List.infix_cons_iff, not_or]
        exact ⟨fun hprefix => hp (List.isPrefixOf_iff_prefix.mpr hprefix), ih (Option.map_eq_none_iff.mp h)⟩

/-- What is looked for is found at the end of what is taken, or it is nowhere and all is taken. -/
theorem reach_cases {pattern : List Char} (hne : pattern ≠ []) (cs : List Char) :
    (pattern <:+ cs.take (reach pattern cs).1 ∧ (reach pattern cs).2 = true) ∨
      reach pattern cs = (cs.length, false) ∧ ¬pattern <:+: cs := by
  cases h : lengthThrough? pattern cs with
  | some n =>
      rw [reach, h]
      exact .inl ⟨isSuffix_take_of_lengthThrough? h, rfl⟩
  | none =>
      rw [reach, h]
      exact .inr ⟨rfl, not_isInfix_of_lengthThrough? hne h⟩

theorem quotedLength_cases (quote : Char) (cs : List Char) :
    ([quote] <:+ cs.take (quotedLength quote cs).1 ∧ (quotedLength quote cs).2 = true) ∨
      quotedLength quote cs = (cs.length, false) := by
  fun_induction quotedLength quote cs with
  | case1 => exact .inr rfl
  | case2 c =>
      by_cases hc : c = quote
      · exact .inl ⟨by simp [hc], decide_eq_true hc⟩
      · exact .inr (congrArg (Prod.mk 1) (decide_eq_false hc))
  | case3 c d cs _ n closed heq ih =>
      rw [heq] at ih
      refine ih.imp (And.imp_left fun h => ?_) fun h => ?_
      · exact h.trans ((List.suffix_cons d _).trans (List.suffix_cons c _))
      · obtain ⟨rfl, rfl⟩ := Prod.mk.inj h
        rfl
  | case4 d cs hpair => exact .inl ⟨List.suffix_rfl, rfl⟩
  | case5 c d cs _ _ n closed heq ih =>
      rw [heq] at ih
      refine ih.imp (And.imp_left fun h => h.trans (List.suffix_cons c _)) fun h => ?_
      obtain ⟨rfl, rfl⟩ := Prod.mk.inj h
      rfl

/-- The token that an answer of the lexer tells of. -/
def answered (c : Char) (cs : List Char) (answer : TokenKind × Nat) : Token :=
  ⟨answer.1, String.ofList (c :: cs.take answer.2), 0⟩

/-- The token that an answer tells of is closed. If it is not, it takes all of the text, and it is a string
that is known not to be closed, or else the mark that is to end it is missing. -/
def Ended (c : Char) (cs : List Char) (answer : TokenKind × Nat) : Prop :=
  (answered c cs answer).Closed ∨ answer.2 = cs.length ∧
    (answer.1 = .string true ∨
      (answer.1 = .comment ∨ answer.1 = .variable) ∧ (answered c cs answer).RunsOut)

namespace Ended

variable {c : Char} {cs : List Char} {kind : TokenKind} {n : Nat}

theorem of_marks? (h : (answered c cs (kind, n)).marks? = none) : Ended c cs (kind, n) :=
  .inl (Token.closed_of_marks? h)

theorem plain (h : kind.isMarked = false) : Ended c cs (kind, n) :=
  of_marks? (Token.marks?_of_not_isMarked h)

theorem pair {p : Prop} [Decidable p] {a b : TokenKind × Nat} (ha : p → Ended c cs a)
    (hb : ¬p → Ended c cs b) : Ended c cs (if p then a else b) := by
  split
  case isTrue h => exact ha h
  case isFalse h => exact hb h

/-- A token for the mark of which the text behind its second character is searched. -/
theorem searched {d : Char} {m : List Char} (hne : m ≠ [])
    (hmarks : (answered c (d :: cs) (kind, (reach m cs).1 + 1)).marks? = some ([c, d], m))
    (hkind : kind = .string (!(reach m cs).2) ∨ kind = .comment ∨ kind = .variable) :
    Ended c (d :: cs) (kind, (reach m cs).1 + 1) := by
  have htext : (answered c (d :: cs) (kind, (reach m cs).1 + 1)).text.toList.drop 2 =
      cs.take (reach m cs).1 := by
    rw [answered, String.toList_ofList]
    rfl
  rcases reach_cases hne cs with ⟨hsuffix, -⟩ | ⟨hreach, hinfix⟩
  · refine .inl fun m' hm' => ?_
    obtain rfl := Option.some.inj (hmarks.symm.trans hm')
    exact htext ▸ hsuffix
  · rw [hreach] at hmarks hkind htext ⊢
    refine .inr ⟨rfl, hkind.imp_right fun hkind => ⟨hkind, _, hmarks, ?_⟩⟩
    rw [List.take_length] at htext
    change ¬m <:+: List.drop 2 _
    rwa [htext]

theorem blockComment (h : c = '<' ∧ cs.head? = some '#') :
    Ended c cs (.comment, (reach ['#', '>'] cs.tail).1 + 1) := by
  obtain ⟨rfl, hhead⟩ := h
  obtain ⟨cs, rfl⟩ := List.head?_eq_some_iff.mp hhead
  refine searched (List.cons_ne_nil _ _) ?_ (.inr (.inl rfl))
  rw [Token.marks?, answered, String.toList_ofList]
  rfl

theorem quoted (h : c = '\x27' ∨ c = '\x22') : Ended c cs (scanString c cs) := by
  have hmarks (n : Nat) (b : Bool) : (answered c cs (.string b, n)).marks? = some ([c], [c]) := by
    rw [Token.marks?, answered, String.toList_ofList]
    rcases h with rfl | rfl <;> rfl
  rw [scanString]
  rcases quotedLength_cases c cs with ⟨hsuffix, hclosed⟩ | hlength
  · refine .inl fun m hm => ?_
    obtain rfl := Option.some.inj ((hmarks _ _).symm.trans hm)
    rw [answered, String.toList_ofList]
    exact hsuffix
  · rw [hlength]
    exact .inr ⟨rfl, .inl rfl⟩

theorem atSign (h : c = '@') : Ended c cs (scanAt cs) := by
  subst h
  cases cs with
  | nil => exact plain rfl
  | cons d cs =>
      rw [scanAt]
      refine pair (fun _ => plain rfl) fun _ => pair (fun _ => plain rfl) fun _ => ?_
      refine pair (fun hd => ?_) fun _ => pair (fun _ => of_marks? ?_) fun _ => plain rfl
      · refine searched (List.cons_ne_nil _ _) ?_ (.inl rfl)
        rw [Token.marks?, answered, String.toList_ofList]
        rfl
      · rw [Token.marks?, answered, String.toList_ofList]
        rfl

theorem dollar (h : c = '$') : Ended c cs (scanDollar cs) := by
  subst h
  cases cs with
  | nil => exact plain rfl
  | cons d cs =>
      have hnone {n : Nat} (hd : d ≠ '\x7b') : (answered '$' (d :: cs) (.variable, n)).marks? = none := by
        rw [Token.marks?, answered, String.toList_ofList]
        cases n with
        | zero => rfl
        | succ n => simp [hd]
      rw [scanDollar]
      refine pair (fun _ => plain rfl) fun _ => pair (fun hd => ?_) fun hd => ?_
      · subst hd
        refine searched (List.cons_ne_nil _ _) ?_ (.inr (.inr rfl))
        rw [Token.marks?, answered, String.toList_ofList]
        rfl
      · refine pair (fun _ => of_marks? (hnone hd)) fun _ => ?_
        exact pair (fun _ => of_marks? (hnone hd)) fun _ => plain rfl

theorem scanned (c : Char) (cs : List Char) : Ended c cs (scan c cs) := by
  unfold scan
  iterate 4 refine pair (fun _ => plain rfl) fun _ => ?_
  refine pair (fun h => of_marks? ?_) fun _ => ?_
  · subst h
    rw [Token.marks?, answered, String.toList_ofList]
    rfl
  refine pair blockComment fun _ => ?_
  iterate 6 refine pair (fun _ => plain rfl) fun _ => ?_
  iterate 2 refine pair (fun _ => pair (fun _ => plain rfl) fun _ => plain rfl) fun _ => ?_
  refine pair quoted fun _ => pair atSign fun _ => pair dollar fun _ => ?_
  iterate 4 refine pair (fun _ => plain rfl) fun _ => ?_
  refine pair (fun _ => ?_) fun _ => pair (fun _ => plain rfl) fun _ => plain rfl
  exact pair (fun _ => plain rfl) fun _ => plain rfl

end Ended

end Lexer

/-- A token of a script is closed, or it is the last one. -/
theorem closed_or_last {source : String} {before behind : List Token} {t : Token}
    (h : tokenize source = before ++ t :: behind) :
    t.Closed ∨ behind = [] ∧
      (t.kind = .string true ∨ (t.kind = .comment ∨ t.kind = .variable) ∧ t.RunsOut) := by
  obtain ⟨cs, c, text, after, -, -, rfl, htext, rfl, -⟩ := Lexer.tokenize_split h
  refine (Lexer.Ended.scanned c (text ++ after)).imp id fun ⟨hlength, hkind⟩ => ⟨?_, hkind⟩
  have hafter : after = [] := by
    rw [Lexer.toList_text_token, hlength, List.take_length] at htext
    exact List.append_right_eq_self.mp (List.cons.inj htext).2
  rw [hafter, Lexer.tokensFrom_nil]

theorem tokenize_open_comment {text : String} (h : ¬['#', '>'] <:+: text.toList) :
    tokenize ("<#" ++ text) = [⟨.comment, "<#" ++ text, 0⟩] := by
  have hcases := Lexer.reach_cases (List.cons_ne_nil '#' ['>']) text.toList
  have hreach : Lexer.reach ['#', '>'] text.toList = (text.toList.length, false) :=
    (hcases.resolve_left fun hfound => h (hfound.1.isInfix.trans (List.take_prefix _ _).isInfix)).1
  have htext : ("<#" ++ text).toList = '<' :: '#' :: text.toList := by simp
  refine tokenize_of_scan htext ?_
  change (TokenKind.comment, (Lexer.reach ['#', '>'] text.toList).1 + 1) = _
  rw [hreach]
  rfl

end ScriptLint
