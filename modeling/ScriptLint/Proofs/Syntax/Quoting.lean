import ScriptLint.Proofs.Syntax.Escape
import ScriptLint.Proofs.Syntax.Locality
import ScriptLint.Proofs.Syntax.Spelling.Literal
import ScriptLint.Proofs.Syntax.Word

/-!
Quoting. A text can be written as a string in quotes, its own quotes doubled, or as a here-string between two
line feeds; a name can be written as a variable in braces. The lexer takes all that is written so for one
token, and the token means what has been written.
-/

namespace ScriptLint

namespace Literal

/-- The text with its quotes doubled. -/
def double (quote : Char) (cs : List Char) : List Char :=
  cs.flatMap fun c => if c = quote then [c, c] else [c]

/-- The text in quotes. -/
def quoted (quote : Char) (s : String) : String :=
  String.ofList (quote :: (double quote s.toList ++ [quote]))

/-- The text as a here-string in single quotes. -/
def hereString (s : String) : String := "@'\n" ++ s ++ "\n'@"

/-- The variable of a name that is written in braces. -/
def braced (name : String) : String := "$\x7b" ++ name ++ "\x7d"

variable {quote c : Char} {cs : List Char}

theorem double_cons_self (quote : Char) (cs : List Char) :
    double quote (quote :: cs) = quote :: quote :: double quote cs := by
  simp [double]

theorem double_cons_of_ne (hc : c ≠ quote) : double quote (c :: cs) = c :: double quote cs := by
  simp [double, hc]

theorem undouble_double (quote : Char) (cs : List Char) :
    undouble quote (double quote cs) = cs := by
  induction cs with
  | nil => rfl
  | cons c cs ih =>
      by_cases hc : c = quote
      · subst hc
        rw [double_cons_self, undouble, if_pos ⟨rfl, rfl⟩, ih]
      · rw [double_cons_of_ne hc, undouble_of_ne hc, ih]

theorem mem_double : c ∈ double quote cs ↔ c ∈ cs := by
  simp only [double, List.mem_flatMap]
  constructor
  · rintro ⟨d, hd, hc⟩
    split at hc <;> simp_all
  · exact fun hc => ⟨c, hc, by split <;> simp⟩

theorem unquote_quoted (s : String) : unquote (quoted '\x27' s) = (s, false) := by
  have hbody : contents (quoted '\x27' s) = double '\x27' s.toList := by
    rw [contents, quoted, String.toList_ofList]
    change (dropSuffix? ['\x27'] (double '\x27' s.toList ++ ['\x27'])).getD _ = _
    rw [dropSuffix?_eq_some.mpr rfl]
    rfl
  rw [unquote, hbody, quoted, String.toList_ofList]
  change (String.ofList (undouble '\x27' _), false) = _
  rw [undouble_double, String.ofList_toList]

/-- Between double quotes a text means itself if nothing in it is expanded or escaped. -/
theorem unquote_doubleQuoted {s : String} (hs : '$' ∉ s.toList) :
    unquote (quoted '\x22' s) = (s, false) := by
  have hbody : contents (quoted '\x22' s) = double '\x22' s.toList := by
    rw [contents, quoted, String.toList_ofList]
    change (dropSuffix? ['\x22'] (double '\x22' s.toList ++ ['\x22'])).getD _ = _
    rw [dropSuffix?_eq_some.mpr rfl]
    rfl
  have hexpands : expands ' ' (double '\x22' s.toList) = false := by
    rw [Bool.eq_false_iff, ne_eq, expands_iff]
    rintro ⟨before, hbefore, -⟩
    exact hs (mem_double.mp (hbefore.subset (by simp)))
  rw [unquote, hbody, quoted, String.toList_ofList]
  change (String.ofList (undouble '\x22' _), expands ' ' _) = _
  rw [undouble_double, String.ofList_toList, hexpands]

theorem trimLineBreaks_between (hcs : cs.getLast? ≠ some '\r') :
    trimLineBreaks ('\n' :: (cs ++ ['\n'])) = cs := by
  have hfront : (dropPrefix? ['\r', '\n'] ('\n' :: (cs ++ ['\n'])) <|>
      dropPrefix? ['\n'] ('\n' :: (cs ++ ['\n']))) = some (cs ++ ['\n']) := rfl
  have hreturn : dropSuffix? ['\r', '\n'] (cs ++ ['\n']) = none := by
    refine Option.eq_none_iff_forall_ne_some.mpr fun ds hds => hcs ?_
    have heq : cs ++ ['\n'] = (ds ++ ['\r']) ++ ['\n'] := by simpa using dropSuffix?_eq_some.mp hds
    rw [List.append_cancel_right heq, List.getLast?_concat]
  rw [trimLineBreaks, hfront, Option.getD_some, hreturn, dropSuffix?_eq_some.mpr rfl]
  rfl

theorem unquote_hereString {s : String} (hs : s.toList.getLast? ≠ some '\r') :
    unquote (hereString s) = (s, false) := by
  have htext : (hereString s).toList = '@' :: '\x27' :: ('\n' :: (s.toList ++ ['\n']) ++ ['\x27', '@']) := by
    simp [hereString]
  have hbody : contents (hereString s) = s.toList := by
    rw [contents, htext]
    change trimLineBreaks ((dropSuffix? ['\x27', '@'] ('\n' :: (s.toList ++ ['\n']) ++ _)).getD _) = _
    rw [dropSuffix?_eq_some.mpr rfl]
    exact trimLineBreaks_between hs
  rw [unquote, hbody, htext]
  change (String.ofList s.toList, false) = _
  rw [String.ofList_toList]

theorem variableName_braced (name : String) : variableName (braced name) = (name, false) := by
  have htext : (braced name).toList = '$' :: '\x7b' :: (name.toList ++ ['\x7d']) := by
    simp [braced]
  rw [variableName, htext]
  change (String.ofList ((dropSuffix? ['\x7d'] (name.toList ++ ['\x7d'])).getD _), false) = _
  rw [dropSuffix?_eq_some.mpr rfl, Option.getD_some, String.ofList_toList]

end Literal

namespace Lexer

open Literal

variable {quote c : Char} {cs pattern : List Char}

/-- A string with its quotes doubled goes on to the last quote. -/
theorem quotedLength_double (hcs : quote = '\x22' → '\x60' ∉ cs) :
    quotedLength quote (double quote cs ++ [quote]) = ((double quote cs ++ [quote]).length, true) := by
  induction cs with
  | nil => exact congrArg (Prod.mk 1) (decide_eq_true rfl)
  | cons c cs ih =>
      have ih := ih fun hquote hmem => hcs hquote (List.mem_cons_of_mem c hmem)
      by_cases hc : c = quote
      · subst hc
        rw [double_cons_self, List.cons_append, List.cons_append, quotedLength_cons_cons,
          if_pos (.inr ⟨rfl, rfl⟩), ih]
        rfl
      · have hescape : ¬(quote = '\x22' ∧ c = '\x60') := fun h => hcs h.1 (by simp [h.2])
        rw [double_cons_of_ne hc, List.cons_append, quotedLength_cons_of_ne hc hescape, ih]
        rfl

/-- A mark of which the first character does not come again in it is no beginning of a text that ends with
it, if the text in front is not empty and does not hold it. -/
theorem not_prefix_append {p : Char} {ps : List Char} (hp : p ∉ ps) (h : ¬p :: ps <:+: c :: cs) :
    ¬p :: ps <+: c :: (cs ++ p :: ps) := by
  rintro ⟨us, hus⟩
  have hus : (p :: ps) ++ us = (c :: cs) ++ (p :: ps) := hus
  rcases List.append_eq_append_iff.mp hus with ⟨vs, hfront, -⟩ | ⟨vs, hmark, hagain⟩
  · exact h ⟨[], vs, hfront.symm⟩
  · cases vs with
    | nil =>
        rw [List.append_nil] at hmark
        exact h (hmark ▸ List.infix_rfl)
    -- the mark would reach into itself, where it starts again
    | cons v vs =>
        obtain ⟨rfl, -⟩ := List.cons.inj hagain
        obtain ⟨-, hps⟩ := List.cons.inj hmark
        exact hp (by simp [hps])

/-- Such a mark is found at the end of a text if it does not stand in what is in front of it. -/
theorem lengthThrough?_append {p : Char} {ps : List Char} (hp : p ∉ ps) (h : ¬p :: ps <:+: cs) :
    lengthThrough? (p :: ps) (cs ++ p :: ps) = some (cs ++ p :: ps).length := by
  induction cs with
  | nil =>
      rw [List.nil_append, lengthThrough?, if_pos]
      exact List.isPrefixOf_iff_prefix.mpr List.prefix_rfl
  | cons c cs ih =>
      have hrest : ¬p :: ps <:+: cs := fun hin => h (hin.trans (List.suffix_cons c cs).isInfix)
      rw [List.cons_append, lengthThrough?,
        if_neg (mt List.isPrefixOf_iff_prefix.mp (not_prefix_append hp h)), ih hrest]
      rfl

theorem reach_append {p : Char} {ps : List Char} (hp : p ∉ ps) (h : ¬p :: ps <:+: cs) :
    reach (p :: ps) (cs ++ p :: ps) = ((cs ++ p :: ps).length, true) := by
  rw [reach, lengthThrough?_append hp h]

end Lexer

open Lexer Literal

/-- Behind `& ` a string is one token, as it is alone. -/
theorem tokenize_called {text : String} {c : Char} {cs : List Char} {kind : TokenKind}
    (htext : text.toList = c :: cs) (h : scan c cs = (kind, cs.length))
    (hblank : Text.isBlank c = false) :
    tokenize ("& " ++ text) = [⟨.ampersand, "&", 0⟩, ⟨.whitespace, " ", 1⟩, ⟨kind, text, 2⟩] := by
  have hcall : scan '&' (' ' :: c :: cs) = (.ampersand, 0) := rfl
  rw [tokenize, String.toList_append, htext]
  change tokensFrom 0 0 ('&' :: ' ' :: c :: cs) = _
  rw [tokensFrom_zero_cons, hcall, tokensFrom_space (by simpa using hblank), tokensFrom_of_scan h,
    ← htext, String.ofList_toList]
  rfl

/-- How a text is written as a string that the lexer takes for one token with this value. -/
structure Literal.Writes (text s : String) : Prop where
  scanned : ∃ c cs, text.toList = c :: cs ∧ scan c cs = (.string false, cs.length) ∧
    Text.isBlank c = false
  unquoted : unquote text = (s, false)

theorem Literal.writes_quoted (s : String) : Writes (quoted '\x27' s) s where
  scanned := by
    refine ⟨'\x27', double '\x27' s.toList ++ ['\x27'], String.toList_ofList, ?_, by decide⟩
    change scanString '\x27' _ = _
    rw [scanString, quotedLength_double fun h => absurd h (by decide)]
    rfl
  unquoted := unquote_quoted s

theorem Literal.writes_doubleQuoted {s : String} (hdollar : '$' ∉ s.toList)
    (htick : '\x60' ∉ s.toList) : Writes (quoted '\x22' s) s where
  scanned := by
    refine ⟨'\x22', double '\x22' s.toList ++ ['\x22'], String.toList_ofList, ?_, by decide⟩
    change scanString '\x22' _ = _
    rw [scanString, quotedLength_double fun _ => htick]
    rfl
  unquoted := unquote_doubleQuoted hdollar

theorem Literal.writes_hereString {s : String} (hmark : ¬['\n', '\x27', '@'] <:+: '\n' :: s.toList)
    (hreturn : s.toList.getLast? ≠ some '\r') : Writes (hereString s) s where
  scanned := by
    refine ⟨'@', '\x27' :: ('\n' :: s.toList ++ ['\n', '\x27', '@']), by simp [hereString], ?_, by decide⟩
    change (TokenKind.string !(reach _ ('\n' :: s.toList ++ _)).2, (reach _ _).1 + 1) = _
    rw [reach_append (by decide) hmark]
    rfl
  unquoted := unquote_hereString hreturn

theorem tokenize_braced {name : String} (hname : '\x7d' ∉ name.toList) :
    tokenize (braced name) = [⟨.variable, braced name, 0⟩] := by
  have htext : (braced name).toList = '$' :: '\x7b' :: (name.toList ++ ['\x7d']) := by
    simp [braced]
  refine tokenize_of_scan htext ?_
  change (TokenKind.variable, (reach ['\x7d'] (name.toList ++ ['\x7d'])).1 + 1) = _
  rw [reach_append List.not_mem_nil (by simpa [List.singleton_infix_iff] using hname)]
  rfl

end ScriptLint
