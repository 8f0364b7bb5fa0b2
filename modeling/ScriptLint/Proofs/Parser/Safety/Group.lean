import ScriptLint.Proofs.Parser.Safety.Statement
import ScriptLint.Syntax.Parse.Group

/-!
Groups never break a parse off. A group is read with what stands inside it one level deeper, and the
counter of open groups is back where it was when the closer is looked for; a group past the last level is
passed over token by token, never past the last one.
-/

namespace ScriptLint.Parse

open ScriptLint.Parser Cursor

variable {g : Groups} {c : Cursor} {t : Token} {ts : List Token} {k : TokenKind}

theorem keyOf?_eq_some {key : List Char} (h : keyOf? t = some key) :
    t.kind = .word ∧ ∃ tail, t.text = String.ofList key ++ tail ∧ String.ofList key ≠ "" ∧
      tail ≠ "" := by
  unfold keyOf? at h
  obtain ⟨⟨hword, hkey, hlength⟩, h⟩ := Option.ite_none_right_eq_some.mp h
  obtain rfl := Option.some.inj h
  have hsplit := List.takeWhile_append_dropWhile (p := fun c => decide (c ≠ '=')) (l := t.text.toList)
  refine ⟨hword, String.ofList (t.text.toList.dropWhile fun c => decide (c ≠ '=')), ?_, ?_, ?_⟩
  · rw [← String.ofList_append, hsplit, String.ofList_toList]
  · exact fun h => hkey (String.ofList_eq_empty_iff.mp h)
  · intro h
    rw [String.ofList_eq_empty_iff.mp h, List.append_nil] at hsplit
    rw [hsplit] at hlength
    exact absurd hlength (Nat.lt_irrefl _)

/-- The word ahead is cut, or not, and something stays ahead. -/
theorem cutKey_ends (hc : c.Sound) (hrest : c.rest = t :: ts) :
    Ends (cutKey t) c fun _ d => Reaches c d ∧ d.kind? = some t.kind := by
  unfold cutKey
  split
  case h_1 => exact ⟨Reaches.refl hc, kind?_of_rest hrest⟩
  case h_2 key hkey =>
    obtain ⟨hword, tail, htext, hhead, htail⟩ := keyOf?_eq_some hkey
    rw [Ends, Holds, cut_of_append hrest htext]
    exact ⟨hc.reaches_cut hrest htext hhead htail, congrArg some hword.symm⟩

/-- The value of an entry stands behind an equals sign at the start of a word. -/
theorem exists_behind_equals (h : t.text.toList.head? = some '=') : ∃ tail, t.text = "=" ++ tail := by
  obtain ⟨cs, hcs⟩ := List.head?_eq_some_iff.mp h
  refine ⟨String.ofList cs, ?_⟩
  rw [← String.toList_inj, hcs]
  simp

theorem entryValue_ends (hg : g.Safe) (hc : c.Sound) (key : Expression) (found : Array Entry) :
    Ends (entryValue g key found) c fun _ d => Reaches c d := by
  have hskip := hc.reaches_skip (· = .whitespace)
  rw [entryValue, Ends, holds_skipBlanks_bind, holds_get_bind]
  split
  case h_1 => exact hskip
  case h_2 t ts hrest =>
    split_ifs with hassign hend
    · obtain ⟨tail, htext⟩ := exists_behind_equals hassign.2
      refine (passOperator_ends hskip.sound hrest hassign.1 htext (by decide)).bind fun u d hd => ?_
      refine (assignedValue_ends hg hd.sound _).bind fun value e he => ?_
      exact hskip.trans (hd.toReaches.trans he)
    · exact hskip
    · refine (reportUnexpected_ends hskip.sound (kind?_of_rest hrest)).bind fun _ d hd => ?_
      exact hskip.trans hd.1

theorem hashtableRound_ends (hg : g.Safe) (hc : c.Sound) (found : Array Entry) :
    Ends (hashtableRound g found) c (Round (fun _ _ => True) c) := by
  have hskip := hc.reaches_skip separatesEntries
  rw [hashtableRound, Ends, holds_skip_bind, holds_get_bind]
  split
  case h_1 => exact ⟨hskip, trivial⟩
  case h_2 t ts hrest =>
    split_ifs with hclose
    · exact ⟨hskip, trivial⟩
    · refine (cutKey_ends hskip.sound hrest).bind ?_
      rintro _ d ⟨hd, hk⟩
      refine (primary_ends hg hd.sound).bind fun key? e he => ?_
      cases key? with
      | none =>
          obtain rfl := he
          refine (reportUnexpected_ends hd.sound hk).bind ?_
          exact fun _ f hf => ⟨(hf.of_reaches hd).of_reaches hskip, trivial⟩
      | some key =>
          refine (entryValue_ends hg he.sound key found).bind fun found f hf => ?_
          have htakes := (he.of_reaches hd).trans hf
          exact ⟨htakes.passes.of_reaches hskip, trivial⟩

theorem entries_ends (hg : g.Safe) (hc : c.Sound) : Ends (entries g) c fun _ d => Reaches c d := by
  refine (repeating_ends (I := fun _ _ => True) hc trivial fun found d hd _ =>
    hashtableRound_ends hg hd.sound found).bind fun found d hd => ?_
  exact hd.1

theorem groupLength?_le {depth n : Nat} (h : groupLength? depth ts = some n) :
    1 ≤ n ∧ n ≤ ts.length := by
  induction ts generalizing depth n with
  | nil => exact absurd h nofun
  | cons t ts ih =>
      rw [groupLength?] at h
      split at h
      case isTrue =>
        obtain rfl := Option.some.inj h
        exact ⟨Nat.le_refl 1, Nat.succ_le_succ (Nat.zero_le _)⟩
      case isFalse =>
        obtain ⟨m, hm, rfl⟩ := Option.map_eq_some_iff.mp h
        exact ⟨Nat.le_add_left 1 m, Nat.succ_le_succ (ih hm).2⟩

theorem passTokens_ends {n : Nat} (hc : c.Sound) (hn : n ≤ c.rest.length) :
    Ends (passTokens n) c fun _ d => Reaches c d := by
  induction n generalizing c with
  | zero => exact Reaches.refl hc
  | succ n ih =>
      cases hrest : c.rest with
      | nil =>
          rw [hrest] at hn
          exact absurd hn (Nat.not_succ_le_zero n)
      | cons t ts =>
          have hpass := hc.reaches_pass hrest
          rw [hrest] at hn
          apply (holds_advance_bind hrest).mpr
          exact (ih hpass.sound (Nat.le_of_succ_le_succ hn)).mono fun _ d hd => hpass.trans hd

theorem isSpacing_of_isOpener (h : k.isOpener) : k.isSpacing = false := by
  cases k <;> first | rfl | exact absurd h nofun

theorem skipGroup_ends (hc : c.Sound) (hk : c.kind? = some k) (hopener : k.isOpener) :
    Ends skipGroup c fun s d => Takes c d s := by
  obtain ⟨t, ts, hrest, rfl⟩ := kind?_eq_some.mp hk
  have hopen := hc.takes_pass hrest (isSpacing_of_isOpener hopener)
  have hlength : 1 ≤ (groupLength? 0 c.rest).getD c.rest.length ∧
      (groupLength? 0 c.rest).getD c.rest.length ≤ c.rest.length := by
    cases hgroup : groupLength? 0 c.rest with
    | none =>
        rw [hrest]
        simp
    | some n => exact groupLength?_le hgroup
  -- the opener is passed at least, so that the span has a start behind it
  obtain ⟨n, hn⟩ := Nat.exists_eq_add_of_le' hlength.1
  have hpassed : Ends (passTokens ((groupLength? 0 c.rest).getD c.rest.length)) c
      fun _ d => Takes c d t.span := by
    rw [hn] at hlength ⊢
    apply (holds_advance_bind hrest).mpr
    have hrest' : n ≤ ts.length := by
      have := hlength.2
      rw [hrest] at this
      exact Nat.le_of_succ_le_succ this
    exact (passTokens_ends hopen.sound hrest').mono fun _ d hd => hopen.trans hd
  apply (holds_current_bind hrest).mpr
  rw [holds_get_bind]
  refine hpassed.bind fun _ d hd => ?_
  rw [holds_get_bind]
  have hle : t.start ≤ if (groupLength? 0 c.rest).isSome then d.lastEnd else d.size := by
    split
    · exact Nat.le_of_lt hd.start_lt
    · exact Nat.le_trans (Nat.le_of_lt hd.start_lt_offset) hd.sound.offset_le
  apply (holds_span_bind hle).mpr
  rw [holds_report_bind]
  exact (hd.stretch hle).trans (hd.sound.reaches_report _ _)

theorem expectCloser_ends (hc : c.Sound) (closer : Closer) :
    Ends (expectCloser closer) c fun stop d => Reaches c d ∧ c.offset ≤ stop := by
  rw [expectCloser, Ends, holds_get_bind]
  split
  case isTrue hk =>
    have hspacing : (closerKind closer).isSpacing = false := by cases closer <;> rfl
    refine (advance_takes hc hk hspacing).bind ?_
    rintro t d ⟨_, hd⟩
    exact ⟨hd.toReaches, Nat.le_trans hd.le_start hd.start_le_stop⟩
  case isFalse =>
    rw [holds_report_bind]
    exact ⟨hc.reaches_report _ _, hc.offset_le⟩

/-- What is read inside a group leaves the cursor as deep as it was. -/
theorem nested_ends {α : Type} {m : Parser α} (hc : c.Sound)
    (hm : ∀ {c : Cursor}, c.Sound → Ends m c fun _ d => Reaches c d) :
    Ends (nested m) c fun _ d => Reaches c d := by
  have henter : Cursor.Sound { c with depth := c.depth + 1 } := ⟨hc.tiles, hc.lastEnd_le⟩
  refine holds_nested ((hm henter).mono fun _ d hd => ⟨hd.depth_eq, ?_⟩)
  exact ⟨⟨hd.sound.tiles, hd.sound.lastEnd_le⟩, hd.size_eq, rfl, hd.offset_le, hd.lastEnd_le⟩

/-- A group: its opener, what stands inside, its closer. -/
theorem group_ends {α β : Type} {m : Parser α} {f : Token → α → Span → β} {span' : β → Span}
    (hc : c.Sound) (hk : c.kind? = some k) (hopener : k.isOpener) (closer : Closer)
    (hm : ∀ {c : Cursor}, c.Sound → Ends m c fun _ d => Reaches c d)
    (hspan : ∀ t a s, span' (f t a s) = s) :
    Ends (do
      let t ← advance
      let a ← nested m
      let stop ← expectCloser closer
      let s ← span t.start stop
      return f t a s) c fun b d => Takes c d (span' b) := by
  refine (advance_takes hc hk (isSpacing_of_isOpener hopener)).bind fun t d ⟨_, hd⟩ => ?_
  refine (nested_ends hd.sound hm).bind fun a e he => ?_
  refine (expectCloser_ends he.sound closer).bind fun stop e' ⟨he', hstop⟩ => ?_
  have hle : t.start ≤ stop := Nat.le_trans (Nat.le_of_lt (hd.trans he).start_lt_offset) hstop
  apply (holds_span_bind hle).mpr
  rw [holds_pure, hspan]
  exact ((hd.trans he).trans he').stretch hle

theorem groups_safe (levels : Nat) : (groups levels).Safe := by
  induction levels with
  | zero =>
      refine ⟨fun hc hk ho => ?_, fun hc hk ho => ?_, fun hc hk ho => ?_⟩
      · exact (skipGroup_ends hc hk ho).bind fun s d hd => hd
      · obtain ⟨t, ts, hrest, rfl⟩ := kind?_eq_some.mp hk
        apply (holds_current_bind hrest).mpr
        exact (skipGroup_ends hc hk ho).bind fun s d hd => hd
      · exact (skipGroup_ends hc hk ho).bind fun s d hd => hd
  | succ levels ih =>
      refine ⟨fun hc hk ho => ?_, fun hc hk ho => ?_, fun hc hk ho => ?_⟩
      · exact group_ends hc hk ho .brace (fun hc => statements_ends ih hc _) fun _ _ _ => rfl
      · exact group_ends hc hk ho .paren (fun hc => statements_ends ih hc _) fun _ _ _ => rfl
      · exact group_ends hc hk ho .brace (fun hc => entries_ends ih hc) fun _ _ _ => rfl

end ScriptLint.Parse
