import ScriptLint.Proofs.Parser.Reading.Statement
import ScriptLint.Proofs.Parser.Safety.Group

/-!
Groups, by what they read. A group is made of what is read between its opener and its closer, or from its
opener on to the end of the script if it has no closer. A hashtable does not keep all of that: a key that
no equals sign follows is read, but it gets no entry.
-/

namespace ScriptLint.Parse

open ScriptLint.Parser Cursor

variable {g : Groups} {a b c d : Cursor} {t : Token} {ts : List Token} {kind : TokenKind} {k : Level}

theorem cutKey_reads (k : Level) (hrest : c.rest = t :: ts) :
    Gives (cutKey t) c fun _ d => Reads k c [] d := by
  unfold cutKey
  split
  case h_1 => exact .nil
  case h_2 key hkey =>
    obtain ⟨hword, tail, htext, hhead, htail⟩ := keyOf?_eq_some hkey
    refine gives_cut fun u us hrest' _ => ?_
    obtain ⟨rfl, rfl⟩ := List.cons.inj (hrest.symm.trans hrest')
    exact .passing (.cut hrest hword htext hhead htail)

/-- The parts that an entry keeps. -/
def entryParts (e : Entry) : List Part := (Node.ofEntry e).map .node

/-- What a loop has read from `b` on: the parts of the entries, and the `lost` keys between them. -/
def Entered (k : Level) (b : Cursor) (lost : List Expression) (found : Array Entry) (c : Cursor) : Prop :=
  ∃ qs, Reads k b qs c ∧ (found.toList.flatMap entryParts).Sublist qs ∧
    qs.Perm (found.toList.flatMap entryParts ++ lost.map Part.expression)

variable {found : Array Entry} {key : Expression} {lost : List Expression}

theorem Entered.nil : Entered k c [] #[] c := ⟨[], .nil, .refl _, .refl _⟩

theorem Entered.on (h : Entered k b lost found c) (h' : Reads k c [] d) : Entered k b lost found d := by
  obtain ⟨qs, hqs, hkept⟩ := h
  exact ⟨qs, hqs.on h', hkept⟩

theorem Entered.push {e : Entry} (h : Entered k b lost found c) (he : Reads k c (entryParts e) d) :
    Entered k b lost (found.push e) d := by
  obtain ⟨qs, hqs, hsub, hperm⟩ := h
  refine ⟨qs ++ entryParts e, hqs.append he, ?_, ?_⟩
  · simpa using hsub.append (List.Sublist.refl (entryParts e))
  · refine (hperm.append_right (entryParts e)).trans ?_
    simpa using List.Perm.append_left _ List.perm_append_comm

/-- A key that is not kept. -/
theorem Entered.drop (h : Entered k b lost found c) (hkey : Reads k c [.expression key] d) :
    Entered k b (lost ++ [key]) found d := by
  obtain ⟨qs, hqs, hsub, hperm⟩ := h
  refine ⟨qs ++ [.expression key], hqs.append hkey, ?_, ?_⟩
  · exact hsub.trans (List.sublist_append_left _ _)
  · simpa using hperm.append_right [Part.expression key]

theorem Entered.sound (h : Entered k b lost found c) (hb : b.Sound) : c.Sound := by
  obtain ⟨qs, hqs, -⟩ := h
  exact hqs.sound hb

/-- Where entries are read, nothing but the brace that ends them is in its place everywhere. -/
theorem stray_of_ne (hk : k.around = some .atBrace) (hkind : kind ≠ .closeBrace) : k.Stray kind where
  not_closer := by
    rw [Level.closer?, hk]
    exact fun h => hkind (Option.some.inj h).symm
  in_table := fun _ => hk

theorem assigns_of_rest (hrest : c.skipBlanks.rest = t :: ts) :
    assigns c = decide (t.kind = .word ∧ t.text.toList.head? = some '=') := by
  rw [assigns, hrest]
  simp

/-- The key of an entry is kept if an equals sign follows it, and lost otherwise. -/
theorem entryValue_reads (hg : g.Read k) (hk : k.around = some .atBrace) (hb : b.Sound)
    (h : Entered k b lost found a) (hkey : Reads k a [.expression key] c) :
    Gives (entryValue g key found) c
      (Entered k b (lost ++ if assigns c then [] else [key])) := by
  have hskip : Reads k c [] c.skipBlanks := reads_skipBlanks
  have hc := hskip.sound (hkey.sound (h.sound hb))
  have hdrop := (h.drop hkey).on hskip
  rw [entryValue, Gives, holds_skipBlanks_bind, holds_get_bind]
  split
  case h_1 hrest =>
    rw [assigns, hrest]
    exact hdrop
  case h_2 t ts hrest =>
    rw [assigns_of_rest hrest]
    by_cases hassign : t.kind = .word ∧ t.text.toList.head? = some '='
    · rw [if_pos hassign, decide_eq_true hassign, if_pos rfl, List.append_nil]
      obtain ⟨tail, htext⟩ := exists_behind_equals hassign.2
      refine (passOperator_reads k hc hrest hassign.1 htext (by decide)).bind fun u d hd => ?_
      rw [hd.stop_eq]
      refine (assignedValue_reads hg (hd.reads.sound hc) hd.lastEnd_eq).bind fun value e he => ?_
      exact h.push (e := ⟨key, value⟩) (hkey.append (hskip.append (hd.reads.append he.1)))
    · rw [if_neg hassign, decide_eq_false hassign, if_neg Bool.false_ne_true]
      split_ifs with hend
      · exact hdrop
      · refine (reportUnexpected_reads fun kind hkind => ?_).bind fun _ d hd => hdrop.on hd
        obtain rfl := Option.some.inj ((kind?_of_rest hrest).symm.trans hkind)
        exact stray_of_ne hk fun hclose => hend (by rw [hclose]; rfl)

theorem reads_skip_separatesEntries : Reads k c [] (c.skip separatesEntries) := by
  refine reads_skip fun kind h => ?_
  cases kind <;> first | rfl | exact absurd h nofun

/-- A round loses the key with which it starts, if this is a bare one. -/
theorem hashtableRound_reads (hg : g.Read k) (hk : k.around = some .atBrace) (hb : b.Sound)
    (h : Entered k b lost found c) :
    Gives (hashtableRound g found) c fun
      | .done found => fun d =>
          Entered k b (lost ++ (bareKey? g c).toList) found d ∧ Ended (some .brace) d
      | .yield found => Entered k b (lost ++ (bareKey? g c).toList) found := by
  have hskip := h.on reads_skip_separatesEntries
  have hc := hskip.sound hb
  rw [hashtableRound, Gives, holds_skip_bind, holds_get_bind]
  split
  case h_1 hrest =>
    rw [bareKey?_of_rest_nil hrest, Option.toList_none, List.append_nil]
    exact ⟨hskip, .inl hrest⟩
  case h_2 t ts hrest =>
    split_ifs with hclose
    · rw [bareKey?_of_closeBrace hrest hclose, Option.toList_none, List.append_nil]
      exact ⟨hskip, .inr ⟨.brace, rfl, (kind?_of_rest hrest).trans (congrArg some hclose)⟩⟩
    · -- the runs are named, for they tell which key is a bare one
      refine Holds.bind (Q := fun _ d => cutKey t (c.skip separatesEntries) = .ok ((), d))
        (gives_iff.mpr fun _ _ h => h) fun _ d hcut => ?_
      obtain ⟨⟨-, hkind⟩, hd⟩ :=
        gives_iff.mp ((cutKey_ends hc hrest).and (cutKey_reads k hrest)) _ _ hcut
      have hd' := hd.sound hc
      refine Holds.bind (Q := fun key? e => primary g d = .ok (key?, e))
        (gives_iff.mpr fun _ _ h => h) fun key? e hprimary => ?_
      obtain ⟨hfound, he⟩ :=
        gives_iff.mp ((primary_ends hg.toSafe hd').and (primary_reads hg hd')) _ _ hprimary
      rw [bareKey?_of_ok hrest hclose hcut hprimary]
      cases key? with
      | none =>
          -- nothing has been passed, so the token ahead is still the first one
          obtain rfl : e = d := hfound
          rw [ite_self, Option.toList_none, List.append_nil]
          refine (reportUnexpected_reads (k := k) fun kind hkind' => ?_).bind fun _ f hf => ?_
          · obtain rfl := Option.some.inj (hkind.symm.trans hkind')
            exact stray_of_ne hk hclose
          · exact hskip.on (hd.append (he.append hf))
      | some key =>
          have hlost : (if assigns e then none else some key).toList = if assigns e then [] else [key] := by
            split <;> rfl
          rw [hlost]
          exact (entryValue_reads hg hk hb (hskip.on hd) he).bind fun found f hf => hf

/-- All that is read for the entries of a hashtable is kept, but for its bare keys. -/
theorem entries_reads (hg : g.Read k) (hk : k.around = some .atBrace) (hc : c.Sound) :
    Gives (entries g) c fun es d => ∃ qs, Reads k c qs d ∧ (es.flatMap entryParts).Sublist qs ∧
      qs.Perm (es.flatMap entryParts ++ (bareKeys g c).map Part.expression) ∧
      Ended (some .brace) d := by
  refine (gives_repeating_visits (I := fun seen => Entered k c (seen.filterMap (bareKey? g)))
    (Q := fun seen found d => Entered k c (seen.filterMap (bareKey? g)) found d ∧
      Ended (some .brace) d) .nil fun seen found d h => ?_).bind
    fun found d ⟨⟨qs, hqs, hsub, hperm⟩, hend⟩ => ⟨qs, hqs, hsub, hperm, hend⟩
  have hseen : (seen ++ [d]).filterMap (bareKey? g) =
      seen.filterMap (bareKey? g) ++ (bareKey? g d).toList := by
    rw [List.filterMap_append, List.filterMap_cons]
    cases bareKey? g d <;> rfl
  rw [hseen]
  refine (hashtableRound_reads hg hk hc h).mono fun r e hr => ?_
  cases r <;> exact hr

theorem passTokens_skips (n : Nat) :
    Gives (passTokens n) c fun _ d => Skips c d ∧ d.rest = c.rest.drop n := by
  induction n generalizing c with
  | zero => exact ⟨.refl, rfl⟩
  | succ n ih =>
      apply gives_advance_bind
      intro t ts hrest
      exact ih.mono fun _ d hd => ⟨.pass hrest hd.1, by rw [hd.2, hrest]; rfl⟩

/-- The last of the tokens of a group is its closer, and a closer counts. -/
theorem passTokens_group (hc : c.Sound) {depth n : Nat} (hdepth : 0 < depth)
    (h : groupLength? depth c.rest = some n) :
    Gives (passTokens n) c fun _ d => d.lastEnd = d.offset := by
  induction n generalizing c depth with
  | zero => exact absurd (groupLength?_le h).1 (Nat.not_succ_le_zero 0)
  | succ n ih =>
      cases hrest : c.rest with
      | nil => simp [hrest, groupLength?] at h
      | cons t ts =>
          rw [hrest, groupLength?] at h
          apply (holds_advance_bind hrest).mpr
          split at h
          case isTrue hlast =>
            obtain rfl : n = 0 := by simpa using h
            have hcounts : t.kind.isSpacing = false := by
              revert hlast
              cases t.kind <;> simp [depthBehind, TokenKind.isOpener, TokenKind.isCloser,
                TokenKind.isSpacing, TokenKind.isTrivia] <;> omega
            exact (lastEnd_pass hcounts).trans (hc.offset_pass hrest).symm
          case isFalse hopen =>
            obtain ⟨m, hm, hn⟩ := Option.map_eq_some_iff.mp h
            obtain rfl := Nat.succ.inj hn
            exact ih (hc.reaches_pass hrest).sound (Nat.pos_of_ne_zero hopen) hm

/-- Where a group ends that is passed over. -/
theorem passGroup_reads (hc : c.Sound) (hrest : c.rest = t :: ts) (ht : t.kind.isOpener) :
    Gives (passTokens ((groupLength? 0 c.rest).getD c.rest.length)) c fun _ d =>
      (Skips (c.pass t ts) d ∧
        d.rest = c.rest.drop ((groupLength? 0 c.rest).getD c.rest.length)) ∧
        (if (groupLength? 0 c.rest).isSome then d.lastEnd else d.size) = d.offset := by
  have hopened : groupLength? 0 (t :: ts) = (groupLength? 1 ts).map (· + 1) := by
    simp [groupLength?, depthBehind, ht]
  rw [hrest, hopened]
  cases hlength : groupLength? 1 ts with
  | none =>
      apply (holds_advance_bind hrest).mpr
      refine (passTokens_skips ts.length).mono fun _ d hd => ⟨hd, ?_⟩
      exact (offset_of_rest_nil (hd.2.trans List.drop_length)).symm
  | some n =>
      apply (holds_advance_bind hrest).mpr
      have hgroup : groupLength? 1 (c.pass t ts).rest = some n := hlength
      exact (passTokens_skips _).and (passTokens_group (hc.reaches_pass hrest).sound Nat.one_pos hgroup)

/-- A group past the last level is read without what it holds. -/
theorem skipGroup_reads (hc : c.Sound) (hrest : c.rest = t :: ts) (ht : t.kind.isOpener)
    (around : Option TokenKind) :
    Gives skipGroup c fun s d =>
      ∀ n : Node, n.OpenedBy t → n.children = [] → n.span = s → Reads ⟨0, around⟩ c [.node n] d := by
  apply (holds_current_bind hrest).mpr
  rw [holds_get_bind]
  refine (passGroup_reads hc hrest ht).bind fun _ d ⟨⟨hskips, hgroup⟩, hstop⟩ => ?_
  rw [holds_get_bind, hstop]
  apply gives_span_bind
  intro _ n hopened hchildren hspan
  rw [← hspan]
  exact .tooDeep hrest hopened hchildren hspan hskips hgroup

/-- The closer of a group is there, or the group ends with the script. -/
theorem expectCloser_gives {closer : Closer} (hend : Ended (some closer) c) :
    Gives (expectCloser closer) c fun stop d =>
      (∃ cl us, c.rest = cl :: us ∧ cl.kind = closerKind closer ∧ stop = cl.stop ∧
        d = c.pass cl us) ∨
      (c.rest = [] ∧ stop = c.size ∧ d = c.report (.missingCloser closer) (.empty c.size)) := by
  rw [expectCloser, Gives, holds_get_bind]
  split
  case isTrue hk =>
    obtain ⟨cl, us, hrest, hcl⟩ := kind?_eq_some.mp hk
    apply (holds_advance_bind hrest).mpr
    exact .inl ⟨cl, us, hrest, hcl, rfl, rfl⟩
  case isFalse hk =>
    obtain hrest | ⟨cl, hcl, hkind⟩ := hend
    · exact .inr ⟨hrest, rfl, rfl⟩
    · obtain rfl := Option.some.inj hcl
      exact absurd hkind hk

/-- A group: its opener, what stands inside, its closer. -/
theorem group_reads {α β : Type} {m : Parser α} {f : Token → α → Span → β} (node : β → Node)
    {closer : Closer} {left : Nat} (around : Option TokenKind) (hc : c.Sound)
    (hk : c.kind? = some kind) (hcloser : kind.closer? = some closer)
    (hm : ∀ {c : Cursor}, c.Sound → Gives m c fun a d => ∃ qs lost, Reads ⟨left, some kind⟩ c qs d ∧
      (∀ t s, (node (f t a s)).Gathers left c qs lost) ∧ Ended (some closer) d)
    (hnode : ∀ t a s, t.kind = kind →
      (node (f t a s)).OpenedBy t ∧ (node (f t a s)).span = s) :
    Gives (do
      let t ← advance
      let a ← nested m
      let stop ← expectCloser closer
      let s ← span t.start stop
      return f t a s) c fun b d => Reads ⟨left + 1, around⟩ c [.node (node b)] d := by
  obtain ⟨o, ts, hrest, rfl⟩ := kind?_eq_some.mp hk
  have hc' := hc.inside hrest
  apply (holds_advance_bind hrest).mpr
  -- what stands inside, one level deeper
  refine Holds.bind (holds_nested (Q := fun a d => ∃ e qs lost, d = c.outside e ∧
    Reads ⟨left, some o.kind⟩ (c.inside o ts) qs e ∧
    (∀ t s, (node (f t a s)).Gathers left (c.inside o ts) qs lost) ∧
    Ended (some closer) e) ((hm hc').mono fun a e ⟨qs, lost, hqs, hholds, hend⟩ =>
      ⟨(hqs.reaches hc').depth_eq, e, qs, lost, rfl, hqs, hholds, hend⟩)) ?_
  rintro a _ ⟨e, qs, lost, rfl, hqs, hholds, hend⟩
  -- the closer, or the end of the script
  have hend' : Ended (some closer) (c.outside e) := hend
  refine (expectCloser_gives hend').bind fun stop d hd => gives_span_bind fun _ => ?_
  rcases hd with ⟨cl, us, hrest', hcl, rfl, rfl⟩ | ⟨hrest', rfl, rfl⟩
  · obtain ⟨hopened, hspan⟩ := hnode o a ⟨o.start, cl.stop⟩ rfl
    have hclosed : o.ClosedBy cl := by rw [Token.ClosedBy, hcloser, Option.map_some, hcl]
    exact .group (e := e) hrest ⟨hopened, hclosed, hspan⟩ hqs (hholds _ _) hrest'
  · obtain ⟨hopened, hspan⟩ := hnode o a ⟨o.start, e.size⟩ rfl
    exact .cutOff (e := e) hrest ⟨hopened, hcloser, hspan⟩ hqs (hholds _ _) hrest'

theorem groups_read (levels : Nat) (around : Option TokenKind) :
    (groups levels).Read ⟨levels, around⟩ := by
  induction levels generalizing around with
  | zero =>
      refine ⟨groups_safe 0, fun hc hk => ?_, fun {c kind} hc hk hcloser => ?_, fun hc hk => ?_,
        groups_extents 0⟩
      · obtain ⟨t, ts, hrest, ht⟩ := kind?_eq_some.mp hk
        exact (skipGroup_reads hc hrest (by rw [ht]; rfl) around).bind fun s d hd => hd _ ht rfl rfl
      · obtain ⟨t, ts, hrest, rfl⟩ := kind?_eq_some.mp hk
        apply (holds_current_bind hrest).mpr
        exact (skipGroup_reads hc hrest (TokenKind.isOpener_of_closer? hcloser) around).bind
          fun s d hd => hd _ ⟨hcloser, rfl⟩ rfl rfl
      · obtain ⟨t, ts, hrest, ht⟩ := kind?_eq_some.mp hk
        exact (skipGroup_reads hc hrest (by rw [ht]; rfl) around).bind fun s d hd => hd _ ht rfl rfl
  | succ levels ih =>
      have hstatements {node : Token → List Statement → Span → Node} {kind : TokenKind}
          {closer : Closer} (hcloser : kind.closer? = some closer) {c : Cursor} (hc : c.Sound)
          (hrows : ∀ t body s, (Part.node (node t body s)).rows = [body.map .statement])
          (htable : ∀ t body s, (node t body s).isTable = false) :
          Gives (statements (groups levels) (some closer)) c fun body d => ∃ qs lost,
            Reads ⟨levels, some kind⟩ c qs d ∧ (∀ t s, (node t body s).Gathers levels c qs lost) ∧
            Ended (some closer) d :=
        (statements_reads (ih (some kind)) hc hcloser).mono fun body d hd =>
          ⟨_, [], hd.1, fun t s => ⟨Part.holds_of_rows_eq (hrows t body s), by rw [htable]; rfl⟩, hd.2⟩
      refine ⟨groups_safe _, fun hc hk => ?_, fun hc hk hcloser => ?_, fun hc hk => ?_, groups_extents _⟩
      · refine group_reads .block around hc hk rfl
          (fun hc => hstatements rfl hc (fun t body s => ?_) fun _ _ _ => rfl) fun t body s ht => ⟨ht, rfl⟩
        simp [Part.rows, Node.children]
      · refine group_reads .expression around hc hk hcloser
          (fun hc => hstatements hcloser hc (fun t body s => ?_) fun _ _ _ => rfl)
          fun t body s ht => ⟨⟨?_, rfl⟩, rfl⟩
        · simp [Part.rows, Node.children]
        · rw [ht, hcloser]
      · refine group_reads .expression around hc hk rfl (fun {c} hc => ?_)
          fun t body s ht => ⟨ht, rfl⟩
        refine (entries_reads (ih (some .atBrace)) rfl hc).mono fun es d hentries => ?_
        obtain ⟨qs, hqs, hsub, hperm, hend⟩ := hentries
        refine ⟨qs, bareKeys (groups levels) c, hqs, fun t s => ?_, hend⟩
        have hrows : (Part.expression (.hashtable es s)).rows = [es.flatMap entryParts] := by
          simp only [Part.rows, Node.children, List.map_flatMap]
          rfl
        refine ⟨⟨?_, ?_⟩, rfl⟩
        · simpa [hrows] using hsub
        · simpa [Part.parts, hrows] using hperm

end ScriptLint.Parse
