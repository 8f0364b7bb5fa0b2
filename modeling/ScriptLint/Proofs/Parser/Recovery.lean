import ScriptLint.Proofs.Parser.Reading
import ScriptLint.Proofs.Syntax.Balance

/-!
What a parse makes of brackets in a script that is malformed otherwise. It pairs them (`Pairs`): an opener
with the closer that its group ends with, and what belongs nowhere with none. If the brackets of a script are
nested, then no closer is out of place and none is missing, unless an opener has been passed as out of place
before; such an opener stands behind the key of an entry, in a hashtable.
-/

namespace ScriptLint

open Cursor Parse

/-- What is wrong with brackets. -/
inductive Blame
  /-- The token has been passed where it belongs nowhere. -/
  | stray (t : Token)
  /-- The script has ended in front of this closer. -/
  | missing (closer : Closer)

/-- The fault that is reported in a script of this size. -/
def Blame.fault (size : Nat) : Blame → Fault
  | stray t => ⟨.unexpectedToken t.text, t.span⟩
  | missing closer => ⟨.missingCloser closer, .empty size⟩

/-- On a level of nesting a parse gets from the brackets `bs` ahead to `cs`, and `es` is wrong with those in
between. -/
inductive Pairs : Level → List Token → List Blame → List Token → Prop
  | nil {k : Level} {bs : List Token} : Pairs k bs [] bs
  | append {k : Level} {bs cs ds : List Token} {es es' : List Blame} : Pairs k bs es cs →
      Pairs k cs es' ds → Pairs k bs (es ++ es') ds
  | stray {k : Level} {t : Token} {bs : List Token} : t.kind.isBracket → k.Stray t.kind →
      Pairs k (t :: bs) [.stray t] bs
  | group {left : Nat} {around : Option TokenKind} {o cl : Token} {bs cs : List Token}
      {es : List Blame} : o.ClosedBy cl → Pairs ⟨left, some o.kind⟩ bs es (cl :: cs) →
      Pairs ⟨left + 1, around⟩ (o :: bs) es cs
  | cutOff {left : Nat} {around : Option TokenKind} {o : Token} {bs : List Token} {es : List Blame}
      {closer : Closer} : o.kind.isOpener → Pairs ⟨left, some o.kind⟩ bs es [] →
      Pairs ⟨left + 1, around⟩ (o :: bs) (es ++ [.missing closer]) []
  | tooDeep {around : Option TokenKind} {o : Token} {bs : List Token} : o.kind.isOpener →
      Pairs ⟨0, around⟩ (o :: bs) [] (behindGroup 1 bs)

namespace Pairs

variable {k : Level} {bs cs : List Token} {es : List Blame}

theorem suffix (h : Pairs k bs es cs) : cs <:+ bs := by
  induction h with
  | nil => exact List.suffix_rfl
  | append _ _ ih ih' => exact ih'.trans ih
  | stray => exact List.suffix_cons _ _
  | group _ _ ih => exact (List.suffix_cons _ _).trans (ih.trans (List.suffix_cons _ _))
  | cutOff => exact List.nil_suffix
  | tooDeep => exact (List.drop_suffix _ _).trans (List.suffix_cons _ _)

/-- Where every closer is in its place, nothing is wrong unless an opener is passed as out of place. -/
theorem closing (h : Pairs k bs es cs) {owed : List Closer} (hbs : Closing owed bs)
    (hk : owed.head? = k.closer?) (hes : ∀ t, .stray t ∈ es → t.kind.isOpener = false) :
    es = [] ∧ Closing owed cs := by
  induction h generalizing owed with
  | nil => exact ⟨rfl, hbs⟩
  | append _ _ ih ih' =>
      obtain ⟨rfl, hcs⟩ := ih hbs hk fun t ht => hes t (List.mem_append_left _ ht)
      exact ih' hcs hk hes
  | stray hbracket hstray =>
      -- the innermost group is owed this closer, so it is not out of place
      rcases TokenKind.isOpener_or_isCloser hbracket with hopener | hcloser
      · exact absurd (hes _ List.mem_cons_self) (by rw [hopener]; exact Bool.noConfusion)
      · obtain ⟨closer, rest, rfl, hkind, -⟩ := hbs.of_isCloser hcloser
        refine absurd ?_ hstray.not_closer
        rw [← hk, hkind]
        rfl
  | @group _ _ o _ _ _ _ hclosed _ ih =>
      obtain ⟨opened, hopened, hcl⟩ := Option.map_eq_some_iff.mp hclosed
      obtain ⟨closer, hcloser, hinside⟩ := hbs.of_isOpener (TokenKind.isOpener_of_closer? hopened)
      obtain ⟨hnone, hbehind⟩ := ih hinside hcloser.symm hes
      obtain ⟨_, _, heq, -, hcs⟩ := hbehind.of_isCloser (by rw [← hcl]; exact isCloser_closerKind _)
      obtain rfl := (List.cons.inj heq).2
      exact ⟨hnone, hcs⟩
  | cutOff hopener _ ih =>
      obtain ⟨closer, hcloser, hinside⟩ := hbs.of_isOpener hopener
      have hend := (ih hinside hcloser.symm fun t ht => hes t (List.mem_append_left _ ht)).2
      cases hend
  | tooDeep hopener =>
      obtain ⟨closer, -, hinside⟩ := hbs.of_isOpener hopener
      exact ⟨rfl, @Closing.behindGroup owed _ [] closer hinside⟩

/-- Every opener that is passed as out of place leaves a closer too many, if none is passed so itself and
none is missing. -/
theorem surplus_le (h : Pairs k bs es cs) (hbs : ∀ t ∈ bs, t.kind.isBracket)
    (hes : ∀ e ∈ es, ∃ t, e = .stray t ∧ t.kind.isOpener) :
    surplus cs + es.length ≤ surplus bs := by
  induction h with
  | nil => simp
  | append h _ ih ih' =>
      obtain ⟨hes, hes'⟩ := List.forall_mem_append.mp hes
      have hfront := ih hbs hes
      have hbehind := ih' (fun t ht => hbs t (h.suffix.subset ht)) hes'
      rw [List.length_append]
      omega
  | stray =>
      obtain ⟨_, heq, hopener⟩ := hes _ List.mem_cons_self
      cases heq
      rw [surplus_cons_of_isOpener hopener]
      exact Int.le_refl _
  | group hclosed _ ih =>
      obtain ⟨closer, ho, hcl⟩ := Option.map_eq_some_iff.mp hclosed
      have hinside := ih (fun t ht => hbs t (List.mem_cons_of_mem _ ht)) hes
      rw [surplus_cons_of_isCloser (by rw [← hcl]; exact isCloser_closerKind _)] at hinside
      rw [surplus_cons_of_isOpener (TokenKind.isOpener_of_closer? ho)]
      omega
  | cutOff =>
      obtain ⟨_, heq, -⟩ := hes _ (List.mem_append_right _ List.mem_cons_self)
      cases heq
  | tooDeep hopener =>
      have hbehind := surplus_behindGroup_le 0 fun t ht => hbs t (List.mem_cons_of_mem _ ht)
      rw [surplus_cons_of_isOpener hopener]
      simpa using hbehind

/-- Outside of hashtables no opener is passed as out of place. -/
theorem isOpener_eq_false (h : Pairs k bs es cs) (hk : k.around ≠ some .atBrace)
    (hbs : ∀ t ∈ bs, t.kind ≠ .atBrace) : ∀ t, .stray t ∈ es → t.kind.isOpener = false := by
  induction h with
  | nil | tooDeep => exact fun _ ht => absurd ht List.not_mem_nil
  | append h _ ih ih' =>
      intro t ht
      rcases List.mem_append.mp ht with ht | ht
      · exact ih hk hbs t ht
      · exact ih' hk (fun u hu => hbs u (h.suffix.subset hu)) t ht
  | stray _ hstray =>
      intro t ht
      cases List.mem_singleton.mp ht
      exact Bool.eq_false_iff.mpr fun hopener => hk (hstray.in_table (.inl hopener))
  | group _ _ ih =>
      obtain ⟨ho, hbs⟩ := List.forall_mem_cons.mp hbs
      exact ih (fun heq => ho (Option.some.inj heq)) hbs
  | cutOff _ _ ih =>
      obtain ⟨ho, hbs⟩ := List.forall_mem_cons.mp hbs
      intro t ht
      rcases List.mem_append.mp ht with ht | ht
      · exact ih (fun heq => ho (Option.some.inj heq)) hbs t ht
      · cases List.mem_singleton.mp ht

end Pairs

namespace Cursor

/-- The brackets ahead are those of the script from the cursor on. -/
structure Follows (script : List Token) (c : Cursor) : Prop where
  sound : c.Sound
  mem_iff : ∀ t, t.kind.isBracket → (t ∈ c.rest ↔ t ∈ script ∧ c.offset ≤ t.start)

namespace Follows

variable {script : List Token} {c d : Cursor} {t : Token} {ts : List Token}

theorem ofSource (source : String) : Follows (tokenize source) (.ofSource source) where
  sound := sound_ofSource source
  mem_iff := fun t _ => by
    have hoffset : (Cursor.ofSource source).offset = 0 := offset_eq_of_tiles (tiles_tokenize source)
    rw [hoffset]
    exact (and_iff_left (Nat.zero_le _)).symm

/-- A bracket of the script that stands where the cursor is lies ahead. -/
theorem rest_eq_cons (h : c.Follows script) (ht : t ∈ script) (hbracket : t.kind.isBracket)
    (hstart : t.start = c.offset) : ∃ ts, c.rest = t :: ts := by
  have hmem : t ∈ c.rest := (h.mem_iff t hbracket).mpr ⟨ht, Nat.le_of_eq hstart.symm⟩
  cases hrest : c.rest with
  | nil => simp [hrest] at hmem
  | cons u us =>
      rw [hrest] at hmem
      rcases List.mem_cons.mp hmem with rfl | hmem
      · exact ⟨us, rfl⟩
      · -- behind the token ahead no token starts where this one does
        have hbehind := (h.sound.tiles_tail hrest).le_start hmem
        have hlt := h.sound.start_lt_stop hrest
        have hoffset := offset_eq_start hrest
        omega

/-- A bracket ahead is one of the script. -/
theorem mem_brackets (h : c.Follows script) (hrest : c.rest = t :: ts) (hbracket : t.kind.isBracket) :
    t ∈ brackets script := by
  have hmem : t ∈ c.rest := hrest ▸ List.mem_cons_self
  exact List.mem_filter.mpr ⟨((h.mem_iff t hbracket).mp hmem).1, hbracket⟩

theorem behind (h : c.Follows script) (hrest : c.rest = t :: ts) (hd : d.Sound) (hts : d.rest = ts)
    (hoffset : d.offset = t.stop) : d.Follows script := by
  refine ⟨hd, fun u hu => ?_⟩
  have hlt := h.sound.start_lt_stop hrest
  have hstart := offset_eq_start hrest
  have hiff := h.mem_iff u hu
  rw [hrest, List.mem_cons, hstart] at hiff
  rw [hts, hoffset]
  constructor
  · intro hmem
    exact ⟨(hiff.mp (.inr hmem)).1, (h.sound.tiles_tail hrest).le_start hmem⟩
  · rintro ⟨hscript, hle⟩
    rcases hiff.mpr ⟨hscript, by omega⟩ with rfl | hmem
    · omega
    · exact hmem

theorem pass (h : c.Follows script) (hrest : c.rest = t :: ts) : (c.pass t ts).Follows script :=
  h.behind hrest (h.sound.reaches_pass hrest).sound rfl (h.sound.offset_pass hrest)

theorem report (h : c.Follows script) (problem : Problem) (s : Span) :
    (c.report problem s).Follows script :=
  ⟨(h.sound.reaches_report problem s).sound, h.mem_iff⟩

theorem inside (h : c.Follows script) (hrest : c.rest = t :: ts) :
    (c.inside t ts).Follows script :=
  ⟨h.sound.inside hrest, (h.pass hrest).mem_iff⟩

theorem outside (h : d.Follows script) : (c.outside d).Follows script :=
  ⟨⟨h.sound.tiles, h.sound.lastEnd_le⟩, h.mem_iff⟩

/-- A word that is cut is no bracket, and its halves are none. -/
theorem cut (h : c.Follows script) (hrest : c.rest = t :: ts) (hword : t.kind = .word)
    {head tail : String} (htext : t.text = head ++ tail) (hhead : head ≠ "") (htail : tail ≠ "") :
    Follows script
      { c with rest := (t.cut head.utf8ByteSize).1 :: (t.cut head.utf8ByteSize).2 :: ts } := by
  refine ⟨(h.sound.reaches_cut hrest htext hhead htail).sound, fun u hu => ?_⟩
  have hne {v : Token} (hv : v.kind = .word) : u ≠ v := by
    rintro rfl
    rw [hv] at hu
    cases hu
  have hiff := h.mem_iff u hu
  rw [hrest, List.mem_cons, or_iff_right (hne hword), offset_eq_start hrest] at hiff
  rw [List.mem_cons, or_iff_right (hne rfl), List.mem_cons, or_iff_right (hne rfl)]
  exact hiff

end Follows

theorem Skips.follows {script : List Token} {c d : Cursor} (h : Skips c d) (hc : c.Follows script) :
    d.Follows script := by
  induction h with
  | refl => exact hc
  | pass hrest _ ih => exact ih (hc.pass hrest)

theorem Passing.follows {script : List Token} {k : Level} {c d : Cursor} (h : Passing k c d)
    (hc : c.Follows script) : d.Follows script := by
  cases h with
  | aside hrest => exact hc.pass hrest
  | leave hrest =>
      exact hc.behind hrest (hc.sound.reaches_leave hrest).sound rfl (hc.sound.offset_leave hrest)
  | cut hrest hword htext hhead htail => exact hc.cut hrest hword htext hhead htail
  | stray hrest => exact (hc.pass hrest).report _ _
  | lacking => exact hc.report _ _

end Cursor

theorem Reads.follows {script : List Token} {k : Level} {b d : Cursor} {ps : List Part}
    (h : Reads k b ps d) (hb : b.Follows script) : d.Follows script := by
  induction h with
  | nil => exact hb
  | passing hpassing => exact hpassing.follows hb
  | append _ _ ih ih' => exact ih' (ih hb)
  | operand hrest | comment hrest => exact hb.pass hrest
  | unclosed hrest => exact (hb.pass hrest).report _ _
  | joint _ _ ih => exact ih hb
  | group hrest _ _ _ hcloser ih => exact ((ih (hb.inside hrest)).pass hcloser).outside
  | cutOff hrest _ _ _ _ ih => exact (ih (hb.inside hrest)).outside.report _ _
  | tooDeep hrest _ _ _ hskips => exact (hskips.follows (hb.pass hrest)).report _ _
  | bodiless => exact hb.report _ _

/-- The fault is about brackets: a closer is missing, or the fault is reported where a bracket of the script
is. -/
def Fault.onBrackets (script : List Token) (f : Fault) : Bool :=
  match f.problem with
  | .missingCloser _ => true
  | .unexpectedToken _ => (brackets script).any (·.span = f.span)
  | _ => false

namespace Cursor

variable {script : List Token} {c : Cursor} {t : Token} {ts : List Token} {text : String}

/-- The faults about brackets that have been reported. -/
def blamed (script : List Token) (c : Cursor) : List Fault :=
  c.faults.toList.filter (·.onBrackets script)

theorem blamed_report (script : List Token) (c : Cursor) (problem : Problem) (s : Span) :
    (c.report problem s).blamed script =
      c.blamed script ++ if Fault.onBrackets script ⟨problem, s⟩ then [⟨problem, s⟩] else [] := by
  rw [blamed, report, Array.toList_push, List.filter_append, List.filter_singleton,
    cond_eq_ite]
  rfl

theorem blamed_report_of_not {problem : Problem} {s : Span}
    (h : Fault.onBrackets script ⟨problem, s⟩ = false) :
    (c.report problem s).blamed script = c.blamed script := by
  rw [blamed_report, h]
  exact List.append_nil _

/-- What is reported at the cursor is reported at a bracket only if the bracket is ahead. -/
theorem Follows.rest_of_onBrackets (h : c.Follows script) {s : Span} (hs : s.start = c.offset)
    (hf : Fault.onBrackets script ⟨.unexpectedToken text, s⟩) :
    ∃ u us, c.rest = u :: us ∧ u.kind.isBracket ∧ u.span = s := by
  obtain ⟨u, hu, hspan⟩ := List.any_eq_true.mp hf
  obtain ⟨hscript, hbracket⟩ := List.mem_filter.mp hu
  have hspan : u.span = s := of_decide_eq_true hspan
  obtain ⟨us, hrest⟩ := h.rest_eq_cons hscript hbracket ((congrArg Span.start hspan).trans hs)
  exact ⟨u, us, hrest, hbracket, hspan⟩

theorem Follows.onBrackets_token (h : c.Follows script) (hrest : c.rest = t :: ts) :
    Fault.onBrackets script ⟨.unexpectedToken text, t.span⟩ = t.kind.isBracket := by
  rw [Bool.eq_iff_iff]
  constructor
  · intro hf
    obtain ⟨u, us, hrest', hbracket, -⟩ := h.rest_of_onBrackets (offset_eq_start hrest).symm hf
    obtain rfl := (List.cons.inj (hrest.symm.trans hrest')).1
    exact hbracket
  · intro hbracket
    exact List.any_eq_true.mpr ⟨t, h.mem_brackets hrest hbracket, decide_eq_true rfl⟩

/-- Where no byte is, no bracket is. -/
theorem Follows.not_onBrackets_empty (h : c.Follows script) :
    Fault.onBrackets script ⟨.unexpectedToken text, .empty c.offset⟩ = false := by
  refine Bool.eq_false_iff.mpr fun hf => ?_
  obtain ⟨u, us, hrest, -, hspan⟩ := h.rest_of_onBrackets rfl hf
  have hlt := h.sound.start_lt_stop hrest
  have hstart : u.start = c.offset := congrArg Span.start hspan
  have hstop : u.stop = c.offset := congrArg Span.stop hspan
  omega

/-- On the way from `b` to `d` the brackets passed have been paired, and all that is wrong with them has been
reported. -/
structure Accounts (script : List Token) (k : Level) (b : Cursor) (es : List Blame) (d : Cursor) :
    Prop where
  pairs : Pairs k (brackets b.rest) es (brackets d.rest)
  blamed_eq : d.blamed script = b.blamed script ++ es.map (Blame.fault b.size)
  mem_brackets : ∀ t, .stray t ∈ es → t ∈ brackets script

/-- Where no bracket is passed, there is nothing to report about them. -/
theorem accounts_nil {k : Level} {b d : Cursor} (hbrackets : brackets b.rest = brackets d.rest)
    (hblamed : d.blamed script = b.blamed script) : Accounts script k b [] d where
  pairs := hbrackets ▸ .nil
  blamed_eq := by rw [hblamed, List.map_nil, List.append_nil]
  mem_brackets := fun _ ht => absurd ht List.not_mem_nil

theorem accounts_pass {k : Level} {d : Cursor} (hrest : c.rest = t :: ts)
    (ht : t.kind.isBracket = false) (hd : d.rest = ts) (hblamed : d.blamed script = c.blamed script) :
    Accounts script k c [] d :=
  accounts_nil (by rw [hrest, hd, brackets_cons_of_not_isBracket ht]) hblamed

theorem Passing.accounts {k : Level} {d : Cursor} (h : Passing k c d) (hc : c.Follows script) :
    ∃ es, Accounts script k c es d := by
  cases h with
  | aside hrest ht | leave hrest ht =>
      exact ⟨[], accounts_pass hrest (TokenKind.not_isBracket_of_isAside ht) rfl rfl⟩
  | cut hrest hword =>
      refine ⟨[], accounts_nil ?_ rfl⟩
      rw [hrest, brackets_cons_of_not_isBracket (by rw [hword]; rfl),
        brackets_cons_of_not_isBracket rfl, brackets_cons_of_not_isBracket rfl]
  | @stray t ts hrest hstray =>
      have hon : Fault.onBrackets script ⟨.unexpectedToken t.text, t.span⟩ = t.kind.isBracket :=
        hc.onBrackets_token hrest
      cases hbracket : t.kind.isBracket with
      | false =>
          exact ⟨[], accounts_pass hrest hbracket rfl (blamed_report_of_not (hon.trans hbracket))⟩
      | true =>
          refine ⟨[.stray t], ?_, ?_, fun u hu => ?_⟩
          · rw [hrest, brackets_cons_of_isBracket hbracket]
            exact .stray hbracket hstray
          · rw [blamed_report, hon, hbracket]
            rfl
          · cases List.mem_singleton.mp hu
            exact hc.mem_brackets hrest hbracket
  | lacking => exact ⟨[], accounts_nil rfl (blamed_report_of_not hc.not_onBrackets_empty)⟩

end Cursor

theorem Reads.accounts {script : List Token} {k : Level} {b d : Cursor} {ps : List Part}
    (h : Reads k b ps d) (hb : b.Follows script) : ∃ es, Accounts script k b es d := by
  induction h with
  | nil => exact ⟨[], accounts_nil rfl rfl⟩
  | passing hpassing => exact hpassing.accounts hb
  | append h _ ih ih' =>
      obtain ⟨es, hes⟩ := ih hb
      obtain ⟨es', hes'⟩ := ih' (h.follows hb)
      refine ⟨es ++ es', hes.pairs.append hes'.pairs, ?_, fun t ht => ?_⟩
      · rw [hes'.blamed_eq, hes.blamed_eq, (h.reaches hb.sound).size_eq, List.map_append,
          List.append_assoc]
      · exact (List.mem_append.mp ht).elim (hes.mem_brackets t) (hes'.mem_brackets t)
  | operand hrest ht => exact ⟨[], accounts_pass hrest (Token.operand?_eq_some ht).1 rfl rfl⟩
  | unclosed hrest ht =>
      exact ⟨[], accounts_pass hrest (by rw [ht]; rfl) rfl (blamed_report_of_not rfl)⟩
  | comment hrest ht => exact ⟨[], accounts_pass hrest (by rw [ht]; rfl) rfl rfl⟩
  | joint _ _ ih => exact ih hb
  | group hrest hn _ _ hcloser ih =>
      obtain ⟨es, hes⟩ := ih (hb.inside hrest)
      obtain ⟨ho, hcl⟩ := hn.closed.isBracket
      have hpairs := hes.pairs
      rw [hcloser, brackets_cons_of_isBracket hcl] at hpairs
      refine ⟨es, ?_, hes.blamed_eq, hes.mem_brackets⟩
      rw [hrest, brackets_cons_of_isBracket ho]
      exact .group hn.closed hpairs
  | @cutOff _ _ c e _ _ _ closer _ _ hrest hn hreads _ hend ih =>
      obtain ⟨es, hes⟩ := ih (hb.inside hrest)
      have hopener := hn.opened.isOpener
      have hpairs := hes.pairs
      rw [hend] at hpairs
      refine ⟨es ++ [.missing closer], ?_, ?_, fun t ht => ?_⟩
      · rw [hrest, brackets_cons_of_isBracket (TokenKind.isBracket_of_isOpener hopener)]
        show Pairs _ _ _ (brackets e.rest)
        rw [hend]
        exact .cutOff hopener hpairs
      · have hsize := (hreads.reaches (hb.sound.inside hrest)).size_eq
        rw [blamed_report, hsize, List.map_append, ← List.append_assoc]
        exact congrArg (· ++ _) hes.blamed_eq
      · rcases List.mem_append.mp ht with ht | ht
        · exact hes.mem_brackets t ht
        · cases List.mem_singleton.mp ht
  | @tooDeep _ c e o ts n _ hrest hn _ _ hskips hgroup =>
      have hopener := hn.isOpener
      have hbehind : e.rest = behindGroup 1 ts := by
        rw [← behindGroup_of_isOpener hopener, ← hrest]
        exact hgroup
      refine ⟨[], ?_, ?_, fun _ ht => absurd ht List.not_mem_nil⟩
      · rw [hrest, brackets_cons_of_isBracket (TokenKind.isBracket_of_isOpener hopener)]
        show Pairs _ _ _ (brackets e.rest)
        rw [hbehind, brackets_behindGroup]
        exact .tooDeep hopener
      · have hkept : e.faults = c.faults := hskips.faults_eq
        rw [blamed_report_of_not rfl, blamed, hkept]
        exact (List.append_nil _).symm
  | bodiless => exact ⟨[], accounts_nil rfl (blamed_report_of_not hb.not_onBrackets_empty)⟩

/-- The diagnostic says that the token belongs nowhere. -/
def Diagnostic.Rejects (d : Diagnostic) (t : Token) : Prop :=
  d.rule = Check.unexpectedToken.identity.id ∧ d.span = some t.span

/-- The diagnostic says that a closer is missing, or that one belongs nowhere. -/
def Diagnostic.BlamesCloser (script : List Token) (d : Diagnostic) : Prop :=
  d.rule = Check.missingCloseBrace.identity.id ∨ d.rule = Check.missingCloseParen.identity.id ∨
    ∃ t ∈ script, t.kind.isCloser ∧ d.Rejects t

/-- The diagnostic says that an opener belongs nowhere. -/
def Diagnostic.BlamesOpener (script : List Token) (d : Diagnostic) : Prop :=
  ∃ t ∈ script, t.kind.isOpener ∧ d.Rejects t

instance (d : Diagnostic) (t : Token) : Decidable (d.Rejects t) :=
  inferInstanceAs (Decidable (_ ∧ _))

instance (script : List Token) (d : Diagnostic) : Decidable (d.BlamesCloser script) :=
  inferInstanceAs (Decidable (_ ∨ _ ∨ _))

instance (script : List Token) (d : Diagnostic) : Decidable (d.BlamesOpener script) :=
  inferInstanceAs (Decidable (∃ t ∈ script, _ ∧ _))

theorem Check.id_injective {c c' : Check} (h : c.identity.id = c'.identity.id) : c = c' :=
  Option.some.inj ((ofId?_id c).symm.trans (h ▸ ofId?_id c'))

namespace Fault

variable {script : List Token} {f : Fault} {t : Token}

theorem onBrackets_of_rejects (h : f.diagnostic.Rejects t) (ht : t ∈ brackets script) :
    f.onBrackets script := by
  obtain ⟨problem, s⟩ := f
  obtain ⟨hrule, hspan⟩ := h
  have hcheck : problem.check = .unexpectedToken := Check.id_injective hrule
  obtain rfl := Option.some.inj hspan
  cases problem with
  | unexpectedToken text => exact List.any_eq_true.mpr ⟨t, ht, decide_eq_true rfl⟩
  | missingCloser closer => rfl
  | unterminatedString | nestingTooDeep => cases hcheck

theorem onBrackets_of_blamesCloser (h : f.diagnostic.BlamesCloser script) : f.onBrackets script := by
  have hmissing {c : Check} (hrule : f.diagnostic.rule = c.identity.id)
      (hc : c = .missingCloseBrace ∨ c = .missingCloseParen) : f.onBrackets script := by
    obtain ⟨problem, s⟩ := f
    have hcheck : problem.check = c := Check.id_injective hrule
    cases problem with
    | missingCloser closer => rfl
    | unexpectedToken | unterminatedString | nestingTooDeep =>
        rw [← hcheck] at hc
        rcases hc with hc | hc <;> cases hc
  rcases h with hbrace | hparen | ⟨t, ht, hcloser, hrejects⟩
  · exact hmissing hbrace (.inl rfl)
  · exact hmissing hparen (.inr rfl)
  · have hbracket : t.kind.isBracket := by rw [TokenKind.isBracket, hcloser, Bool.or_true]
    exact onBrackets_of_rejects hrejects (List.mem_filter.mpr ⟨ht, hbracket⟩)

theorem onBrackets_of_blamesOpener (h : f.diagnostic.BlamesOpener script) : f.onBrackets script := by
  obtain ⟨t, ht, hopener, hrejects⟩ := h
  exact onBrackets_of_rejects hrejects
    (List.mem_filter.mpr ⟨ht, TokenKind.isBracket_of_isOpener hopener⟩)

end Fault

/-- All that a parse reports on brackets is what goes wrong when it pairs them. -/
theorem exists_pairs (source : String) :
    ∃ es, Pairs ⟨maxNesting, none⟩ (brackets (tokenize source)) es [] ∧
      (∀ t, .stray t ∈ es → t ∈ brackets (tokenize source)) ∧
      ∀ f, f ∈ (parse source).faults ∧ f.onBrackets (tokenize source) ↔
        f ∈ es.map (Blame.fault source.utf8ByteSize) := by
  obtain ⟨body, d, hreads, hend, hparse⟩ := exists_reads source
  obtain ⟨es, hes⟩ := hreads.accounts (Follows.ofSource source)
  have hpairs := hes.pairs
  rw [hend] at hpairs
  refine ⟨es, hpairs, hes.mem_brackets, fun f => ?_⟩
  have hblamed : d.blamed (tokenize source) = es.map (Blame.fault source.utf8ByteSize) :=
    hes.blamed_eq
  rw [hparse, ← hblamed]
  exact List.mem_filter.symm

/-- Brackets that are nested are read as they are nested, whatever else is wrong in a script, unless an
opener is passed as a token that belongs nowhere: a closer is missing or belongs nowhere if and only if an
opener does. None does in a script without hashtables. -/
theorem closer_blamed_iff_opener_blamed {source : String}
    (h : Nested (brackets (tokenize source))) :
    ((∃ d ∈ (parse source).diagnostics, d.BlamesCloser (tokenize source)) ↔
      ∃ d ∈ (parse source).diagnostics, d.BlamesOpener (tokenize source)) ∧
    ((∃ d ∈ (parse source).diagnostics, d.BlamesCloser (tokenize source)) →
      ∃ t ∈ tokenize source, t.kind = .atBrace) := by
  obtain ⟨es, hpairs, hmem, hfaults⟩ := exists_pairs source
  have hreported {e : Blame} (he : e ∈ es) :
      (e.fault source.utf8ByteSize).diagnostic ∈ (parse source).diagnostics :=
    List.mem_map_of_mem ((hfaults _).mpr (List.mem_map_of_mem he)).1
  have hsomething {f : Fault} (hf : f ∈ (parse source).faults)
      (hon : f.onBrackets (tokenize source)) : es ≠ [] :=
    List.ne_nil_of_mem (List.mem_map.mp ((hfaults f).mp ⟨hf, hon⟩)).choose_spec.1
  have hclosing (hes : ∀ t, .stray t ∈ es → t.kind.isOpener = false) : es = [] :=
    (hpairs.closing h.closing rfl hes).1
  refine ⟨⟨?_, ?_⟩, ?_⟩
  · rintro ⟨d, hd, hblames⟩
    obtain ⟨f, hf, rfl⟩ := List.mem_map.mp hd
    by_contra hnone
    refine hsomething hf (Fault.onBrackets_of_blamesCloser hblames) (hclosing fun t ht => ?_)
    refine Bool.eq_false_iff.mpr fun hopener => hnone ⟨_, hreported ht, t, ?_, hopener, rfl, rfl⟩
    exact List.mem_of_mem_filter (hmem t ht)
  · rintro ⟨d, hd, hblames⟩
    obtain ⟨f, hf, rfl⟩ := List.mem_map.mp hd
    by_contra hnone
    -- nothing but openers is out of place, but then there would be closers too many
    have hopeners : ∀ e ∈ es, ∃ t, e = .stray t ∧ t.kind.isOpener := by
      intro e he
      cases e with
      | missing closer =>
          refine absurd ⟨_, hreported he, ?_⟩ hnone
          cases closer with
          | brace => exact .inl rfl
          | paren => exact .inr (.inl rfl)
      | stray t =>
          obtain ⟨hscript, hbracket⟩ := List.mem_filter.mp (hmem t he)
          refine ⟨t, rfl, (TokenKind.isOpener_or_isCloser hbracket).resolve_right fun hcloser => ?_⟩
          exact hnone ⟨_, hreported he, .inr (.inr ⟨t, hscript, hcloser, rfl, rfl⟩)⟩
    have hcount := hpairs.surplus_le (fun t ht => (List.mem_filter.mp ht).2) hopeners
    rw [surplus_nil, h.closing.surplus_eq, List.length_nil] at hcount
    have hlength : es.length = 0 := by omega
    exact hsomething hf (Fault.onBrackets_of_blamesOpener hblames) (List.length_eq_zero_iff.mp hlength)
  · rintro ⟨d, hd, hblames⟩
    obtain ⟨f, hf, rfl⟩ := List.mem_map.mp hd
    by_contra hnone
    refine hsomething hf (Fault.onBrackets_of_blamesCloser hblames) (hclosing ?_)
    refine hpairs.isOpener_eq_false nofun fun t ht hkind => hnone ⟨t, ?_, hkind⟩
    exact List.mem_of_mem_filter ht

theorem nested_pair_in_pair {o cl o' cl' : Token} (h : o.ClosedBy cl) (h' : o'.ClosedBy cl') :
    Nested [o, o', cl', cl] :=
  @Nested.group o cl [o', cl'] [] h (@Nested.group o' cl' [] [] h' .nil .nil) .nil

theorem nested_behind_bar : Nested (brackets (tokenize "& { | (1) }")) := by
  have hbrackets : brackets (tokenize "& { | (1) }") =
      [⟨.openBrace, "\x7b", 2⟩, ⟨.openParen, "(", 6⟩, ⟨.closeParen, ")", 8⟩,
        ⟨.closeBrace, "\x7d", 10⟩] := by decide +kernel
  rw [hbrackets]
  exact nested_pair_in_pair rfl rfl

/-- A bar with nothing in front of it is out of place, and no bracket is. -/
theorem closer_not_blamed_behind_bar :
    Nested (brackets (tokenize "& { | (1) }")) ∧ (parse "& { | (1) }").diagnostics ≠ [] ∧
      ¬ ∃ d ∈ (parse "& { | (1) }").diagnostics, d.BlamesCloser (tokenize "& { | (1) }") := by
  refine ⟨nested_behind_bar, by decide +kernel, fun hblamed => ?_⟩
  exact absurd ((closer_blamed_iff_opener_blamed nested_behind_bar).1.mp hblamed) (by decide +kernel)

/-- Behind the key of an entry the opener is passed as out of place, and then its closer is. -/
theorem closer_blamed_behind_key :
    Nested (brackets (tokenize "@{a (b)}")) ∧
      ∃ d ∈ (parse "@{a (b)}").diagnostics, d.BlamesCloser (tokenize "@{a (b)}") := by
  have hbrackets : brackets (tokenize "@{a (b)}") =
      [⟨.atBrace, "@\x7b", 0⟩, ⟨.openParen, "(", 4⟩, ⟨.closeParen, ")", 6⟩,
        ⟨.closeBrace, "\x7d", 7⟩] := by decide +kernel
  refine ⟨?_, by decide +kernel⟩
  rw [hbrackets]
  exact nested_pair_in_pair rfl rfl

end ScriptLint
