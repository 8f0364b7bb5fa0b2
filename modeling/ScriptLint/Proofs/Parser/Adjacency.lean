import ScriptLint.Proofs.Parser.EndOfParameters
import ScriptLint.Proofs.Rule.Binding

/-!
What touches an argument. An argument goes on with the tokens that touch it, but not with a parameter: behind
`$dir` the text `-Backup` is an element of its own, which names a parameter. Only behind the word that ends the
parameters of a call is it read as an argument.
-/

namespace ScriptLint

open ScriptLint.Parser ScriptLint.Parse Cursor

/-- The element is a parameter of this name that starts here. -/
def Element.NamesAt (name : String) (start : Nat) (e : Element) : Prop :=
  e.parameterName? = some name ∧ e.span.start = start

instance (name : String) (start : Nat) (e : Element) : Decidable (e.NamesAt name start) :=
  inferInstanceAs (Decidable (_ ∧ _))

theorem Element.not_namesAt_argument {name : String} {start : Nat} {value : Expression} :
    ¬ (argument value).NamesAt name start := fun h => by cases h.1

/-- The call has a parameter of this name that starts here. -/
def Invocation.NamesAt (i : Invocation) (name : String) (start : Nat) : Prop :=
  ∃ e ∈ i.elements, e.NamesAt name start

instance (i : Invocation) (name : String) (start : Nat) : Decidable (i.NamesAt name start) :=
  inferInstanceAs (Decidable (∃ e ∈ i.elements, e.NamesAt name start))

variable {source : String} {c d : Cursor} {t u w : Token} {us : List Token} {args args' : Arguments}
  {levels front : Nat}

/-- Where a token ahead starts that is one of the script, no other one does. -/
theorem Cursor.Along.eq_of_start_eq (hc : c.Along source) (hrest : c.rest = t :: us)
    (hu : u ∈ tokenize source) (hstart : u.start = c.offset) : u = t := by
  have hmem := hc.ahead u hu (Nat.le_of_eq hstart.symm)
  rw [hrest] at hmem
  refine (List.mem_cons.mp hmem).resolve_right fun hus => ?_
  have hle := (hc.sound.tiles_tail hrest).le_start hus
  have hlt := hc.sound.start_lt_stop hrest
  have hoffset := offset_eq_start hrest
  omega

namespace Parse

/-- The word `w` has ended the parameters of the call that is being read, whose head stops at `front`. -/
structure EndedBy (source : String) (front : Nat) (args : Arguments) (d : Cursor) (w : Token) : Prop where
  mem : w ∈ tokenize source
  word : w.kind = .word
  text : w.text = "--"
  behind_head : front ≤ w.start
  within : w.stop ≤ d.lastEnd
  apart : ∀ s ∈ args.spans, s.stop ≤ w.start ∨ w.stop ≤ s.start

/-- The parameter token `u`, which touches the argument `value`, has named a parameter, or it could not. -/
def Settled (source : String) (front : Nat) (args : Arguments) (d : Cursor) (value : Expression)
    (u : Token) : Prop :=
  (∃ w, EndedBy source front args d w ∧ w.stop ≤ value.span.start) ∨
    ∃ e ∈ args.elements, e.NamesAt u.parameterName u.start

/-- What has been read of a call up to the cursor `d`. A parameter token that touches the last argument may be
ahead still. -/
structure Heard (source : String) (front : Nat) (args : Arguments) (d : Cursor) : Prop where
  intact : d.Intact source
  behind_head : front ≤ d.offset
  placed : ∀ s ∈ args.spans, s.start ≤ s.stop ∧ s.stop ≤ d.offset
  named : ∀ e ∈ args.elements, ∀ name start, e.NamesAt name start →
    ∃ u ∈ tokenize source, isParameter u.kind ∧ u.parameterName = name ∧ u.start = start
  ended : args.parametersEnded = true → ∃ w, EndedBy source front args d w
  touched : ∀ value, .argument value ∈ args.elements → ∀ u ∈ tokenize source, isParameter u.kind →
    u.start = value.span.stop → u.start = d.offset ∧ args.parametersEnded = false ∨
      Settled source front args d value u

theorem EndedBy.on (h : EndedBy source front args c w) (hd : Reaches c d) (hc : c.Sound)
    (hspans : ∀ s ∈ args'.spans, s ∈ args.spans ∨ c.offset ≤ s.start) :
    EndedBy source front args' d w := by
  refine ⟨h.mem, h.word, h.text, h.behind_head, Nat.le_trans h.within hd.lastEnd_le, fun s hs => ?_⟩
  rcases hspans s hs with hs | hs
  · exact h.apart s hs
  · exact .inr (Nat.le_trans h.within (Nat.le_trans hc.lastEnd_le hs))

/-- How the loop goes on: what is new stands between the two cursors, and a parameter that was ahead has been
read as one. -/
theorem Heard.step (h : Heard source front args c) (hd : Reaches c d) (hintact : d.Intact source)
    (hspans : ∀ s ∈ args'.spans,
      s ∈ args.spans ∨ c.offset ≤ s.start ∧ s.start ≤ s.stop ∧ s.stop ≤ d.offset)
    (hkept : ∀ e ∈ args.elements, e ∈ args'.elements)
    (hnamed : ∀ e ∈ args'.elements, e ∈ args.elements ∨ ∀ name start, e.NamesAt name start →
      ∃ u ∈ tokenize source, isParameter u.kind ∧ u.parameterName = name ∧ u.start = start)
    (hended : args'.parametersEnded = true →
      args.parametersEnded = true ∨ ∃ w, EndedBy source front args' d w)
    (hnext : ∀ u ∈ tokenize source, isParameter u.kind → u.start = c.offset →
      args.parametersEnded = false → ∃ e ∈ args'.elements, e.NamesAt u.parameterName u.start)
    (htouched : ∀ value, .argument value ∈ args'.elements → .argument value ∈ args.elements ∨
      ∀ u ∈ tokenize source, isParameter u.kind → u.start = value.span.stop →
        u.start = d.offset ∧ args'.parametersEnded = false ∨ Settled source front args' d value u) :
    Heard source front args' d := by
  have hon {w : Token} (hw : EndedBy source front args c w) : EndedBy source front args' d w :=
    hw.on hd h.intact.sound fun s hs => (hspans s hs).imp_right And.left
  refine ⟨hintact, Nat.le_trans h.behind_head hd.offset_le, fun s hs => ?_, fun e he => ?_, fun hend => ?_,
    fun value hvalue u hu hkind hstart => ?_⟩
  · rcases hspans s hs with hs | ⟨-, hle, hstop⟩
    · exact ⟨(h.placed s hs).1, Nat.le_trans (h.placed s hs).2 hd.offset_le⟩
    · exact ⟨hle, hstop⟩
  · exact (hnamed e he).elim (h.named e) id
  · rcases hended hend with hend | hend
    · obtain ⟨w, hw⟩ := h.ended hend
      exact ⟨w, hon hw⟩
    · exact hend
  · rcases htouched value hvalue with hold | hnew
    · rcases h.touched value hold u hu hkind hstart with ⟨hoffset, hopen⟩ | ⟨w, hw, hle⟩ | ⟨e, he, hname⟩
      · exact .inr (.inr (hnext u hu hkind hoffset hopen))
      · exact .inr (.inl ⟨w, hon hw, hle⟩)
      · exact .inr (.inr ⟨e, hkept e he, hname⟩)
    · exact hnew u hu hkind hstart

theorem Heard.aside (h : Heard source front args c) (hrest : c.rest = t :: us) (ht : isParameter t.kind = false) :
    Heard source front args (c.pass t us) := by
  refine h.step (h.intact.sound.reaches_pass hrest) (h.intact.intact_pass hrest) (fun s hs => .inl hs)
    (fun e he => he) (fun e he => .inl he) .inl (fun u hu hkind hstart _ => ?_) fun value hvalue => .inl hvalue
  rw [h.intact.eq_of_start_eq hrest hu hstart, ht] at hkind
  cases hkind

theorem Heard.redirection {r : Redirection} (h : Heard source front args c) (hrest : c.rest = t :: us)
    (ht : isParameter t.kind = false) (hd : Stretch source c d r.span)
    (hintact : d.Intact source) (hle : r.span.start ≤ r.span.stop)
    (hstop : r.span.stop ≤ d.offset) :
    Heard source front { args with redirections := args.redirections.push r } d := by
  refine h.step hd.reaches hintact (fun s hs => ?_) (fun e he => he) (fun e he => .inl he) .inl
    (fun u hu hkind hstart _ => ?_) fun value hvalue => .inl hvalue
  · simp only [Arguments.spans, Array.toList_push, List.map_append, ← List.append_assoc] at hs
    rcases List.mem_append.mp hs with hs | hs
    · exact .inl hs
    · obtain rfl := List.mem_singleton.mp hs
      exact .inr ⟨Nat.le_of_eq hd.extent.start_eq.symm, hle, hstop⟩
  · rw [h.intact.eq_of_start_eq hrest hu hstart, ht] at hkind
    cases hkind

theorem mem_spans_push {e : Element} {s : Span}
    (hs : s ∈ Arguments.spans { args with elements := args.elements.push e }) : s ∈ args.spans ∨ s = e.span := by
  simp only [Arguments.spans, Array.toList_push, List.map_append, List.append_assoc, List.mem_append,
    List.map_cons, List.map_nil, List.mem_singleton] at hs ⊢
  tauto

theorem Heard.parameter {name : String} {argument : Option Expression} {s : Span}
    (h : Heard source front args c) (hrest : c.rest = t :: us) (ht : isParameter t.kind)
    (hname : name = t.parameterName) (hd : Stretch source c d s)
    (hintact : d.Intact source) (hle : s.start ≤ s.stop)
    (hstop : s.stop ≤ d.offset) :
    Heard source front { args with elements := args.elements.push (.parameter name argument s) } d := by
  have hstart : s.start = t.start := hd.extent.start_eq.trans (offset_eq_start hrest)
  have hmem := h.intact.entire t (hrest ▸ List.mem_cons_self)
  refine h.step hd.reaches hintact (fun s' hs' => ?_) (fun e he => Array.mem_push.mpr (.inl he))
    (fun e he => ?_) .inl (fun u hu hkind hu' _ => ?_) fun value hvalue => .inl ?_
  · obtain hs' | rfl := mem_spans_push hs'
    · exact .inl hs'
    · exact .inr ⟨Nat.le_of_eq hd.extent.start_eq.symm, hle, hstop⟩
  · obtain he | rfl := Array.mem_push.mp he
    · exact .inl he
    · refine .inr fun name' start hnames => ⟨t, hmem, ht, ?_, hstart.symm.trans hnames.2⟩
      exact hname.symm.trans (Option.some.inj hnames.1)
  · obtain rfl := h.intact.eq_of_start_eq hrest hu hu'
    exact ⟨_, Array.mem_push_self, congrArg some hname, hstart⟩
  · simpa using hvalue

/-- The word that ends the parameters. -/
theorem Heard.mark (h : Heard source front args c) (hrest : c.rest = t :: us) (hword : t.kind = .word)
    (htext : t.text = "--") :
    Heard source front { args with parametersEnded := true } (c.pass t us) := by
  have hoffset := offset_eq_start hrest
  refine h.step (h.intact.sound.reaches_pass hrest) (h.intact.intact_pass hrest) (fun s hs => .inl hs)
    (fun e he => he) (fun e he => .inl he) (fun _ => .inr ⟨t, ?_, hword, htext, ?_, ?_, ?_⟩)
    (fun u hu hkind hstart _ => ?_) fun value hvalue => .inl hvalue
  · exact h.intact.entire t (hrest ▸ List.mem_cons_self)
  · exact hoffset ▸ h.behind_head
  · exact Nat.le_of_eq (lastEnd_pass (by rw [hword]; rfl)).symm
  · exact fun s hs => .inl (hoffset ▸ (h.placed s hs).2)
  · rw [h.intact.eq_of_start_eq hrest hu hstart, hword] at hkind
    cases hkind

theorem Heard.argument {value : Expression} (h : Heard source front args c) (hrest : c.rest = t :: us)
    (ht : isParameter t.kind → args.parametersEnded = true) (hd : Stretch source c d value.span)
    (hintact : d.Intact source)
    (hle : value.span.start ≤ value.span.stop) (hstop : value.span.stop ≤ d.offset) :
    Heard source front { args with elements := args.elements.push (.argument value) } d := by
  have hnewspan : ∀ s ∈ Arguments.spans { args with elements := args.elements.push (.argument value) },
      s ∈ args.spans ∨ c.offset ≤ s.start ∧ s.start ≤ s.stop ∧ s.stop ≤ d.offset := fun s hs => by
    obtain hs | rfl := mem_spans_push hs
    · exact .inl hs
    · exact .inr ⟨Nat.le_of_eq hd.extent.start_eq.symm, hle, hstop⟩
  refine h.step hd.reaches hintact hnewspan (fun e he => Array.mem_push.mpr (.inl he)) (fun e he => ?_) .inl
    (fun u hu hkind hstart hopen => ?_) fun value' hvalue => ?_
  · obtain he | rfl := Array.mem_push.mp he
    · exact .inl he
    · exact .inr fun name start hnames => absurd hnames Element.not_namesAt_argument
  · rw [h.intact.eq_of_start_eq hrest hu hstart] at hkind
    rw [ht hkind] at hopen
    cases hopen
  · obtain hold | hnew := Array.mem_push.mp hvalue
    · exact .inl hold
    · obtain rfl : value' = value := by injection hnew
      refine .inr fun u hu hkind hstart => ?_
      cases hended : args.parametersEnded with
      | false =>
          have hcounts : u.kind.counts := by
            obtain ⟨colon, hcolon⟩ := isParameter_iff.mp hkind
            rw [hcolon]
            rfl
          have hahead := hd.along.offset_le hd.extent.stop_eq hu hcounts (Nat.le_of_eq hstart.symm)
          exact .inl ⟨by omega, rfl⟩
      | true =>
          obtain ⟨w, hw⟩ := h.ended hended
          refine .inr (.inl ⟨w, hw.on hd.reaches h.intact.sound fun s hs => (hnewspan s hs).imp_right And.left, ?_⟩)
          exact Nat.le_trans hw.within (hd.extent.start_eq ▸ h.intact.sound.lastEnd_le)

/-- A call that has been read: each parameter token that touches an argument has named a parameter, or it
could not. -/
structure Done (source : String) (front : Nat) (args : Arguments) (d : Cursor) : Prop
    extends Heard source front args d where
  settled : ∀ value, .argument value ∈ args.elements → ∀ u ∈ tokenize source, isParameter u.kind →
    u.start = value.span.stop → Settled source front args d value u

theorem Heard.done (h : Heard source front args d)
    (hnext : ∀ u ∈ tokenize source, isParameter u.kind → u.start = d.offset → args.parametersEnded = true) :
    Done source front args d := by
  refine ⟨h, fun value hvalue u hu hkind hstart => ?_⟩
  refine (h.touched value hvalue u hu hkind hstart).resolve_left fun ⟨hoffset, hopen⟩ => ?_
  rw [hnext u hu hkind hoffset] at hopen
  cases hopen

theorem parameter_names {g : Groups} (hrest : c.rest = t :: us) :
    Gives (parameter g) c fun e _ => ∃ argument s, e = .parameter t.parameterName argument s := by
  refine (holds_advance_bind hrest).mpr (gives_bind fun argument d => ?_)
  exact gives_spanFrom_bind fun _ => ⟨argument, _, rfl⟩

theorem commandRound_heard (h : Heard source front args c) :
    Gives (commandRound (groups levels) args) c fun
      | .done args => Done source front args
      | .yield args => Heard source front args := by
  have hsafe := groups_safe levels
  have hmakes := groups_makes (I := Along source) levels
  have hread := groups_read levels none
  have hintact : (groups levels).Intact source := groups_intact levels
  have hc := h.intact.toAlong
  rw [commandRound, Gives, holds_get_bind]
  split
  case h_1 hrest =>
    refine h.done fun u hu _ hstart => ?_
    have hlt := start_lt_stop_of_mem hu
    have hle := hc.stop_le_size hu
    rw [offset_of_rest_nil hrest] at hstart
    omega
  case h_2 t us hrest =>
    have hk := kind?_of_rest hrest
    split_ifs with htrivia hend hredirection hparameter hdashes
    · refine (holds_advance_bind hrest).mpr (h.aside hrest ?_)
      revert htrivia
      cases t.kind <;> simp [isParameter, TokenKind.isTrivia]
    · refine h.done fun u hu hkind hstart => ?_
      rw [hc.eq_of_start_eq hrest hu hstart] at hkind
      obtain ⟨colon, hcolon⟩ := isParameter_iff.mp hkind
      rw [hcolon] at hend
      cases hend
    · rw [hredirection] at hk
      refine ((stretch hc (redirection_ends hsafe hc.sound hk) (makes_redirection hmakes)
        redirection_extent).and ((redirection_reads hread hc.sound hk).and
          (intact_redirection hintact c h.intact))).bind fun r d hd => ?_
      obtain ⟨hstretch, hreads, hd, -⟩ := hd
      have hplace := hreads.between hc.sound _ (List.mem_singleton_self _)
      exact h.redirection hrest (by rw [hredirection]; rfl) hstretch hd hplace.2.1 hplace.2.2
    · obtain ⟨colon, hcolon⟩ := isParameter_iff.mp hparameter.1
      refine (((stretch hc (parameter_ends hsafe hc.sound (hcolon ▸ hk)) (makes_parameter hmakes)
        parameter_extent).and (parameter_names hrest)).and ((parameter_reads hread hc.sound hk hparameter.1).and
          (intact_parameter hintact c h.intact))).bind fun e d hd => ?_
      obtain ⟨⟨hstretch, argument, s, rfl⟩, hreads, hd, -⟩ := hd
      have hplace := hreads.between hc.sound _ (List.mem_singleton_self _)
      exact h.parameter hrest hparameter.1 rfl hstretch hd hplace.2.1 hplace.2.2
    · exact (holds_advance_bind hrest).mpr (h.mark hrest hdashes.1 hdashes.2.1)
    · have hended (hkind : isParameter t.kind = true) : args.parametersEnded = true := by
        simpa [hkind] using hparameter
      refine (((argument_ends hsafe hc.sound).and (argument_extent (groups_extents levels))).and
        ((argument_reads hread hc.sound).and (intact_argument hintact c h.intact))).bind fun value? d hd => ?_
      obtain ⟨⟨hends, hextent⟩, hreads, hd, -⟩ := hd
      cases value? with
      | none =>
          obtain rfl := hends
          refine h.done fun u hu hkind hstart => hended ?_
          rwa [← hc.eq_of_start_eq hrest hu hstart]
      | some value =>
          have hplace := hreads.between hc.sound _ (List.mem_singleton_self _)
          exact h.argument hrest hended ⟨hd.toAlong, hends.toReaches, hextent⟩ hd hplace.2.1 hplace.2.2

/-- What holds of a call that has been read. -/
structure Told (source : String) (i : Invocation) : Prop where
  ordered : ∀ e ∈ i.elements, e.span.start ≤ e.span.stop
  named : ∀ name start, i.NamesAt name start →
    ∃ u ∈ tokenize source, isParameter u.kind ∧ u.parameterName = name ∧ u.start = start
  settled : ∀ value, .argument value ∈ i.elements → ∀ u ∈ tokenize source, isParameter u.kind →
    u.start = value.span.stop → (∃ w ∈ tokenize source, i.EndsParameters w ∧ w.stop ≤ value.span.start) ∨
      i.NamesAt u.parameterName u.start

theorem Done.told {i : Invocation} (h : Done source i.head.span.stop args d)
    (helements : i.elements = args.elements.toList)
    (hredirections : i.redirections = args.redirections.toList) (hstop : d.lastEnd ≤ i.span.stop) :
    Told source i := by
  have hspans : i.elements.map Element.span ++ i.redirections.map Redirection.span = args.spans := by
    rw [helements, hredirections]
    rfl
  refine ⟨fun e he => ?_, fun name start hnames => ?_, fun value hvalue u hu hkind hstart => ?_⟩
  · refine (h.placed e.span ?_).1
    rw [← hspans]
    exact List.mem_append_left _ (List.mem_map_of_mem he)
  · obtain ⟨e, he, hname⟩ := hnames
    rw [helements, Array.mem_toList_iff] at he
    exact h.named e he name start hname
  · rw [helements, Array.mem_toList_iff] at hvalue
    rcases h.settled value hvalue u hu hkind hstart with ⟨w, hw, hle⟩ | ⟨e, he, hname⟩
    · exact .inl ⟨w, hw.mem, ⟨hw.word, hw.text, hw.behind_head, Nat.le_trans hw.within hstop,
        hspans ▸ hw.apart⟩, hle⟩
    · exact .inr ⟨e, by rwa [helements, Array.mem_toList_iff], hname⟩

theorem command_told (hc : c.Intact source) {head : Expression} (hhead : head.span.stop ≤ c.offset) (start : Nat)
    (operator : Option CallOperator) :
    Gives (command (groups levels) start operator head) c fun i _ => Told source i := by
  have hfirst : Heard source head.span.stop {} c :=
    ⟨hc, hhead, by simp [Arguments.spans], by simp, nofun, by simp⟩
  refine (gives_repeating (Q := Done source head.span.stop) hfirst fun args d h =>
    (commandRound_heard h).mono fun r e hr => by cases r <;> exact hr).bind fun args d h => ?_
  rw [holds_get_bind]
  exact gives_span_bind fun _ => Done.told (i := ⟨operator, head, _, _, _⟩) h rfl rfl (Nat.le_max_left _ _)

theorem stage_told (hc : c.Along source) :
    Gives (stage (groups levels)) c fun s? _ => ∀ i, s? = some (.command i) → Told source i :=
  stage_commands hc fun hd _ hle _ start => command_told hd hle start _

end Parse

/-- A parameter token that touches an argument of a call, one that ends with a variable or with anything else,
is no part of the argument. It names a parameter of the call, unless a word has ended the parameters in front
of the argument; and only such a token starts a parameter where an argument ends. -/
theorem parameter_touches_argument_iff (source : String) (i : Invocation)
    (hi : i ∈ (parse source).tree.calls) (value : Expression) (hvalue : .argument value ∈ i.elements)
    (name : String) :
    i.NamesAt name value.span.stop ↔
      (∃ u ∈ tokenize source, isParameter u.kind ∧ u.parameterName = name ∧ u.start = value.span.stop) ∧
        ∀ w ∈ tokenize source, i.EndsParameters w → value.span.stop ≤ w.start := by
  obtain ⟨levels, c, d, hc, hrun⟩ := answered_parse (along_ofSource source) _ (Node.mem_calls.mp hi)
  have htold : Told source i := gives_iff.mp (Parse.stage_told hc) _ d hrun i rfl
  have hvalue_le : value.span.start ≤ value.span.stop := htold.ordered _ hvalue
  constructor
  · intro hnames
    refine ⟨htold.named name _ hnames, fun w hw hends => ?_⟩
    -- behind such a word there are arguments only
    refine (hends.apart value.span ?_).resolve_right fun hbehind => ?_
    · exact List.mem_append_left _ (List.mem_map_of_mem hvalue)
    · obtain ⟨e, he, hname⟩ := hnames
      obtain ⟨front, values, hsplit⟩ := splitAt_of_endsParameters hi hw hends
      have he_le := htold.ordered e he
      have hlt := start_lt_stop_of_mem hw
      rw [hsplit.elements_eq] at he
      rcases List.mem_append.mp he with hfront | hvalues
      · have hstop := hsplit.front_stop_le e hfront
        have hstart := hname.2
        omega
      · obtain ⟨v, -, rfl⟩ := List.mem_map.mp hvalues
        exact Element.not_namesAt_argument hname
  · rintro ⟨⟨u, hu, hkind, rfl, hstart⟩, hopen⟩
    rw [← hstart]
    refine (htold.settled value hvalue u hu hkind hstart).resolve_left ?_
    rintro ⟨w, hw, hends, hle⟩
    have hbehind := hopen w hw hends
    have hlt := start_lt_stop_of_mem hw
    omega

theorem parameter_touches_argument_call :
    ∃ i ∈ (parse "Copy-Item $dir-Backup -- $dir-Old").tree.calls, ∃ value, .argument value ∈ i.elements ∧
      (i.NamesAt "Backup" value.span.stop ↔
        (∃ u ∈ tokenize "Copy-Item $dir-Backup -- $dir-Old", isParameter u.kind ∧
            u.parameterName = "Backup" ∧ u.start = value.span.stop) ∧
          ∀ w ∈ tokenize "Copy-Item $dir-Backup -- $dir-Old", i.EndsParameters w → value.span.stop ≤ w.start) := by
  have hexists : ∃ i ∈ (parse "Copy-Item $dir-Backup -- $dir-Old").tree.calls, ∃ e ∈ i.elements,
      e.parameterName? = none := by
    decide +kernel
  obtain ⟨i, hi, e, he, hargument⟩ := hexists
  cases e with
  | parameter => cases hargument
  | argument value => exact ⟨i, hi, value, he, parameter_touches_argument_iff _ i hi value he "Backup"⟩

/-- In `Get-Item $dir-Backup` the argument ends with the variable, and `-Backup`, which touches it, names a
parameter. -/
theorem variable_cut_off_by_parameter :
    ∃ i ∈ (parse "Get-Item $dir-Backup").tree.calls, ∃ t ∈ tokenize "Get-Item $dir-Backup",
      t.kind = .variable ∧ (∃ e ∈ i.elements, e.parameterName? = none ∧ e.span.stop = t.stop) ∧
        i.NamesAt "Backup" t.stop := by
  decide +kernel

end ScriptLint
