import ScriptLint.Proofs.Parser.Intact

/-!
The word `--` behind the name of a command. It is no element of the call, it leaves its mark on the loop that
reads the elements: what is read behind it is an argument, whatever it looks like. So the elements of a call
with such a word are those in front of it and, behind it, arguments only.
-/

namespace ScriptLint

open ScriptLint.Parser Cursor

/-- The word ends the parameters of the call: it stands behind the name of the command, and not inside of
anything that belongs to the call. -/
structure Invocation.EndsParameters (i : Invocation) (t : Token) : Prop where
  word : t.kind = .word
  text : t.text = "--"
  behind_head : i.head.span.stop ≤ t.start
  within : t.stop ≤ i.span.stop
  apart : ∀ s ∈ i.elements.map Element.span ++ i.redirections.map Redirection.span,
    s.stop ≤ t.start ∨ t.stop ≤ s.start

instance (i : Invocation) (t : Token) : Decidable (i.EndsParameters t) :=
  decidable_of_iff (t.kind = .word ∧ t.text = "--" ∧ i.head.span.stop ≤ t.start ∧ t.stop ≤ i.span.stop ∧
      ∀ s ∈ i.elements.map Element.span ++ i.redirections.map Redirection.span,
        s.stop ≤ t.start ∨ t.stop ≤ s.start)
    ⟨fun ⟨hword, htext, hhead, hwithin, hapart⟩ => ⟨hword, htext, hhead, hwithin, hapart⟩,
      fun ⟨hword, htext, hhead, hwithin, hapart⟩ => ⟨hword, htext, hhead, hwithin, hapart⟩⟩

/-- The elements of a call on either side of a word, with arguments only behind it. -/
structure Invocation.SplitAt (i : Invocation) (t : Token) (front : List Element)
    (values : List Expression) : Prop where
  elements_eq : i.elements = front ++ values.map .argument
  front_stop_le : ∀ e ∈ front, e.span.stop ≤ t.start
  le_values_start : ∀ v ∈ values, t.stop ≤ v.span.start

namespace Cursor

variable {source : String} {c d : Cursor} {t u : Token} {us : List Token} {s : Span}

/-- What stands at `s` is read on the way from `c` to `d`. -/
structure Stretch (source : String) (c d : Cursor) (s : Span) : Prop where
  along : d.Along source
  reaches : Reaches c d
  extent : Extent c d s

/-- A word ahead stays ahead, or it stands inside of what is read. -/
theorem Stretch.ahead_or_inside (h : Stretch source c d s) (ht : t ∈ tokenize source)
    (hword : t.kind = .word) (hle : c.offset ≤ t.start) :
    d.offset ≤ t.start ∨ s.start ≤ t.start ∧ t.start < s.stop := by
  rcases Nat.lt_or_ge t.start s.stop with hlt | hge
  · exact .inr ⟨h.extent.start_eq ▸ hle, hlt⟩
  · exact .inl (h.along.offset_le h.extent.stop_eq ht (by rw [hword]; rfl) hge)

end Cursor

namespace Parse

variable {source : String} {c d : Cursor} {t u : Token} {us : List Token} {args : Arguments}
  {levels : Nat}

/-- Where everything stands that has been read behind the name of a command. -/
def Arguments.spans (args : Arguments) : List Span :=
  args.elements.toList.map Element.span ++ args.redirections.toList.map Redirection.span

/-- How the word `t` stands to what has been read of a call up to the cursor `d`. -/
inductive Marked (t : Token) (args : Arguments) (d : Cursor) : Prop
  | ahead (hle : d.offset ≤ t.start) (helements : ∀ e ∈ args.elements.toList, e.span.start ≤ t.start)
  | inside (s : Span) (hs : s ∈ args.spans) (hstart : s.start ≤ t.start) (hstop : t.start < s.stop)
  | behind (front : List Element) (values : List Expression) (hended : args.parametersEnded = true)
    (helements : args.elements.toList = front ++ values.map .argument)
    (hfront : ∀ e ∈ front, e.span.start ≤ t.start) (hvalues : ∀ v ∈ values, t.stop ≤ v.span.start)
    (hle : t.stop ≤ d.offset)

theorem Marked.on (ht : t ∈ tokenize source) (hc : c.Along source) (h : Marked t args c)
    (hrest : c.rest = u :: us) (hne : t ≠ u) : Marked t args (c.pass u us) := by
  cases h with
  | ahead hle helements => exact .ahead (hc.offset_pass_le ht hle hrest hne) helements
  | inside s hs hstart hstop => exact .inside s hs hstart hstop
  | behind front values hended helements hfront hvalues hle =>
      have := (hc.sound.reaches_pass hrest).offset_le
      exact .behind front values hended helements hfront hvalues (by omega)

theorem Marked.redirection {r : Redirection} (ht : t ∈ tokenize source) (hword : t.kind = .word)
    (h : Marked t args c) (hr : Stretch source c d r.span) :
    Marked t { args with redirections := args.redirections.push r } d := by
  cases h with
  | ahead hle helements =>
      rcases hr.ahead_or_inside ht hword hle with hle | ⟨hstart, hstop⟩
      · exact .ahead hle helements
      · exact .inside r.span (by simp [Arguments.spans]) hstart hstop
  | inside s hs hstart hstop =>
      refine .inside s ?_ hstart hstop
      simp only [Arguments.spans, Array.toList_push, List.map_append, ← List.append_assoc]
      exact List.mem_append_left _ hs
  | behind front values hended helements hfront hvalues hle =>
      have := hr.reaches.offset_le
      exact .behind front values hended helements hfront hvalues (by omega)

/-- Behind the word only an argument may follow. -/
theorem Marked.element {e : Element} (ht : t ∈ tokenize source) (hword : t.kind = .word)
    (h : Marked t args c) (he : Stretch source c d e.span)
    (hargument : args.parametersEnded = true → ∃ v, e = .argument v) :
    Marked t { args with elements := args.elements.push e } d := by
  cases h with
  | ahead hle helements =>
      rcases he.ahead_or_inside ht hword hle with hle' | ⟨hstart, hstop⟩
      · refine .ahead hle' ?_
        rw [Array.toList_push]
        exact List.forall_mem_append.mpr ⟨helements, List.forall_mem_singleton.mpr (he.extent.start_eq ▸ hle)⟩
      · exact .inside e.span (by simp [Arguments.spans]) hstart hstop
  | inside s hs hstart hstop =>
      refine .inside s ?_ hstart hstop
      simp only [Arguments.spans, Array.toList_push, List.map_append, List.append_assoc, List.mem_append] at hs ⊢
      exact hs.imp_right .inr
  | behind front values hended helements hfront hvalues hle =>
      obtain ⟨v, rfl⟩ := hargument hended
      have hstart : c.offset = v.span.start := he.extent.start_eq.symm
      have := he.reaches.offset_le
      refine .behind front (values ++ [v]) hended ?_ hfront ?_ (by omega)
      · simp [helements]
      · exact List.forall_mem_append.mpr ⟨hvalues, List.forall_mem_singleton.mpr (by omega)⟩

/-- Where no such word has come by before, the one ahead may be the word. -/
theorem Marked.mark (ht : t ∈ tokenize source) (hc : c.Along source) (h : Marked t args c)
    (hrest : c.rest = u :: us) (hended : args.parametersEnded = false) :
    Marked t { args with parametersEnded := true } (c.pass u us) := by
  cases h with
  | ahead hle helements =>
      by_cases hne : t = u
      · subst hne
        exact .behind args.elements.toList [] rfl (by simp) helements (by simp)
          (Nat.le_of_eq (hc.sound.offset_pass hrest).symm)
      · exact .ahead (hc.offset_pass_le ht hle hrest hne) helements
  | inside s hs hstart hstop => exact .inside s hs hstart hstop
  | behind _ _ hended' =>
      rw [hended] at hended'
      cases hended'

/-- What a step answers stands on the stretch of the way that the step takes. -/
theorem stretch {α : Type} {m : Parser α} {P : α → Prop} {span : α → Span} (hc : c.Along source)
    (hends : Ends m c fun a d => Takes c d (span a)) (hmakes : Makes (Along source) m P)
    (hextent : Gives m c fun a d => Extent c d (span a)) :
    Gives m c fun a d => Stretch source c d (span a) :=
  (hends.and ((hmakes c hc).and hextent)).mono fun _ _ ⟨htakes, ⟨halong, _⟩, hextent⟩ =>
    ⟨halong, htakes.toReaches, hextent⟩

theorem commandRound_marks (ht : t ∈ tokenize source) (hword : t.kind = .word) (hc : c.Along source)
    (h : Marked t args c) :
    Gives (commandRound (groups levels) args) c (Kept fun args d => d.Along source ∧ Marked t args d) := by
  have hsafe := groups_safe levels
  have hmakes := groups_makes (I := Along source) levels
  rw [commandRound, Gives, holds_get_bind]
  split
  case h_1 => exact ⟨hc, h⟩
  case h_2 u us hrest =>
    have hk := kind?_of_rest hrest
    split_ifs with htrivia hend hredirection hparameter hdashes
    · have hne : t ≠ u := by
        rintro rfl
        rw [hword] at htrivia
        cases htrivia
      exact (holds_advance_bind hrest).mpr ⟨hc.pass hrest, h.on ht hc hrest hne⟩
    · exact ⟨hc, h⟩
    · rw [hredirection] at hk
      refine (stretch hc (redirection_ends hsafe hc.sound hk) (makes_redirection hmakes)
        redirection_extent).bind fun r d hr => ?_
      exact ⟨hr.along, h.redirection ht hword hr⟩
    · obtain ⟨colon, hcolon⟩ := isParameter_iff.mp hparameter.1
      rw [hcolon] at hk
      refine (stretch hc (parameter_ends hsafe hc.sound hk) (makes_parameter hmakes)
        parameter_extent).bind fun e d he => ?_
      refine ⟨he.along, h.element ht hword he fun hended => ?_⟩
      simp [hended] at hparameter
    · have hended : args.parametersEnded = false := by simpa using hdashes.2.2
      exact (holds_advance_bind hrest).mpr ⟨hc.pass hrest, h.mark ht hc hrest hended⟩
    · refine ((argument_ends hsafe hc.sound).and ((makes_argument hmakes c hc).and
        (argument_extent (groups_extents levels)))).bind fun value? d h' => ?_
      obtain ⟨hread, ⟨halong, -⟩, hextent⟩ := h'
      cases value? with
      | none =>
          obtain rfl := hread
          exact ⟨hc, h⟩
      | some value =>
          exact ⟨halong, h.element ht hword ⟨halong, hread.toReaches, hextent⟩ fun _ => ⟨value, rfl⟩⟩

/-- The call is split at every word that ends its parameters. -/
def Divided (t : Token) (i : Invocation) : Prop :=
  i.EndsParameters t → ∃ front values, i.SplitAt t front values

/-- A call without the word inside of anything that belongs to it. -/
theorem Marked.divided {i : Invocation} (ht : t ∈ tokenize source) (h : Marked t args d)
    (hd : d.Along source) (helements : i.elements = args.elements.toList)
    (hredirections : i.redirections = args.redirections.toList)
    (hstop : i.span.stop ≤ max d.lastEnd i.head.span.stop) : Divided t i := by
  intro hi
  have hlt := start_lt_stop_of_mem ht
  have hapart := hi.apart
  rw [helements, hredirections] at hapart
  cases h with
  | ahead hle _ =>
      have hlast := hd.sound.lastEnd_le
      have hwithin := hi.within
      have hhead := hi.behind_head
      omega
  | inside s hs hstart hstop =>
      have := hapart s hs
      omega
  | behind front values _ hsplit hfront hvalues _ =>
      refine ⟨front, values, helements.trans hsplit, fun e he => ?_, hvalues⟩
      have hmem : e.span ∈ args.spans := by
        refine List.mem_append_left _ (List.mem_map_of_mem ?_)
        rw [hsplit]
        exact List.mem_append_left _ he
      have := hapart _ hmem
      have := hfront e he
      omega

theorem command_divided (ht : t ∈ tokenize source) (hword : t.kind = .word) (hc : c.Along source)
    {head : Expression} (hhead : head.span.stop ≤ t.start → c.offset ≤ t.start) (start : Nat)
    (operator : Option CallOperator) :
    Gives (command (groups levels) start operator head) c fun i _ => Divided t i := by
  by_cases hle : c.offset ≤ t.start
  · have hahead : Marked t {} c := .ahead hle (by simp)
    refine (repeating_keeps (I := fun args d => d.Along source ∧ Marked t args d) ⟨hc, hahead⟩
      fun args d hd => commandRound_marks ht hword hd.1 hd.2).bind fun args d ⟨hd, hmarked⟩ => ?_
    rw [holds_get_bind]
    exact gives_span_bind fun _ => hmarked.divided ht hd rfl rfl (Nat.le_refl _)
  · refine gives_bind fun args d => ?_
    rw [Gives, holds_get_bind]
    exact gives_span_bind fun _ hi => absurd (hhead hi.behind_head) hle

theorem stage_divided (ht : t ∈ tokenize source) (hword : t.kind = .word) (hc : c.Along source) :
    Gives (stage (groups levels)) c fun s? _ => ∀ i, s? = some (.command i) → Divided t i := by
  refine stage_commands hc fun hd hextent _ _ start => command_divided ht hword hd.toAlong ?_ start _
  exact hd.offset_le hextent.stop_eq ht (by rw [hword]; rfl)

end Parse

/-- Behind a word that ends the parameters of a call there are arguments only, and in front of it there is
all the rest of the call. -/
theorem splitAt_of_endsParameters {source : String} {i : Invocation} {t : Token}
    (hi : i ∈ (parse source).tree.calls) (ht : t ∈ tokenize source) (h : i.EndsParameters t) :
    ∃ front values, i.SplitAt t front values := by
  obtain ⟨levels, c, d, hc, hrun⟩ := answered_parse (along_ofSource source) _ (Node.mem_calls.mp hi)
  exact gives_iff.mp (Parse.stage_divided ht h.word hc) _ d hrun i rfl h

end ScriptLint
