import ScriptLint.Proofs.Parser.Reading.Basic

/-!
Where the parts stand that have been read. Each lies on its own stretch of the way: it starts where what
is passed in front of it ends, and it stops between the last token that counts and the place where the
next part may start. So parts that are read one behind the other are disjoint and in the order of the
script, whatever else is wrong with the script.
-/

namespace ScriptLint

theorem Token.span_operand? {t : Token} {e : Expression} (h : t.operand? = some e) :
    e.span = t.span := by
  unfold operand? at h
  split at h <;> cases h <;> rfl

namespace Reads

open Cursor

variable {k : Level} {b c d : Cursor} {p : Part} {ps : List Part}

/-- A part stands on the stretch of the way on which it has been read. -/
theorem between (h : Reads k b ps d) (hb : b.Sound) :
    ∀ p ∈ ps, b.offset ≤ p.span.start ∧ p.span.start ≤ p.span.stop ∧ p.span.stop ≤ d.offset := by
  induction h with
  | nil | passing => simp
  | append h h' ih ih' =>
      have hfirst := h.reaches hb
      have hle := hfirst.offset_le
      have hle' := (h'.reaches hfirst.sound).offset_le
      intro p hp
      rcases List.mem_append.mp hp with hp | hp
      · have := ih hb p hp
        omega
      · have := ih' hfirst.sound p hp
        omega
  | operand hrest ht =>
      obtain ⟨hstart, hlt, hstop⟩ := hb.bounds hrest
      simp only [List.forall_mem_singleton, Part.span, Node.span, Token.span_operand? ht, Token.span]
      omega
  | unclosed hrest | comment hrest =>
      obtain ⟨hstart, hlt, hstop⟩ := hb.bounds hrest
      refine List.forall_mem_singleton.mpr ⟨Nat.le_of_eq hstart, Nat.le_of_lt hlt, ?_⟩
      exact Nat.le_of_eq hstop.symm
  | joint h hp ih =>
      have hlast := (h.reaches hb).sound.lastEnd_le
      refine List.forall_mem_singleton.mpr ⟨Nat.le_of_eq hp.start_eq.symm, hp.start_le_stop, ?_⟩
      rcases hp.stop_eq with hstop | ⟨q, hq, hstop⟩
      · omega
      · have := ih hb q hq
        omega
  | group hrest hn h _ hcloser ih =>
      obtain ⟨hstart, hlt, hstop⟩ := hb.bounds hrest
      have hinside := h.reaches (hb.inside hrest)
      have hle := hinside.offset_le
      obtain ⟨hstart', hlt', hstop'⟩ := hinside.sound.bounds hcloser
      simp only [List.forall_mem_singleton, Part.span, hn.span_eq, offset_outside, offset_inside] at *
      omega
  | cutOff hrest hn h _ hend ih =>
      obtain ⟨hstart, hlt, hstop⟩ := hb.bounds hrest
      have hle := (h.reaches (hb.inside hrest)).offset_le
      have hsize := offset_of_rest_nil hend
      simp only [List.forall_mem_singleton, Part.span, hn.span_eq, offset_report, offset_outside,
        offset_inside] at *
      omega
  | tooDeep hrest _ _ hspan hskips =>
      obtain ⟨hstart, hlt, hstop⟩ := hb.bounds hrest
      have hle := (hskips.reaches (hb.reaches_pass hrest).sound).offset_le
      simp only [List.forall_mem_singleton, Part.span, hspan, offset_report]
      omega
  | bodiless => simp [Part.span, Node.span, Span.empty]

/-- Where no byte has been passed, a token of the same kind is ahead. -/
theorem kind?_eq (h : Reads k b ps d) (hb : b.Sound) (hd : d.offset = b.offset) :
    d.kind? = b.kind? := by
  induction h with
  | nil | bodiless => rfl
  | passing hpassing =>
      cases hpassing with
      | aside hrest | stray hrest => exact absurd hd (hb.offset_lt_pass hrest).ne'
      | leave hrest =>
          have hstop := hb.offset_leave hrest
          have := hb.bounds hrest
          omega
      | cut hrest hword => rw [kind?_of_rest hrest, hword]; rfl
      | lacking => rfl
  | append h h' ih ih' =>
      have hfirst := h.reaches hb
      have hle := hfirst.offset_le
      have hle' := (h'.reaches hfirst.sound).offset_le
      rw [ih' hfirst.sound (by omega), ih hb (by omega)]
  | operand hrest | comment hrest | unclosed hrest =>
      exact absurd hd (hb.offset_lt_pass hrest).ne'
  | joint _ _ ih => exact ih hb hd
  | group hrest _ h _ hcloser =>
      have hinside := h.reaches (hb.inside hrest)
      have hle := hinside.offset_le
      have hlt := hb.offset_lt_pass hrest
      have hlt' := hinside.sound.offset_lt_pass hcloser
      simp only [offset_inside, offset_outside] at *
      omega
  | cutOff hrest _ h =>
      have hle := (h.reaches (hb.inside hrest)).offset_le
      exact absurd hd (Nat.lt_of_lt_of_le (hb.offset_lt_pass hrest) hle).ne'
  | tooDeep hrest _ _ _ hskips =>
      have hle := (hskips.reaches (hb.reaches_pass hrest).sound).offset_le
      exact absurd hd (Nat.lt_of_lt_of_le (hb.offset_lt_pass hrest) hle).ne'

/-- The first part of several is read by itself. In front of it something is passed, then it starts at
once, and no token behind it counts that it does not reach. -/
theorem uncons (h : Reads k b (p :: ps) d) (hb : b.Sound) :
    ∃ a c, Reads k b [] a ∧ Reads k a [p] c ∧ Reads k c ps d ∧ p.span.start = a.offset ∧
      c.lastEnd ≤ p.span.stop := by
  generalize hqs : p :: ps = qs at h
  induction h generalizing p ps with
  | nil | passing => cases hqs
  | append h h' ih ih' =>
      rcases List.cons_eq_append_iff.mp hqs with ⟨rfl, rfl⟩ | ⟨qs, rfl, rfl⟩
      · obtain ⟨a, c, hfront, hpart, hbehind, hplace⟩ := ih' (h.reaches hb).sound rfl
        exact ⟨a, c, h.append hfront, hpart, hbehind, hplace⟩
      · obtain ⟨a, c, hfront, hpart, hbehind, hplace⟩ := ih hb rfl
        exact ⟨a, c, hfront, hpart, hbehind.append h', hplace⟩
  | operand hrest ht =>
      cases hqs
      refine ⟨_, _, .nil, .operand hrest ht, .nil, ?_⟩
      rw [Part.span, Node.span, Token.span_operand? ht]
      exact ⟨(offset_eq_start hrest).symm, hb.lastEnd_pass_le hrest⟩
  | unclosed hrest ht =>
      cases hqs
      refine ⟨_, _, .nil, .unclosed hrest ht, .nil, (offset_eq_start hrest).symm, ?_⟩
      exact hb.lastEnd_pass_le hrest
  | comment hrest ht =>
      cases hqs
      refine ⟨_, _, .nil, .comment hrest ht, .nil, (offset_eq_start hrest).symm, ?_⟩
      exact hb.lastEnd_pass_le hrest
  | joint h hp =>
      cases hqs
      exact ⟨_, _, .nil, .joint h hp, .nil, hp.start_eq, hp.lastEnd_le⟩
  | group hrest hn h hholds hcloser =>
      cases hqs
      refine ⟨_, _, .nil, .group hrest hn h hholds hcloser, .nil, ?_⟩
      rw [Part.span, hn.span_eq]
      exact ⟨(offset_eq_start hrest).symm,
        (h.reaches (hb.inside hrest)).sound.lastEnd_pass_le hcloser⟩
  | cutOff hrest hn h hholds hend =>
      cases hqs
      refine ⟨_, _, .nil, .cutOff hrest hn h hholds hend, .nil, ?_⟩
      rw [Part.span, hn.span_eq]
      have hlast := (h.reaches (hb.inside hrest)).sound.lastEnd_le
      rw [offset_of_rest_nil hend] at hlast
      exact ⟨(offset_eq_start hrest).symm, hlast⟩
  | tooDeep hrest hn hchildren hspan hskips hgroup =>
      cases hqs
      refine ⟨_, _, .nil, .tooDeep hrest hn hchildren hspan hskips hgroup, .nil, ?_⟩
      have hreaches := hskips.reaches (hb.reaches_pass hrest).sound
      rw [Part.span, hspan]
      exact ⟨(offset_eq_start hrest).symm, hreaches.sound.lastEnd_le⟩
  | bodiless =>
      cases hqs
      exact ⟨_, _, .nil, .bodiless, .nil, rfl, hb.lastEnd_le⟩

/-- Parts that are read one behind the other are disjoint and in the order of the script. -/
theorem pairwise (h : Reads k b ps d) (hb : b.Sound) :
    ps.Pairwise fun p q => p.span.stop ≤ q.span.start := by
  induction ps generalizing b with
  | nil => exact .nil
  | cons p ps ih =>
      obtain ⟨a, c, hfront, hpart, hbehind, -⟩ := h.uncons hb
      have ha := (hfront.reaches hb).sound
      have hc := (hpart.reaches ha).sound
      refine .cons (fun q hq => ?_) (ih hbehind hc)
      have hstop := hpart.between ha p List.mem_cons_self
      have hstart := hbehind.between hc q hq
      omega

/-- What is passed in front of the first part can be told apart. -/
theorem trim (h : Reads k b (p :: ps) d) (hb : b.Sound) :
    ∃ a, Reads k b [] a ∧ Reads k a (p :: ps) d ∧ p.span.start = a.offset := by
  obtain ⟨a, c, hfront, hpart, hbehind, hstart, -⟩ := h.uncons hb
  exact ⟨a, hfront, hpart.append hbehind, hstart⟩

/-- So can what is passed behind the last one, which counts for nothing in front of where it stops. -/
theorem last (h : Reads k b (ps ++ [p]) d) (hb : b.Sound) :
    ∃ c, Reads k b (ps ++ [p]) c ∧ Reads k c [] d ∧ c.lastEnd ≤ p.span.stop := by
  induction ps generalizing b with
  | nil =>
      obtain ⟨a, c, hfront, hpart, hbehind, -, hlast⟩ := h.uncons hb
      exact ⟨c, hfront.append hpart, hbehind, hlast⟩
  | cons q ps ih =>
      obtain ⟨a, c, hfront, hpart, hbehind, -⟩ := h.uncons hb
      have hc := (hpart.reaches (hfront.reaches hb).sound).sound
      obtain ⟨e, hps, hend, hlast⟩ := ih hbehind hc
      exact ⟨e, (hfront.append hpart).append hps, hend, hlast⟩

/-- A part that starts where the way does and stops with the last part that it is made of. -/
theorem ofLast {q : Part} (h : Reads k b (ps ++ [q]) d) (hb : b.Sound) (hjoint : p.isJoint)
    (hrows : p.rows = [ps ++ [q]]) (hspan : p.span = ⟨b.offset, q.span.stop⟩)
    (hstops : ∀ c, p.Stops c) (hfits : ∀ b qs c, p.Fits b qs c) : Reads k b [p] d := by
  obtain ⟨c, hqs, hbehind, hlast⟩ := h.last hb
  have hmem : q ∈ ps ++ [q] := List.mem_append_right _ List.mem_cons_self
  have hq := hqs.between hb q hmem
  refine on (.joint hqs ⟨hjoint, Part.holds_of_rows_eq hrows, ?_, ?_, ?_, .inr ⟨q, hmem, ?_⟩,
    hstops _, hfits _ _ _⟩) hbehind
  · rw [hspan]
  · rw [hspan]
    exact Nat.le_trans hq.1 hq.2.1
  · rw [hspan]
    exact hlast
  · rw [hspan]

/-- A part that is another one and nothing else. -/
theorem ofOne {q : Part} (h : Reads k b [q] d) (hb : b.Sound) (hjoint : p.isJoint)
    (hrows : p.rows = [[q]]) (hspan : p.span = q.span) (hstops : ∀ c, p.Stops c)
    (hfits : ∀ b qs c, p.Fits b qs c) : Reads k b [p] d := by
  obtain ⟨a, hfront, hq, hstart⟩ := h.trim hb
  have hlast : Reads k a ([] ++ [q]) d := hq
  refine hfront.append (hlast.ofLast (hfront.reaches hb).sound hjoint hrows ?_ hstops hfits)
  rw [hspan, ← hstart]

/-- A part that starts where the way does and stops with the last token that counts. -/
theorem ofWay (h : Reads k b ps d) (hjoint : p.isJoint) (hrows : p.rows = [ps])
    (hspan : p.span = ⟨b.offset, d.lastEnd⟩) (hle : b.offset ≤ d.lastEnd)
    (hstops : p.span.stop = d.lastEnd → p.Stops d) (hfits : p.Fits b ps d) : Reads k b [p] d := by
  refine .joint h ⟨hjoint, Part.holds_of_rows_eq hrows, ?_, ?_, ?_, ?_, hstops (by rw [hspan]), hfits⟩
  · rw [hspan]
  · rw [hspan]
    exact hle
  · rw [hspan]
  · rw [hspan]
    exact .inl rfl

/-- A part that starts with the first part that it is made of and stops with the last token that counts. -/
theorem ofFirst {q : Part} (h : Reads k b (q :: ps) d) (hb : b.Sound) (hjoint : p.isJoint)
    (hrows : p.rows = [q :: ps]) (hspan : p.span = ⟨q.span.start, d.lastEnd⟩)
    (hle : q.span.start ≤ d.lastEnd) (hstops : p.span.stop = d.lastEnd → p.Stops d)
    (hfits : ∀ b qs c, p.Fits b qs c) : Reads k b [p] d := by
  obtain ⟨a, hfront, hqs, hstart⟩ := h.trim hb
  rw [hstart] at hspan hle
  exact hfront.append (hqs.ofWay hjoint hrows hspan hle hstops (hfits _ _ _))

end Reads

end ScriptLint
