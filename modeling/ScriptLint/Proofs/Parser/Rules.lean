import ScriptLint.Syntax.Cursor

/-!
Rules for runs of a parse. `Holds broken m c Q` says of the run of `m` from `c` that `Q` is true of what it
answers and of where it stands then; a run that breaks off counts as `broken` says. Two readings are in
use. `Ends` allows no breach, so it is the form in which a step is shown to be safe. `Gives` allows all of
them, and every check that a step makes may be assumed to have passed: that is the form for what a parse
finds, once it is known to be safe.

The rules compose along the `do` block. A loop needs a fact that every round keeps; that the loop also ends
is asked for in `Ends` only, where each round must leave fewer bytes ahead.
-/

namespace ScriptLint.Parser

variable {α β : Type} {broken : Prop} {c : Cursor}

def Holds (broken : Prop) (m : Parser α) (c : Cursor) (Q : α → Cursor → Prop) : Prop :=
  match m c with
  | .ok (a, d) => Q a d
  | .error _ => broken

abbrev Ends (m : Parser α) (c : Cursor) (Q : α → Cursor → Prop) : Prop := Holds False m c Q

abbrev Gives (m : Parser α) (c : Cursor) (Q : α → Cursor → Prop) : Prop := Holds True m c Q

theorem ends_iff {m : Parser α} {Q : α → Cursor → Prop} :
    Ends m c Q ↔ ∃ a d, m c = .ok (a, d) ∧ Q a d := by
  unfold Ends Holds
  split
  case h_1 a d h =>
    constructor
    · exact fun hQ => ⟨a, d, h, hQ⟩
    · rintro ⟨a', d', h', hQ⟩
      obtain ⟨rfl, rfl⟩ := Prod.mk.inj (Except.ok.inj (h.symm.trans h'))
      exact hQ
  case h_2 h => simp [h]

theorem gives_iff {m : Parser α} {Q : α → Cursor → Prop} :
    Gives m c Q ↔ ∀ a d, m c = .ok (a, d) → Q a d := by
  unfold Gives Holds
  split
  case h_1 a d h => simp [h]
  case h_2 h => simp [h]

theorem Holds.mono {m : Parser α} {Q R : α → Cursor → Prop} (h : Holds broken m c Q)
    (hQR : ∀ a d, Q a d → R a d) : Holds broken m c R := by
  unfold Holds at *
  split <;> simp_all

theorem Holds.and {m : Parser α} {Q R : α → Cursor → Prop} (h : Holds broken m c Q)
    (hR : Holds broken m c R) : Holds broken m c fun a d => Q a d ∧ R a d := by
  unfold Holds at *
  cases hm : m c with
  | ok p =>
      rw [hm] at h hR
      exact ⟨h, hR⟩
  | error e =>
      rw [hm] at h
      exact h

/-- What a safe run is known to do holds of it in every reading. -/
theorem Ends.and {m : Parser α} {Q R : α → Cursor → Prop} (h : Ends m c Q)
    (hR : Holds broken m c R) : Holds broken m c fun a d => Q a d ∧ R a d := by
  obtain ⟨a, d, hm, hQ⟩ := ends_iff.mp h
  unfold Holds at *
  rw [hm] at hR ⊢
  exact ⟨hQ, hR⟩

theorem bind_run (m : Parser α) (f : α → Parser β) (c : Cursor) :
    (m >>= f) c = (m c).bind fun p => f p.1 p.2 := rfl

theorem get_bind_run (f : Cursor → Parser β) (c : Cursor) : (get >>= f) c = f c c := rfl

theorem skip_bind_run (p : TokenKind → Bool) (f : Unit → Parser β) (c : Cursor) :
    (skip p >>= f) c = f () (c.skip p) := rfl

theorem skipBlanks_bind_run (f : Unit → Parser β) (c : Cursor) :
    (skipBlanks >>= f) c = f () c.skipBlanks := rfl

theorem Holds.bind {m : Parser α} {f : α → Parser β} {Q : α → Cursor → Prop}
    {R : β → Cursor → Prop} (h : Holds broken m c Q)
    (hf : ∀ a d, Q a d → Holds broken (f a) d R) : Holds broken (m >>= f) c R := by
  unfold Holds at *
  rw [bind_run]
  cases hm : m c with
  | ok p =>
      rw [hm] at h
      exact hf p.1 p.2 h
  | error e =>
      rw [hm] at h
      exact h

@[simp] theorem holds_pure {a : α} {Q : α → Cursor → Prop} :
    Holds broken (pure a : Parser α) c Q ↔ Q a c := Iff.rfl

@[simp] theorem holds_get_bind {f : Cursor → Parser β} {Q : β → Cursor → Prop} :
    Holds broken (get >>= f) c Q ↔ Holds broken (f c) c Q := Iff.rfl

@[simp] theorem holds_set_bind {d : Cursor} {f : Unit → Parser β} {Q : β → Cursor → Prop} :
    Holds broken (set d >>= f) c Q ↔ Holds broken (f ()) d Q := Iff.rfl

@[simp] theorem holds_modify_bind {step : Cursor → Cursor} {f : Unit → Parser β}
    {Q : β → Cursor → Prop} :
    Holds broken (modify step >>= f) c Q ↔ Holds broken (f ()) (step c) Q := Iff.rfl

@[simp] theorem holds_skip_bind {p : TokenKind → Bool} {f : Unit → Parser β}
    {Q : β → Cursor → Prop} :
    Holds broken (skip p >>= f) c Q ↔ Holds broken (f ()) (c.skip p) Q := Iff.rfl

@[simp] theorem holds_skipBlanks_bind {f : Unit → Parser β} {Q : β → Cursor → Prop} :
    Holds broken (skipBlanks >>= f) c Q ↔ Holds broken (f ()) c.skipBlanks Q := Iff.rfl

@[simp] theorem holds_skipSpacing_bind {f : Unit → Parser β} {Q : β → Cursor → Prop} :
    Holds broken (skipSpacing >>= f) c Q ↔ Holds broken (f ()) c.skipSpacing Q := Iff.rfl

@[simp] theorem holds_report_bind {problem : Problem} {s : Span} {f : Unit → Parser β}
    {Q : β → Cursor → Prop} :
    Holds broken (report problem s >>= f) c Q ↔ Holds broken (f ()) (c.report problem s) Q :=
  Iff.rfl

theorem holds_bind_of_ok {m : Parser α} {f : α → Parser β} {a : α} {d : Cursor}
    {Q : β → Cursor → Prop} (h : m c = .ok (a, d)) :
    Holds broken (m >>= f) c Q ↔ Holds broken (f a) d Q := by
  unfold Holds
  rw [bind_run, h]
  rfl

section

variable {t : Token} {ts : List Token} {n start stop : Nat}

theorem current_of_rest (h : c.rest = t :: ts) : current c = .ok (t, c) := by
  unfold current
  rw [h]

theorem advance_of_rest (h : c.rest = t :: ts) : advance c = .ok (t, c.pass t ts) := by
  unfold advance
  rw [h]

theorem cut_of_rest (h : c.rest = t :: ts) (hn : String.Pos.Raw.IsValid t.text ⟨n⟩) :
    cut n c = .ok ((), { c with rest := (t.cut n).1 :: (t.cut n).2 :: ts }) := by
  unfold cut
  rw [h]
  exact if_pos (String.Pos.Raw.isValid_eq_true_iff.mpr hn)

/-- A token is cut behind any characters that it starts with. -/
theorem cut_of_append (h : c.rest = t :: ts) {head tail : String} (htext : t.text = head ++ tail) :
    cut head.utf8ByteSize c =
      .ok ((), { c with rest := (t.cut head.utf8ByteSize).1 :: (t.cut head.utf8ByteSize).2 :: ts }) :=
  cut_of_rest h (String.Pos.Raw.isValid_iff_exists_append.mpr ⟨head, tail, htext, rfl⟩)

theorem span_of_le (h : start ≤ stop) : span start stop c = .ok (⟨start, stop⟩, c) := by
  unfold span
  rw [Span.between_eq_ok_iff.mpr ⟨h, rfl⟩]

theorem holds_current_bind {f : Token → Parser β} {Q : β → Cursor → Prop}
    (h : c.rest = t :: ts) : Holds broken (current >>= f) c Q ↔ Holds broken (f t) c Q :=
  holds_bind_of_ok (current_of_rest h)

theorem holds_advance {Q : Token → Cursor → Prop} (h : c.rest = t :: ts) :
    Holds broken advance c Q ↔ Q t (c.pass t ts) := by
  rw [Holds, advance_of_rest h]

theorem holds_advance_bind {f : Token → Parser β} {Q : β → Cursor → Prop}
    (h : c.rest = t :: ts) :
    Holds broken (advance >>= f) c Q ↔ Holds broken (f t) (c.pass t ts) Q :=
  holds_bind_of_ok (advance_of_rest h)

theorem holds_cut {Q : Unit → Cursor → Prop} (h : c.rest = t :: ts)
    (hn : String.Pos.Raw.IsValid t.text ⟨n⟩) : Holds broken (cut n) c Q ↔
      Q () { c with rest := (t.cut n).1 :: (t.cut n).2 :: ts } := by
  rw [Holds, cut_of_rest h hn]

theorem holds_span_bind {f : Span → Parser β} {Q : β → Cursor → Prop} (h : start ≤ stop) :
    Holds broken (span start stop >>= f) c Q ↔ Holds broken (f ⟨start, stop⟩) c Q :=
  holds_bind_of_ok (span_of_le h)

theorem holds_spanFrom_bind {f : Span → Parser β} {Q : β → Cursor → Prop}
    (h : start ≤ c.lastEnd) :
    Holds broken (spanFrom start >>= f) c Q ↔ Holds broken (f ⟨start, c.lastEnd⟩) c Q :=
  holds_bind_of_ok (span_of_le h)

end

theorem holds_nested {m : Parser α} {Q : α → Cursor → Prop}
    (h : Holds broken m { c with depth := c.depth + 1 } fun a d =>
      d.depth = c.depth + 1 ∧ Q a { d with depth := c.depth }) :
    Holds broken (nested m) c Q := by
  refine Holds.bind (Q := fun _ d => d = { c with depth := c.depth + 1 }) rfl ?_
  rintro _ _ rfl
  refine h.bind fun a d ⟨hdepth, hQ⟩ => ?_
  refine Holds.bind (Q := fun _ e => e = { d with depth := c.depth }) ?_ ?_
  · unfold Holds leave
    rw [hdepth]
  · rintro _ _ rfl
    exact hQ

/-- Nothing has to be known of a step behind which something holds in any case. -/
theorem gives_bind {m : Parser α} {f : α → Parser β} {Q : β → Cursor → Prop}
    (h : ∀ a d, Gives (f a) d Q) : Gives (m >>= f) c Q :=
  Holds.bind (gives_iff.mpr fun _ _ _ => trivial) fun a d (_ : True) => h a d

theorem gives_of_error {m : Parser α} {e : Breach} {Q : α → Cursor → Prop} (h : m c = .error e) :
    Gives m c Q := by
  rw [Gives, Holds, h]
  trivial

theorem gives_bind_of_error {m : Parser α} {f : α → Parser β} {e : Breach}
    {Q : β → Cursor → Prop} (h : m c = .error e) : Gives (m >>= f) c Q := by
  rw [Gives, Holds, bind_run, h]
  trivial

theorem gives_current_bind {f : Token → Parser β} {Q : β → Cursor → Prop}
    (h : ∀ t ts, c.rest = t :: ts → Gives (f t) c Q) : Gives (current >>= f) c Q := by
  cases hrest : c.rest with
  | nil =>
      have hnone : current c = .error .noToken := by rw [current, hrest]
      exact gives_bind_of_error hnone
  | cons t ts =>
      rw [Gives, holds_current_bind hrest]
      exact h t ts hrest

theorem gives_advance_bind {f : Token → Parser β} {Q : β → Cursor → Prop}
    (h : ∀ t ts, c.rest = t :: ts → Gives (f t) (c.pass t ts) Q) : Gives (advance >>= f) c Q := by
  cases hrest : c.rest with
  | nil =>
      have hnone : advance c = .error .noToken := by rw [advance, hrest]
      exact gives_bind_of_error hnone
  | cons t ts => exact (holds_advance_bind hrest).mpr (h t ts hrest)

theorem gives_cut {n : Nat} {Q : Unit → Cursor → Prop}
    (h : ∀ t ts, c.rest = t :: ts → String.Pos.Raw.IsValid t.text ⟨n⟩ →
      Q () { c with rest := (t.cut n).1 :: (t.cut n).2 :: ts }) :
    Gives (cut n) c Q := by
  cases hrest : c.rest with
  | nil =>
      have hnone : cut n c = .error .noToken := by rw [cut, hrest]
      exact gives_of_error hnone
  | cons t ts =>
      by_cases hn : String.Pos.Raw.IsValid t.text ⟨n⟩
      · exact (holds_cut hrest hn).mpr (h t ts hrest hn)
      · have hsplit : cut n c = .error (.splitCharacter t n) := by
          rw [cut, hrest]
          exact if_neg (mt String.Pos.Raw.isValid_eq_true_iff.mp hn)
        exact gives_of_error hsplit

theorem gives_span_bind {start stop : Nat} {f : Span → Parser β} {Q : β → Cursor → Prop}
    (h : start ≤ stop → Gives (f ⟨start, stop⟩) c Q) : Gives (span start stop >>= f) c Q := by
  by_cases hle : start ≤ stop
  · exact (holds_span_bind hle).mpr (h hle)
  · have hreversed : span start stop c = .error (.reversed ⟨start, stop⟩) := by
      rw [span, Span.between, if_neg hle]
    exact gives_bind_of_error hreversed

theorem gives_spanFrom_bind {start : Nat} {f : Span → Parser β} {Q : β → Cursor → Prop}
    (h : start ≤ c.lastEnd → Gives (f ⟨start, c.lastEnd⟩) c Q) :
    Gives (spanFrom start >>= f) c Q :=
  gives_span_bind h

theorem gives_nested {m : Parser α} {Q : α → Cursor → Prop}
    (h : Gives m { c with depth := c.depth + 1 } fun a d =>
      ∀ n, d.depth = n + 1 → Q a { d with depth := n }) : Gives (nested m) c Q := by
  refine Holds.bind (Q := fun _ d => d = { c with depth := c.depth + 1 }) rfl ?_
  rintro _ _ rfl
  refine h.bind fun a d hQ => ?_
  refine Holds.bind (Q := fun _ e => ∃ n, d.depth = n + 1 ∧ e = { d with depth := n }) ?_ ?_
  · unfold Holds leave
    cases hdepth : d.depth with
    | zero => trivial
    | succ n => exact ⟨n, rfl, rfl⟩
  · rintro _ _ ⟨n, hdepth, rfl⟩
    exact hQ n hdepth

/-- A loop keeps what each of its rounds keeps. -/
theorem gives_repeating {body : α → Parser (ForInStep α)} {a : α} {I Q : α → Cursor → Prop}
    (h : I a c) (hbody : ∀ a d, I a d → Gives (body a) d fun
      | .done b => Q b
      | .yield b => I b) : Gives (repeating body a) c Q := by
  have hrounds (n : Nat) : ∀ a d, I a d → Gives (rounds body n a) d Q := by
    induction n with
    | zero => exact fun _ _ _ => trivial
    | succ n ih =>
        intro a d hI
        refine (hbody a d hI).bind fun r e hr => ?_
        cases r with
        | done b => exact hr
        | yield b => exact ih b e hr
  exact hrounds _ a c h

/-- A loop ends if its rounds do and each that is not the last leaves fewer bytes ahead. -/
theorem ends_rounds {body : α → Parser (ForInStep α)} {a : α} {I Q : α → Cursor → Prop} {n : Nat}
    (h : I a c) (hn : c.remaining < n) (hbody : ∀ a d, I a d → Ends (body a) d fun
      | .done b => Q b
      | .yield b => fun e => I b e ∧ e.remaining < d.remaining) : Ends (rounds body n a) c Q := by
  induction n generalizing a c with
  | zero => exact absurd hn (Nat.not_lt_zero _)
  | succ n ih =>
      refine (hbody a c h).bind fun r e hr => ?_
      cases r with
      | done b => exact hr
      | yield b => exact ih hr.1 (by omega)

theorem ends_repeating {body : α → Parser (ForInStep α)} {a : α} {I Q : α → Cursor → Prop}
    (h : I a c) (hbody : ∀ a d, I a d → Ends (body a) d fun
      | .done b => Q b
      | .yield b => fun e => I b e ∧ e.remaining < d.remaining) : Ends (repeating body a) c Q :=
  ends_rounds h (Nat.lt_succ_self _) hbody

/-- A loop that ends does so in the same way if it is allowed more rounds. -/
theorem rounds_of_le {body : α → Parser (ForInStep α)} {a : α} {n m : Nat} {x : α × Cursor}
    (h : rounds body n a c = .ok x) (hle : n ≤ m) : rounds body m a c = .ok x := by
  induction n generalizing m a c with
  | zero => cases h
  | succ n ih =>
      obtain ⟨m, rfl⟩ := Nat.exists_eq_add_of_le' hle
      rw [← Nat.add_assoc, rounds, bind_run]
      rw [rounds, bind_run] at h
      cases hround : body a c with
      | error e =>
          rw [hround] at h
          cases h
      | ok p =>
          obtain ⟨r, d⟩ := p
          rw [hround] at h
          cases r with
          | done b => exact h
          | yield b => exact ih h (Nat.le_of_succ_le_succ hle)

end ScriptLint.Parser

namespace ScriptLint.Parse

open ScriptLint.Parser

variable {α : Type} {c : Cursor}

/-- What a round of a loop answers, be it the last one or not. -/
def Kept (I : α → Cursor → Prop) : ForInStep α → Cursor → Prop
  | .done a | .yield a => I a

theorem repeating_keeps {body : α → Parser (ForInStep α)} {a : α} {I : α → Cursor → Prop}
    (h : I a c) (hbody : ∀ a d, I a d → Gives (body a) d (Kept I)) :
    Gives (repeating body a) c I := by
  refine gives_repeating h fun a d hI => (hbody a d hI).mono fun r e hr => ?_
  cases r <;> exact hr

end ScriptLint.Parse
