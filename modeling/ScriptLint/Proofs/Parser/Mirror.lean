import Mathlib.Data.List.TakeWhile
import Mathlib.Order.Monotone.Basic
import ScriptLint.Proofs.Parser.Faults
import ScriptLint.Proofs.Parser.Safety.Command
import ScriptLint.Proofs.Syntax.Balance
import ScriptLint.Proofs.Syntax.Spelling.Token

/-!
Two scripts side by side. A mirror says how one script, the left one, stands in another: where its offsets
are moved, how its text is spelled there, what the right script goes on with behind it, and whether comments
count. Its tokens ahead lie `Beside` those of the right script if they are the same, one by one, to the end
of the left script; only where comments do not count a comment may face blanks, and one group may stand empty
in the right script. Two cursors are `Abreast` if their tokens are, and if all else that a parse reads of them
corresponds.

The scripts are compared as they are told: the left one with its offsets moved and its text spelled as in
the right one, and both without the seam, if the right script has one. A seam is a blank of the right script
that the left one does not have.

A group that stands empty is not read alike: inside of it the left script has tokens that the right one does
not have. A run that opens this group never passes it over any more, so that nothing has to be said of such a
run where the left script is known to pass the group over.

The right script goes on with a token that ends a list of statements, so that a parse meets it as it meets
the end of the left script.
-/

namespace ScriptLint

namespace TokenKind

/-- The tokens behind which a statement has ended for good. -/
def endsStatement : TokenKind → Bool
  | semicolon | closeBrace | closeParen => true
  | _ => false

theorem isTrivia_of_whitespace {k : TokenKind} (h : k = .whitespace) : k.isTrivia := by
  rw [h]
  rfl

theorem isTrivia_iff {k : TokenKind} : k.isTrivia ↔ k = .whitespace ∨ k = .comment := by
  cases k <;> simp [isTrivia]

theorem isBracket_of_isSpacing (k : TokenKind) (h : k.isSpacing) : k.isBracket = false := by
  cases k <;> first | rfl | exact absurd h nofun

theorem isTrivia_of_endsStatement {k : TokenKind} (h : k.endsStatement) : k.isTrivia = false := by
  cases k <;> first | rfl | exact absurd h nofun

theorem isTerminator_of_endsStatement {k : TokenKind} (h : k.endsStatement) : k.isTerminator := by
  cases k <;> first | rfl | exact absurd h nofun

theorem isSpacing_of_endsStatement {k : TokenKind} (h : k.endsStatement) : k.isSpacing = false := by
  cases k <;> first | rfl | exact absurd h nofun

end TokenKind

namespace Token

/-- What stands behind the last equals sign of the text, or all of it. -/
def lastPart (text : String) : String :=
  String.ofList (text.toList.reverse.takeWhile (· ≠ '=')).reverse

/-- Behind the token a parse may look for an operand or a command across blanks only. Whether it does depends
on where the token stands, which is not asked here: a point or a keyword may be an argument like others. -/
def awaits (t : Token) : Bool :=
  match t.kind with
  | .ampersand | .parameter true => true
  | .redirection => '&' ∉ t.text.toList
  | .word => lastPart t.text = "." || Text.fold (lastPart t.text) ∈ Parse.flowKeywords
  | _ => false

/-- Whether blanks and comments may stand for one another behind the token, if they may before it. -/
def leaves (t : Token) (free : Bool) : Bool :=
  if t.kind = .whitespace then free else !t.awaits

@[simp] theorem leaves_of_whitespace {t : Token} {free : Bool} (h : t.kind = .whitespace) :
    t.leaves free = free := if_pos h

@[simp] theorem leaves_of_ne {t : Token} {free : Bool} (h : t.kind ≠ .whitespace) :
    t.leaves free = !t.awaits := if_neg h

/-- A text without an equals sign is its own last part. -/
theorem lastPart_eq {text : String} (h : '=' ∉ text.toList) : lastPart text = text := by
  have hall : text.toList.reverse.takeWhile (· ≠ '=') = text.toList.reverse := by
    rw [List.takeWhile_eq_self_iff]
    intro c hc
    refine decide_eq_true fun heq => h ?_
    rwa [← heq, ← List.mem_reverse]
  rw [lastPart, hall, List.reverse_reverse, String.ofList_toList]

/-- What is cut off behind an equals sign, or before the last one, has the same last part. -/
theorem lastPart_append {a b : String} (h : a.toList.getLast? = some '=' ∨ '=' ∈ b.toList) :
    lastPart (a ++ b) = lastPart b := by
  by_cases hb : '=' ∈ b.toList
  · obtain ⟨front, back, hsplit⟩ := List.append_of_mem hb
    unfold lastPart
    rw [String.toList_append, hsplit]
    simp [List.takeWhile_append]
  · obtain ⟨init, ha⟩ := List.getLast?_eq_some_iff.mp (h.resolve_right hb)
    have hne : ∀ c ∈ b.toList.reverse, decide (c ≠ '=') = true := by
      intro c hc
      refine decide_eq_true fun heq => hb ?_
      rwa [← heq, ← List.mem_reverse]
    unfold lastPart
    rw [String.toList_append, List.reverse_append, List.takeWhile_append_of_pos hne, ha,
      List.takeWhile_eq_self_iff.mpr hne]
    simp

end Token

namespace Parse

/-- How many groups are open at most behind some tokens that stand inside `depth` groups. -/
def deepest (depth : Nat) : List Token → Nat
  | [] => depth
  | t :: ts => max depth (deepest (depthBehind depth t.kind) ts)

theorem depth_le_deepest (depth : Nat) (ts : List Token) : depth ≤ deepest depth ts := by
  cases ts with
  | nil => exact Nat.le_refl _
  | cons t ts => exact Nat.le_max_left _ _

theorem deepest_behind_le (depth : Nat) (t : Token) (ts : List Token) :
    deepest (depthBehind depth t.kind) ts ≤ deepest depth (t :: ts) := Nat.le_max_right _ _

theorem deepest_dropWhile_le {p : TokenKind → Bool} (hp : ∀ k, p k → k.isBracket = false)
    (depth : Nat) (ts : List Token) :
    deepest depth (ts.dropWhile fun t => p t.kind) ≤ deepest depth ts := by
  induction ts with
  | nil => exact Nat.le_refl _
  | cons t ts ih =>
      cases h : p t.kind with
      | false => rw [List.dropWhile_cons_of_neg (by simp [h])]
      | true =>
          have hbehind := deepest_behind_le depth t ts
          rw [depthBehind_of_not_isBracket (hp _ h)] at hbehind
          rw [List.dropWhile_cons_of_pos (by exact h)]
          exact Nat.le_trans ih hbehind

end Parse

/-- How a script stands in another one. -/
structure Mirror where
  /-- Where an offset of the left script is in the right one. -/
  offset : Nat → Nat
  mono : Monotone offset
  /-- Comments count. -/
  comments : Bool
  /-- The length of the left script. -/
  size : Nat
  /-- The length of the right one. -/
  size' : Nat
  /-- The tokens of the right script behind those of the left one. -/
  tail : List Token
  /-- How deeply groups may nest in the left script, if there are fewer levels for them in the right
  one. -/
  limit? : Option Nat
  /-- The faults that the left script is known not to have. -/
  excluded : Fault → Prop
  size_eq : tail = [] → size' = offset size
  size_apart : ∀ m ≤ size, offset m = offset size → m = size
  tail_head : ∀ t ts, tail = t :: ts → t.kind.endsStatement ∧ t.start = offset size
  excluded_all : tail ≠ [] ∨ limit?.isSome → ∀ f, excluded f
  /-- Where an offset of the right script is told. -/
  back : Nat → Nat := id
  back_mono : Monotone back := by exact monotone_id
  /-- Where the left script is before the seam; no token that is compared starts further to the front. -/
  seam : Nat := 0
  back_inj : ∀ m n, seam < m → back n = back (offset m) → n = offset m := by exact fun _ _ _ h => h
  /-- How the text of the left script is spelled in the right one, if it is not the same. -/
  spelling? : Option Spelling := none
  /-- The opener of a group of the left script that stands empty in the right one. The left script is known to
  pass it over, because it is too deep. -/
  emptied? : Option Token := none

namespace Mirror

/-- With nothing behind the left script and no limit, no fault need be excluded. -/
theorem excludes_nothing : ([] : List Token) ≠ [] ∨ (none : Option Nat).isSome → Fault → False :=
  fun h => h.elim (absurd rfl) fun hlimit => absurd hlimit Bool.false_ne_true

variable (M : Mirror)

/-- How the left script is told. -/
def left : Telling := ⟨⟨M.back ∘ M.offset, M.comments⟩, M.spelling?⟩

/-- How the right script is told. -/
def right : Telling := ⟨⟨M.back, M.comments⟩, none⟩

/-- Two parts of the scripts are told alike. -/
def Alike {α β : Type} (f : Telling → α → β) (a b : α) : Prop := f M.left a = f M.right b

def fault (f : Fault) : Fault := M.left.fault f

/-- A group that starts at `start` has been passed over. -/
def PassedOver (start : Nat) (c : Cursor) : Prop :=
  ∃ f ∈ c.faults, f.problem.isTooDeep ∧ f.span.start = start

/-- None of the faults met so far is excluded, and behind the opener of the emptied group this group has been
passed over. -/
structure Quiet (c : Cursor) : Prop where
  admitted : ∀ f ∈ c.faults, ¬M.excluded f
  passed : ∀ o, M.emptied? = some o → c.Ordered → o.start < c.offset → PassedOver o.start c

/-- Where no group is emptied, none has to be passed over. -/
theorem quiet_of_admitted {c : Cursor} (h : ∀ f ∈ c.faults, ¬M.excluded f)
    (hnone : M.emptied? = none := by exact rfl) : M.Quiet c :=
  ⟨h, fun o ho => by rw [hnone] at ho; cases ho⟩

theorem quiet_of_no_faults {c : Cursor} (h : c.faults = #[])
    (hnone : M.emptied? = none := by exact rfl) : M.Quiet c := by
  refine M.quiet_of_admitted (fun f hf => ?_) hnone
  rw [h] at hf
  exact absurd hf (Array.not_mem_empty f)

/-- No offset in front of this one is in the same place of the right script. -/
def Apart (n : Nat) : Prop := ∀ m ≤ n, M.offset m = M.offset n → m = n

/-- Two tokens that start one token in the two scripts, or one group. -/
structure Met (t t' : Token) : Prop where
  kind_eq : t'.kind = t.kind
  text_eq : t'.text = M.left.text t.text
  start_eq : t'.start = M.offset t.start
  suits : M.left.Suits t
  seam_le : M.seam ≤ t.start
  apart : M.Apart t.start

/-- One token in the two scripts. -/
structure Same (t t' : Token) : Prop where
  kind_eq : t'.kind = t.kind
  text_eq : t'.text = M.left.text t.text
  /-- So is every beginning of the token. -/
  offset_eq : ∀ head tail, t.text = head ++ tail →
    t'.start + (M.left.text head).utf8ByteSize = M.offset (t.start + head.utf8ByteSize)
  suits : M.left.Suits t
  seam_le : M.seam ≤ t.start
  apart : ∀ head tail, t.text = head ++ tail → M.Apart (t.start + head.utf8ByteSize)

/-- The group from `o` to `cl`, with `inside` between the two, stands empty from `o'` to `cl'`. -/
structure Emptied (o cl : Token) (inside : List Token) (o' cl' : Token) : Prop where
  opener : M.emptied? = some o
  met : M.Met o o'
  closed : o.ClosedBy cl
  nested : Nested (brackets inside)
  kind_eq : cl'.kind = cl.kind
  stop_eq : cl'.stop = M.offset cl.stop
  unlimited : M.limit? = none

/-- Blanks and comments of the left script that face blanks of the right one. The first of them that is a
comment is known not to be reported. -/
structure Gap (gs gs' : List Token) : Prop where
  comments_eq : M.comments = false
  trivia : ∀ t ∈ gs, t.kind.isTrivia
  blanks : ∀ t ∈ gs', t.kind = .whitespace
  starts : ∃ t ts t' ts', gs = t :: ts ∧ gs' = t' :: ts' ∧ t'.start = M.offset t.start ∧ M.Apart t.start
  unreported : ∃ t ts, gs.dropWhile (fun t => t.kind = .whitespace) = t :: ts ∧
    t.kind = .comment ∧ M.excluded ⟨.unexpectedToken t.text, t.span⟩

namespace Emptied

variable {M} {o cl o' cl' : Token} {inside : List Token}

theorem isOpener (h : M.Emptied o cl inside o' cl') : o.kind.isOpener := by
  obtain ⟨closer, hcloser, -⟩ := Option.map_eq_some_iff.mp h.closed
  exact TokenKind.isOpener_of_closer? hcloser

theorem isBracket (h : M.Emptied o cl inside o' cl') : o.kind.isBracket :=
  TokenKind.isBracket_of_isOpener h.isOpener

theorem ne_whitespace (h : M.Emptied o cl inside o' cl') : o.kind ≠ .whitespace := by
  intro hblank
  have hopener := h.isOpener
  rw [hblank] at hopener
  cases hopener

end Emptied

/-- The tokens of the left script, and those of the right one from there on. If they are `free`, a gap
may come first; if not, only behind a token that awaits nothing. -/
inductive Beside : (free : Bool) → List Token → List Token → Prop
  | nil {free : Bool} : Beside free [] M.tail
  | cons {free : Bool} {t t' : Token} {ts ts' : List Token} : M.Same t t' →
      Beside (t.leaves free) ts ts' → Beside free (t :: ts) (t' :: ts')
  | gap {gs gs' ts ts' : List Token} : M.Gap gs gs' →
      (ts'.dropWhile fun t => t.kind = .whitespace).head?.map Token.kind ≠ some .comma →
      Beside true ts ts' → Beside true (gs ++ ts) (gs' ++ ts')
  | emptied {free : Bool} {o cl o' cl' : Token} {inside ts ts' : List Token} :
      M.Emptied o cl inside o' cl' → Beside true ts ts' →
      Beside free (o :: (inside ++ cl :: ts)) (o' :: cl' :: ts')

/-- Tokens that are read next: the same in both scripts, or the emptied group, or the end of the left
script. -/
inductive Settled : List Token → List Token → Prop
  | ends : Settled [] M.tail
  | meets {t t' : Token} {ts ts' : List Token} : M.Same t t' → t.kind ≠ .whitespace →
      M.Beside (!t.awaits) ts ts' → Settled (t :: ts) (t' :: ts')
  | emptied {o cl o' cl' : Token} {inside ts ts' : List Token} :
      M.Emptied o cl inside o' cl' → M.Beside true ts ts' →
      Settled (o :: (inside ++ cl :: ts)) (o' :: cl' :: ts')

variable {M} {t t' : Token} {ts ts' gs gs' : List Token} {free : Bool}

theorem apart_of_injective (h : Function.Injective M.offset) (n : Nat) : M.Apart n :=
  fun _ _ heq => h heq

/-- Where an offset of the left script is told, the offset that it is in the right one is told, too. -/
@[simp] theorem right_offset (n : Nat) : M.right.offset (M.offset n) = M.left.offset n := rfl

theorem left_offset_max (a b : Nat) :
    M.left.offset (max a b) = max (M.left.offset a) (M.left.offset b) :=
  (M.back_mono.comp M.mono).map_max

theorem right_offset_max (a b : Nat) :
    M.right.offset (max a b) = max (M.right.offset a) (M.right.offset b) :=
  M.back_mono.map_max

/-- A problem in the wording of which no text of the script stands. -/
theorem alike_fault {p : Problem} (h : ∀ w : Spelling, w.problem p = p) {s s' : Span}
    (hspan : M.right.span s' = M.left.span s) : M.Alike Telling.fault ⟨p, s⟩ ⟨p, s'⟩ := by
  rw [Alike, Telling.fault_of_problem _ h, Telling.fault_of_problem _ h, hspan]

@[simp] theorem right_text (s : String) : M.right.text s = s := rfl

namespace Same

theorem start_eq (h : M.Same t t') : t'.start = M.offset t.start := by
  have hnil : M.left.text "" = "" := (Telling.text_eq_iff rfl).mpr rfl
  simpa [hnil] using h.offset_eq "" t.text (String.empty_append).symm

theorem met (h : M.Same t t') : M.Met t t' :=
  ⟨h.kind_eq, h.text_eq, h.start_eq, h.suits, h.seam_le, by
    simpa using h.apart "" t.text (String.empty_append).symm⟩

theorem stop_eq (h : M.Same t t') : t'.stop = M.offset t.stop := by
  rw [Token.stop, h.text_eq]
  exact h.offset_eq t.text "" (String.append_empty).symm

theorem span_eq (h : M.Same t t') : M.right.span t'.span = M.left.span t.span := by
  rw [Token.span, h.start_eq, h.stop_eq]
  rfl

theorem size_eq (h : M.Same t t') (hword : t.kind = .word) :
    t'.text.utf8ByteSize = t.text.utf8ByteSize := by
  rw [h.text_eq, Telling.utf8ByteSize_text h.suits hword (List.Subset.refl _)]

theorem unexpectedToken (h : M.Same t t') :
    M.Alike Telling.fault ⟨.unexpectedToken t.text, t.span⟩ ⟨.unexpectedToken t'.text, t'.span⟩ := by
  rw [Alike, Telling.fault_unexpectedToken, Telling.fault_unexpectedToken, h.span_eq, h.text_eq,
    right_text]

/-- Both tokens cut at the same place. -/
theorem cut (h : M.Same t t') (hword : t.kind = .word) {head tail : String}
    (htext : t.text = head ++ tail) :
    t'.text = M.left.text head ++ M.left.text tail ∧
      (M.left.text head).utf8ByteSize = head.utf8ByteSize ∧
      M.Same (t.cut head.utf8ByteSize).1 (t'.cut head.utf8ByteSize).1 ∧
      M.Same (t.cut head.utf8ByteSize).2 (t'.cut head.utf8ByteSize).2 := by
  have hlist : t.text.toList = head.toList ++ tail.toList := by rw [htext, String.toList_append]
  have hsize : (M.left.text head).utf8ByteSize = head.utf8ByteSize :=
    Telling.utf8ByteSize_text h.suits hword (hlist ▸ List.subset_append_left _ _)
  have htext' : t'.text = M.left.text head ++ M.left.text tail := by
    rw [h.text_eq, htext, Telling.text_append]
  have hsuits {s : String} (hs : s.toList ⊆ t.text.toList) (n : Nat) : M.left.Suits ⟨.word, s, n⟩ :=
    fun w hw hreturns => ⟨fun hr => (h.suits w hw hreturns).1 (hs hr),
      fun _ hn => (h.suits w hw hreturns).2 hword (hs hn)⟩
  refine ⟨htext', hsize, ?_⟩
  rw [Token.cut_eq htext, ← hsize, Token.cut_eq htext']
  constructor
  · have hhead (a b : String) (hab : head = a ++ b) : t.text = a ++ (b ++ tail) := by
      rw [htext, hab, String.append_assoc]
    exact ⟨rfl, rfl, fun a b hab => h.offset_eq a (b ++ tail) (hhead a b hab),
      hsuits (hlist ▸ List.subset_append_left _ _) _, h.seam_le,
      fun a b hab => h.apart a (b ++ tail) (hhead a b hab)⟩
  · have htail (a b : String) (hab : tail = a ++ b) : t.text = (head ++ a) ++ b := by
      rw [htext, hab, String.append_assoc]
    refine ⟨rfl, rfl, fun a b hab => ?_, hsuits (hlist ▸ List.subset_append_right _ _) _,
      Nat.le_add_right_of_le h.seam_le, fun a b hab => ?_⟩
    · have hoffset := h.offset_eq (head ++ a) b (htail a b hab)
      rw [Telling.text_append, String.utf8ByteSize_append, String.utf8ByteSize_append, hsize] at hoffset
      dsimp only
      rw [hsize, Nat.add_assoc, Nat.add_assoc]
      exact hoffset
    · have hapart := h.apart (head ++ a) b (htail a b hab)
      rw [String.utf8ByteSize_append, ← Nat.add_assoc] at hapart
      rwa [hsize]

end Same

namespace Gap

theorem dropWhile_left (h : M.Gap gs gs') {p : TokenKind → Bool}
    (hp : ∀ k, k.isTrivia → p k) (ts : List Token) :
    (gs ++ ts).dropWhile (fun t => p t.kind) = ts.dropWhile fun t => p t.kind :=
  List.dropWhile_append_of_pos fun t ht => hp _ (h.trivia t ht)

theorem dropWhile_right (h : M.Gap gs gs') {p : TokenKind → Bool}
    (hp : p .whitespace) (ts : List Token) :
    (gs' ++ ts).dropWhile (fun t => p t.kind) = ts.dropWhile fun t => p t.kind :=
  List.dropWhile_append_of_pos fun t ht => by rw [h.blanks t ht, hp]

/-- Blanks alone do not lead over a gap in the left script. -/
theorem dropWhile_blanks (h : M.Gap gs gs') (ts : List Token) :
    ∃ t us, (gs ++ ts).dropWhile (fun t => t.kind = .whitespace) = t :: us ∧
      t.kind = .comment ∧ M.excluded ⟨.unexpectedToken t.text, t.span⟩ := by
  obtain ⟨t, us, hdrop, hkind, hexcluded⟩ := h.unreported
  refine ⟨t, us ++ ts, ?_, hkind, hexcluded⟩
  rw [List.dropWhile_append, hdrop]
  rfl

end Gap

/-- The tail of the right script is passed over only by what passes over the end of a statement. -/
theorem tail_dropWhile {p : TokenKind → Bool} (hp : ∀ k, k.endsStatement → p k = false) :
    M.tail.dropWhile (fun t => p t.kind) = M.tail := by
  cases h : M.tail with
  | nil => rfl
  | cons t ts =>
      have hends := hp _ (M.tail_head t ts h).1
      rw [List.dropWhile_cons_of_neg (by simp [hends])]

theorem tail_dropWhile_blanks : (M.tail.dropWhile fun t => t.kind = .whitespace) = M.tail :=
  tail_dropWhile (p := fun k => k = .whitespace) fun k hk => by
    cases k <;> first | rfl | exact absurd hk nofun

namespace Beside

theorem weaken (h : M.Beside free ts ts') : M.Beside true ts ts' := by
  induction h with
  | nil => exact nil
  | @cons _ t _ _ _ hsame h ih =>
      by_cases hblank : t.kind = .whitespace
      · exact cons hsame (by rwa [Token.leaves_of_whitespace hblank])
      · rw [Token.leaves_of_ne hblank] at h
        exact cons hsame (by rwa [Token.leaves_of_ne hblank])
  | gap hgap hcomma h _ => exact gap hgap hcomma h
  | emptied hgroup h _ => exact emptied hgroup h

/-- What passes over blanks and comments comes to the same token in both scripts, or to the end of the
left one. -/
theorem dropWhile {p : TokenKind → Bool} (hp : ∀ k, k.isTrivia → p k)
    (hbracket : ∀ k, p k → k.isBracket = false) (h : M.Beside free ts ts') :
    M.Settled (ts.dropWhile fun t => p t.kind) (ts'.dropWhile fun t => p t.kind) ∨
      ts.dropWhile (fun t => p t.kind) = [] ∧
        ts'.dropWhile (fun t => p t.kind) = M.tail.dropWhile fun t => p t.kind := by
  induction h with
  | nil => exact .inr ⟨rfl, rfl⟩
  | @cons _ t t' ts ts' hsame h ih =>
      cases hpt : p t.kind with
      | true =>
          rwa [List.dropWhile_cons_of_pos (by exact hpt),
            List.dropWhile_cons_of_pos (by rwa [hsame.kind_eq])]
      | false =>
          have hblank : t.kind ≠ .whitespace := by
            rintro hblank
            rw [hp _ (TokenKind.isTrivia_of_whitespace hblank)] at hpt
            cases hpt
          rw [Token.leaves_of_ne hblank] at h
          rw [List.dropWhile_cons_of_neg (by simp [hpt]),
            List.dropWhile_cons_of_neg (by simp [hsame.kind_eq, hpt])]
          exact .inl (.meets hsame hblank h)
  | gap hgap _ _ ih =>
      rwa [hgap.dropWhile_left hp, hgap.dropWhile_right (hp _ rfl)]
  | @emptied _ o _ _ _ _ _ _ hgroup h _ =>
      have hpo : ¬ p o.kind := fun hpo => by
        have hnone := hbracket _ hpo
        rw [hgroup.isBracket] at hnone
        cases hnone
      rw [List.dropWhile_cons_of_neg (by exact hpo),
        List.dropWhile_cons_of_neg (by rwa [hgroup.met.kind_eq])]
      exact .inl (.emptied hgroup h)

theorem settled {p : TokenKind → Bool} (hp : ∀ k, k.isTrivia → p k)
    (hends : ∀ k, k.endsStatement → p k = false) (hbracket : ∀ k, p k → k.isBracket = false)
    (h : M.Beside free ts ts') :
    M.Settled (ts.dropWhile fun t => p t.kind) (ts'.dropWhile fun t => p t.kind) := by
  rcases h.dropWhile hp hbracket with h | ⟨h, h'⟩
  · exact h
  · rw [h, h', tail_dropWhile hends]
    exact .ends

/-- Blanks are passed over alike, unless they lead to a gap. Then the left script comes to a comment that
is not reported, and the right one not to a comma. -/
theorem blanks (h : M.Beside free ts ts') :
    M.Settled (ts.dropWhile fun t => t.kind = .whitespace)
        (ts'.dropWhile fun t => t.kind = .whitespace) ∨
      free = true ∧
        (∃ t us, ts.dropWhile (fun t => t.kind = .whitespace) = t :: us ∧ t.kind = .comment ∧
          M.excluded ⟨.unexpectedToken t.text, t.span⟩) ∧
        (ts'.dropWhile fun t => t.kind = .whitespace).head?.map Token.kind ≠ some .comma := by
  induction h with
  | nil =>
      refine .inl ?_
      rw [tail_dropWhile_blanks]
      exact .ends
  | @cons free t t' ts ts' hsame h ih =>
      by_cases hblank : t.kind = .whitespace
      · rw [Token.leaves_of_whitespace hblank] at ih
        rwa [List.dropWhile_cons_of_pos (by simpa using hblank),
          List.dropWhile_cons_of_pos (by simpa [hsame.kind_eq] using hblank)]
      · rw [Token.leaves_of_ne hblank] at h
        rw [List.dropWhile_cons_of_neg (by simpa using hblank),
          List.dropWhile_cons_of_neg (by simpa [hsame.kind_eq] using hblank)]
        exact .inl (.meets hsame hblank h)
  | @gap _ _ ts _ hgap hcomma _ _ =>
      refine .inr ⟨rfl, hgap.dropWhile_blanks ts, ?_⟩
      rwa [hgap.dropWhile_right (p := fun k => k = .whitespace) rfl]
  | emptied hgroup h _ =>
      have hblank := hgroup.ne_whitespace
      rw [List.dropWhile_cons_of_neg (by simpa using hblank),
        List.dropWhile_cons_of_neg (by simpa [hgroup.met.kind_eq] using hblank)]
      exact .inl (.emptied hgroup h)

/-- What is ahead starts at the same place. -/
theorem start (h : M.Beside free ts ts') :
    (∃ t us t' us', ts = t :: us ∧ ts' = t' :: us' ∧ t'.start = M.offset t.start ∧ M.Apart t.start) ∨
      ts = [] ∧ ts' = M.tail := by
  cases h with
  | nil => exact .inr ⟨rfl, rfl⟩
  | cons hsame _ => exact .inl ⟨_, _, _, _, rfl, rfl, hsame.start_eq, hsame.met.apart⟩
  | gap hgap _ _ =>
      obtain ⟨t, us, t', us', rfl, rfl, hstart⟩ := hgap.starts
      exact .inl ⟨_, _, _, _, rfl, rfl, hstart⟩
  | emptied hgroup _ => exact .inl ⟨_, _, _, _, rfl, rfl, hgroup.met.start_eq, hgroup.met.apart⟩

end Beside

namespace Settled

theorem beside (h : M.Settled ts ts') : M.Beside true ts ts' := by
  cases h with
  | ends => exact .nil
  | meets hsame hblank h => exact .cons hsame (by rwa [Token.leaves_of_ne hblank])
  | emptied hgroup h => exact .emptied hgroup h

/-- The kind of what is ahead, if anything is. -/
theorem kind_eq (h : M.Settled ts ts') :
    ts'.head?.map Token.kind = ts.head?.map Token.kind ∨
      ts = [] ∧ ∃ k, ts'.head?.map Token.kind = some k ∧ k.endsStatement := by
  cases h with
  | ends =>
      cases h : M.tail with
      | nil => exact .inl rfl
      | cons t ts => exact .inr ⟨rfl, t.kind, rfl, (M.tail_head t ts h).1⟩
  | meets hsame _ _ => exact .inl (congrArg some hsame.kind_eq)
  | emptied hgroup _ => exact .inl (congrArg some hgroup.met.kind_eq)

/-- No blanks are ahead. -/
theorem dropWhile_blanks (h : M.Settled ts ts') :
    (ts.dropWhile fun t => t.kind = .whitespace) = ts ∧
      (ts'.dropWhile fun t => t.kind = .whitespace) = ts' := by
  cases h with
  | ends => exact ⟨rfl, tail_dropWhile_blanks⟩
  | meets hsame hblank _ =>
      exact ⟨List.dropWhile_cons_of_neg (by simpa using hblank),
        List.dropWhile_cons_of_neg (by simpa [hsame.kind_eq] using hblank)⟩
  | emptied hgroup _ =>
      have hblank := hgroup.ne_whitespace
      exact ⟨List.dropWhile_cons_of_neg (by simpa using hblank),
        List.dropWhile_cons_of_neg (by simpa [hgroup.met.kind_eq] using hblank)⟩

end Settled

variable (M) in
/-- Two cursors from which a parse goes on alike: what is ahead of them is as `rel` says, and `depth` groups
are open. Where the last tokens passed ended is told alike if it is `exact`. -/
structure Abreast (rel : List Token → List Token → Prop) (depth : Nat) (exact : Prop)
    (c c' : Cursor) : Prop where
  sound : c.Sound
  ahead : rel c.rest c'.rest
  size_eq : c.size = M.size
  size_eq' : c'.size = M.size'
  lastEnd_eq : exact → M.right.offset c'.lastEnd = M.left.offset c.lastEnd
  faults_told : c'.faults.toList.map M.right.fault = c.faults.toList.map M.left.fault
  /-- The groups that have been passed over start in front of the cursor. -/
  recent : ∀ f ∈ c.faults, f.problem.isTooDeep → f.span.start < c.offset
  room : ∀ l, M.limit? = some l → Parse.deepest depth c.rest ≤ l

namespace Abreast

open Cursor

variable {rel rel' : List Token → List Token → Prop} {depth depth' : Nat} {exact exact' : Prop}
  {c c' : Cursor}

theorem faults_eq (h : M.Abreast rel depth exact c c')
    (hright : M.right.fault = id := by exact rfl) : c'.faults.toList = c.faults.toList.map M.fault := by
  have hfaults := h.faults_told
  rwa [hright, List.map_id] at hfaults

theorem no_faults (h : M.Abreast rel depth exact c c') (hc : c.faults = #[]) : c'.faults = #[] := by
  have hfaults := h.faults_told
  rw [hc] at hfaults
  exact Array.toList_inj.mp (List.map_eq_nil_iff.mp hfaults)

theorem imp (h : M.Abreast rel depth exact c c') (hrel : rel c.rest c'.rest → rel' c.rest c'.rest)
    (hexact : exact' → exact) : M.Abreast rel' depth exact' c c' :=
  { h with ahead := hrel h.ahead, lastEnd_eq := fun he => h.lastEnd_eq (hexact he) }

/-- Both cursors are said to be somewhere else among their tokens. -/
theorem on (h : M.Abreast rel depth exact c c') {rest rest' : List Token}
    (hreaches : Reaches c { c with rest := rest }) (hrel : rel' rest rest')
    (hroom : Parse.deepest depth' rest ≤ Parse.deepest depth c.rest) :
    M.Abreast rel' depth' exact { c with rest := rest } { c' with rest := rest' } :=
  { h with
    sound := hreaches.sound
    ahead := hrel
    recent := fun f hf hdeep => Nat.lt_of_lt_of_le (h.recent f hf hdeep) hreaches.offset_le
    room := fun l hl => Nat.le_trans hroom (h.room l hl) }

theorem beside (h : M.Abreast M.Settled depth exact c c') :
    M.Abreast (M.Beside true) depth exact c c' :=
  h.imp Settled.beside id

theorem offset_eq (h : M.Abreast (M.Beside free) depth exact c c') :
    c'.offset = M.offset c.offset := by
  rcases h.ahead.start with ⟨t, us, t', us', hrest, hrest', hstart, -⟩ | ⟨hrest, hrest'⟩
  · rw [offset_eq_start hrest, offset_eq_start hrest', hstart]
  · have hoffset : c.offset = M.size := by rw [Cursor.offset, hrest, h.size_eq]
    rw [hoffset]
    cases htail : M.tail with
    | nil => rw [Cursor.offset, hrest', htail, h.size_eq', M.size_eq htail]
    | cons t ts => rw [offset_eq_start (hrest'.trans htail), (M.tail_head t ts htail).2]

theorem offset_apart (h : M.Abreast (M.Beside free) depth exact c c') : M.Apart c.offset := by
  rcases h.ahead.start with ⟨t, us, t', us', hrest, -, -, hapart⟩ | ⟨hrest, -⟩
  · rw [offset_eq_start hrest]
    exact hapart
  · rw [Cursor.offset, hrest, h.size_eq]
    exact M.size_apart

/-- The same token is passed in both scripts. -/
theorem pass_same (h : M.Abreast rel depth exact c c') (hrest : c.rest = t :: ts)
    (hsame : M.Same t t') (hahead : rel' ts ts') :
    M.Abreast rel' (Parse.depthBehind depth t.kind) (exact ∨ t.kind.isSpacing = false)
      (c.pass t ts) (c'.pass t' ts') := by
  refine { h with
    sound := (h.sound.reaches_pass hrest).sound
    ahead := hahead
    lastEnd_eq := fun he => ?_
    recent := fun f hf hdeep => Nat.lt_of_lt_of_le (h.recent f hf hdeep) (h.sound.reaches_pass hrest).offset_le
    room := fun l hl => ?_ }
  · unfold Cursor.pass
    rw [hsame.kind_eq]
    split
    case isTrue hspacing => exact h.lastEnd_eq (he.resolve_right (by simp [hspacing]))
    case isFalse =>
      rw [hsame.stop_eq]
      rfl
  · have hroom := h.room l hl
    rw [hrest] at hroom
    exact Nat.le_trans (Parse.deepest_behind_le depth t ts) hroom

theorem pass (h : M.Abreast M.Settled depth exact c c') (hrest : c.rest = t :: ts)
    (ht : t.kind.isOpener = false) :
    ∃ t' ts', c'.rest = t' :: ts' ∧ M.Same t t' ∧
      M.Abreast (M.Beside !t.awaits) (Parse.depthBehind depth t.kind)
        (exact ∨ t.kind.isSpacing = false) (c.pass t ts) (c'.pass t' ts') := by
  have hahead := h.ahead
  rw [hrest] at hahead
  generalize hrest' : c'.rest = us' at hahead
  cases hahead with
  | meets hsame _ hbeside => exact ⟨_, _, rfl, hsame, h.pass_same hrest hsame hbeside⟩
  | emptied hgroup _ =>
      rw [hgroup.isOpener] at ht
      cases ht

/-- A blank or a comment is passed in both scripts. -/
theorem pass_trivia (h : M.Abreast M.Settled depth exact c c') (hrest : c.rest = t :: ts)
    (ht : t.kind.isTrivia) :
    ∃ t' ts', c'.rest = t' :: ts' ∧
      M.Abreast (M.Beside true) depth exact (c.pass t ts) (c'.pass t' ts') := by
  have hbracket := TokenKind.isBracket_of_isSpacing _ (TokenKind.isSpacing_of_isTrivia _ ht)
  obtain ⟨t', ts', hrest', -, hpass⟩ := h.pass hrest (TokenKind.not_isOpener_of_not_isBracket hbracket)
  rw [Parse.depthBehind_of_not_isBracket hbracket] at hpass
  exact ⟨t', ts', hrest', hpass.imp Beside.weaken .inl⟩

/-- A token is ahead in both scripts, and it is the same one or starts the same group. -/
theorem meet (h : M.Abreast M.Settled depth exact c c') (hrest : c.rest = t :: ts) :
    ∃ t' ts', c'.rest = t' :: ts' ∧ M.Met t t' := by
  have hahead := h.ahead
  rw [hrest] at hahead
  generalize hrest' : c'.rest = us' at hahead
  cases hahead with
  | meets hsame _ _ => exact ⟨_, _, rfl, hsame.met⟩
  | emptied hgroup _ => exact ⟨_, _, rfl, hgroup.met⟩

/-- An opener ahead is the same in both scripts, or it opens the emptied group. -/
theorem pass_or_emptied (h : M.Abreast M.Settled depth exact c c') (hrest : c.rest = t :: ts) :
    (∃ t' ts', c'.rest = t' :: ts' ∧ M.Same t t' ∧
      M.Abreast (M.Beside !t.awaits) (Parse.depthBehind depth t.kind)
        (exact ∨ t.kind.isSpacing = false) (c.pass t ts) (c'.pass t' ts')) ∨
    ∃ cl inside us o' cl' us', ts = inside ++ cl :: us ∧ c'.rest = o' :: cl' :: us' ∧
      M.Emptied t cl inside o' cl' ∧ M.Beside true us us' := by
  have hahead := h.ahead
  rw [hrest] at hahead
  generalize hrest' : c'.rest = us' at hahead
  cases hahead with
  | meets hsame _ hbeside => exact .inl ⟨_, _, rfl, hsame, h.pass_same hrest hsame hbeside⟩
  | emptied hgroup hbeside => exact .inr ⟨_, _, _, _, _, _, rfl, rfl, hgroup, hbeside⟩

/-- A run that passes the opener of the emptied group, as one that may be opened, has not passed the group over
and never will. -/
theorem not_quiet_pass (h : M.Abreast rel depth exact c c') (hrest : c.rest = t :: ts)
    (ht : M.emptied? = some t) : ¬M.Quiet (c.pass t ts) := by
  intro hquiet
  have hpass := (h.sound.reaches_pass hrest).sound
  have hstart := offset_eq_start hrest
  have hlt := h.sound.start_lt_stop hrest
  have hoffset := h.sound.offset_pass hrest
  obtain ⟨f, hf, hdeep, hf'⟩ := hquiet.passed t ht hpass.ordered (by omega)
  have hrecent := h.recent f hf hdeep
  omega

/-- Blanks and comments, and more, are left behind. -/
theorem skip {p : TokenKind → Bool} (hp : ∀ k, k.isTrivia → p k)
    (hends : ∀ k, k.endsStatement → p k = false) (hbracket : ∀ k, p k → k.isBracket = false)
    (h : M.Abreast (M.Beside free) depth exact c c') :
    M.Abreast M.Settled depth exact (c.skip p) (c'.skip p) :=
  h.on (h.sound.reaches_skip p) (h.ahead.settled hp hends hbracket)
    (Parse.deepest_dropWhile_le hbracket depth c.rest)

theorem skipSpacing (h : M.Abreast (M.Beside free) depth exact c c') :
    M.Abreast M.Settled depth exact c.skipSpacing c'.skipSpacing :=
  h.skip TokenKind.isSpacing_of_isTrivia (fun _ => TokenKind.isSpacing_of_endsStatement)
    TokenKind.isBracket_of_isSpacing

theorem skipTrivia (h : M.Abreast (M.Beside free) depth exact c c') :
    M.Abreast M.Settled depth exact (c.skip TokenKind.isTrivia) (c'.skip TokenKind.isTrivia) :=
  h.skip (fun _ hk => hk) (fun _ => TokenKind.isTrivia_of_endsStatement) fun k hk =>
    TokenKind.isBracket_of_isSpacing k (TokenKind.isSpacing_of_isTrivia k hk)

/-- Blanks are left behind, or there is a comment in their place that is not reported, with no comma in
the right script. -/
theorem skipBlanks_or (h : M.Abreast (M.Beside free) depth exact c c') :
    M.Abreast M.Settled depth exact c.skipBlanks c'.skipBlanks ∨
      free = true ∧
        (∃ t us, c.skipBlanks.rest = t :: us ∧ t.kind = .comment ∧
          M.excluded ⟨.unexpectedToken t.text, t.span⟩) ∧
        c'.skipBlanks.kind? ≠ some .comma := by
  refine h.ahead.blanks.imp_left fun hsettled => ?_
  refine h.on (h.sound.reaches_skip (· = .whitespace)) hsettled ?_
  refine Parse.deepest_dropWhile_le (p := fun k => k = .whitespace) ?_ depth c.rest
  intro k hk
  rw [of_decide_eq_true hk]
  rfl

theorem skipBlanks (h : M.Abreast (M.Beside false) depth exact c c') :
    M.Abreast M.Settled depth exact c.skipBlanks c'.skipBlanks :=
  h.skipBlanks_or.resolve_right fun h => Bool.false_ne_true h.1

theorem skipBlanks_eq (h : M.Abreast M.Settled depth exact c c') :
    c.skipBlanks = c ∧ c'.skipBlanks = c' := by
  obtain ⟨hdrop, hdrop'⟩ := h.ahead.dropWhile_blanks
  constructor
  · exact congrArg (fun rest => { c with rest := rest }) hdrop
  · exact congrArg (fun rest => { c' with rest := rest }) hdrop'

/-- What is taken ends behind the seam. -/
theorem seam_lt (h : M.Abreast M.Settled depth exact c c') {d : Cursor} {s : Span} (hs : Takes c d s) :
    M.seam < d.lastEnd := by
  have hstart := hs.le_start
  have hlt := hs.start_lt
  have hend := hs.start_lt_offset
  have hsize := hs.sound.offset_le
  cases hrest : c.rest with
  | nil =>
      have hoffset : c.offset = c.size := by rw [Cursor.offset, hrest]
      have := hs.size_eq
      omega
  | cons t ts =>
      obtain ⟨t', ts', -, hmet⟩ := h.meet hrest
      have := hmet.seam_le
      have := offset_eq_start hrest
      omega

/-- The kinds of what is ahead are the same, or nothing is ahead of the left cursor and what is ahead of
the right one ends a statement. -/
theorem kind?_eq (h : M.Abreast M.Settled depth exact c c') :
    c'.kind? = c.kind? ∨ c.rest = [] ∧ ∃ k, c'.kind? = some k ∧ k.endsStatement :=
  h.ahead.kind_eq

/-- A token that counts and ends no statement is ahead in both scripts or in neither. -/
theorem kind?_iff (h : M.Abreast (M.Beside free) depth exact c c') {k : TokenKind}
    (htrivia : k.isTrivia = false) (hends : k.endsStatement = false) :
    (c'.kind? = some k ↔ c.kind? = some k) ∧
      (c.kind? = some k → M.Abreast M.Settled depth exact c c') := by
  have hahead := h.ahead
  unfold kind?
  generalize hrest : c.rest = ts at hahead
  generalize hrest' : c'.rest = ts' at hahead
  cases hahead with
  | nil =>
      refine ⟨⟨fun hk => ?_, nofun⟩, nofun⟩
      cases htail : M.tail with
      | nil =>
          rw [htail] at hk
          cases hk
      | cons t ts =>
          have := (M.tail_head t ts htail).1
          rw [htail] at hk
          rw [Option.some.inj hk, hends] at this
          cases this
  | @cons _ t t' ts ts' hsame hbeside =>
      simp only [List.head?_cons, Option.map_some, hsame.kind_eq, true_and]
      intro hk
      have hblank : t.kind ≠ .whitespace := by
        rintro hblank
        rw [← Option.some.inj hk, hblank] at htrivia
        cases htrivia
      rw [Token.leaves_of_ne hblank] at hbeside
      refine h.imp (fun _ => ?_) id
      rw [hrest, hrest']
      exact .meets hsame hblank hbeside
  | emptied hgroup hbeside =>
      simp only [List.head?_cons, Option.map_some, hgroup.met.kind_eq, true_and]
      intro _
      refine h.imp (fun _ => ?_) id
      rw [hrest, hrest']
      exact .emptied hgroup hbeside
  | gap hgap _ _ =>
      obtain ⟨t, us, t', us', rfl, rfl, -⟩ := hgap.starts
      have ht := hgap.trivia t List.mem_cons_self
      have ht' := hgap.blanks t' List.mem_cons_self
      have hne : t.kind ≠ k := by
        rintro rfl
        rw [htrivia] at ht
        cases ht
      have hne' : t'.kind ≠ k := by
        rintro rfl
        rw [ht'] at htrivia
        cases htrivia
      simp [hne, hne']

theorem rest_eq_tail (h : M.Abreast M.Settled depth exact c c') (hrest : c.rest = []) :
    c'.rest = M.tail := by
  have hahead := h.ahead
  rw [hrest] at hahead
  generalize c'.rest = ts' at hahead
  cases hahead
  rfl

/-- Where the left script has ended the right one has, or a token is ahead that ends a statement. -/
theorem rest_of_nil (h : M.Abreast M.Settled depth exact c c') (hrest : c.rest = []) :
    c'.rest = [] ∨ ∃ t ts, c'.rest = t :: ts ∧ t.kind.endsStatement := by
  rw [h.rest_eq_tail hrest]
  cases htail : M.tail with
  | nil => exact .inl rfl
  | cons t ts => exact .inr ⟨t, ts, rfl, (M.tail_head t ts htail).1⟩

theorem report (h : M.Abreast rel depth exact c c') {problem problem' : Problem} {s s' : Span}
    (hfault : M.Alike Telling.fault ⟨problem, s⟩ ⟨problem', s'⟩)
    (hrecent : problem.isTooDeep → s.start < c.offset := by intro h; cases h) :
    M.Abreast rel depth exact (c.report problem s) (c'.report problem' s') := by
  refine { h with
    sound := (h.sound.reaches_report problem s).sound
    faults_told := ?_
    recent := fun f hf hdeep => ?_ }
  · show (c'.faults.push _).toList.map M.right.fault = (c.faults.push _).toList.map M.left.fault
    rw [Array.toList_push, Array.toList_push, List.map_append, List.map_append, h.faults_told]
    exact congrArg (fun f => _ ++ [f]) hfault.symm
  · rcases Array.mem_push.mp hf with hf | rfl
    · exact h.recent f hf hdeep
    · exact hrecent hdeep

/-- A word is cut in both scripts, behind an equals sign or before the last one. -/
theorem cut (h : M.Abreast M.Settled depth exact c c') (hrest : c.rest = t :: ts)
    (hword : t.kind = .word) {head tail : String} (htext : t.text = head ++ tail) (hhead : head ≠ "")
    (htail : tail ≠ "") (hpart : head.toList.getLast? = some '=' ∨ '=' ∈ tail.toList) :
    ∃ t' ts', c'.rest = t' :: ts' ∧ M.Same t t' ∧
      t'.text = M.left.text head ++ M.left.text tail ∧
      (M.left.text head).utf8ByteSize = head.utf8ByteSize ∧
      M.Abreast M.Settled depth exact
        { c with rest := (t.cut head.utf8ByteSize).1 :: (t.cut head.utf8ByteSize).2 :: ts }
        { c' with rest := (t'.cut head.utf8ByteSize).1 :: (t'.cut head.utf8ByteSize).2 :: ts' } := by
  have hahead := h.ahead
  rw [hrest] at hahead
  generalize hrest' : c'.rest = us' at hahead
  cases hahead with
  | @meets _ t' _ ts' hsame _ hbeside =>
      obtain ⟨htext', hsize, hfirst, hsecond⟩ := hsame.cut hword htext
      have hawaits : (t.cut head.utf8ByteSize).2.awaits = t.awaits := by
        rw [Token.cut_eq htext, Token.awaits, Token.awaits, hword, htext, Token.lastPart_append hpart]
      refine ⟨t', ts', rfl, hsame, htext', hsize,
        h.on (h.sound.reaches_cut hrest htext hhead htail) ?_ ?_⟩
      · refine .meets hfirst (by simp [Token.cut]) (.cons hsecond ?_)
        rw [Token.leaves_of_ne (by simp [Token.cut]), hawaits]
        exact hbeside
      · have hbehind := Parse.deepest_behind_le depth t ts
        rw [hword] at hbehind
        rw [hrest]
        exact max_le (Nat.le_trans (Parse.depth_le_deepest _ _) hbehind)
          (max_le (Nat.le_trans (Parse.depth_le_deepest _ _) hbehind) hbehind)
  | emptied hgroup _ =>
      have hopener := hgroup.isOpener
      rw [hword] at hopener
      cases hopener

/-- How many groups are open does not matter where the levels are not counted. -/
theorem atDepth (h : M.Abreast rel depth exact c c') (hlimit : M.limit? = none) (depth' : Nat) :
    M.Abreast rel depth' exact c c' :=
  { h with room := fun _ hl => absurd (hlimit.symm.trans hl) nofun }

/-- The counters of open groups are not compared. -/
theorem withDepth (h : M.Abreast rel depth exact c c') (k k' : Nat) :
    M.Abreast rel depth exact { c with depth := k } { c' with depth := k' } :=
  { h with sound := ⟨h.sound.tiles, h.sound.lastEnd_le⟩ }

end Abreast

end Mirror

end ScriptLint
