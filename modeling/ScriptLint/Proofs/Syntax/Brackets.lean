import ScriptLint.Syntax.Node
import ScriptLint.Syntax.Parse.Group

/-!
Brackets. In a sequence of openers and closers that is nested, each opener has one closer that closes it:
the first behind it up to which what stands between is nested again. A group of a tree is where it should
be if it spans such a pair.
-/

namespace ScriptLint

namespace TokenKind

def isBracket (k : TokenKind) : Bool := k.isOpener || k.isCloser

/-- The closer of the group that a token opens. -/
def closer? : TokenKind → Option Closer
  | openBrace | atBrace => some .brace
  | openParen | dollarParen | atParen => some .paren
  | _ => none

theorem isOpener_of_closer? {k : TokenKind} {closer : Closer} (h : k.closer? = some closer) :
    k.isOpener := by
  cases k <;> first | rfl | cases h

end TokenKind

@[simp] theorem Parse.depthBehind_of_not_isBracket {depth : Nat} {k : TokenKind}
    (h : k.isBracket = false) : depthBehind depth k = depth := by
  obtain ⟨ho, hc⟩ := Bool.or_eq_false_iff.mp h
  rw [depthBehind, if_neg (Bool.not_eq_true _ ▸ ho), if_neg (Bool.not_eq_true _ ▸ hc)]

/-- The openers and closers among some tokens. -/
def brackets (ts : List Token) : List Token := ts.filter (·.kind.isBracket)

@[simp] theorem brackets_cons_of_isBracket {t : Token} {ts : List Token} (h : t.kind.isBracket) :
    brackets (t :: ts) = t :: brackets ts :=
  List.filter_cons_of_pos h

@[simp] theorem brackets_cons_of_not_isBracket {t : Token} {ts : List Token}
    (h : t.kind.isBracket = false) : brackets (t :: ts) = brackets ts :=
  List.filter_cons_of_neg (Bool.not_eq_true _ ▸ h)

/-- The token `cl` closes what `o` opens. -/
def Token.ClosedBy (o cl : Token) : Prop :=
  o.kind.closer?.map Parse.closerKind = some cl.kind

theorem Token.ClosedBy.isBracket {o cl : Token} (h : o.ClosedBy cl) :
    o.kind.isBracket ∧ cl.kind.isBracket := by
  obtain ⟨closer, ho, hcl⟩ := Option.map_eq_some_iff.mp h
  constructor
  · revert ho
    cases o.kind <;> first | exact fun _ => rfl | exact nofun
  · rw [← hcl]
    cases closer <;> rfl

theorem Token.ClosedBy.isCloser {o cl : Token} (h : o.ClosedBy cl) : cl.kind.isCloser := by
  obtain ⟨closer, -, hcl⟩ := Option.map_eq_some_iff.mp h
  rw [← hcl]
  cases closer <;> rfl

/-- Every opener is closed by a closer of its own, with nested brackets between them. -/
inductive Nested : List Token → Prop
  | nil : Nested []
  | group {o cl : Token} {inside behind : List Token} : o.ClosedBy cl → Nested inside →
      Nested behind → Nested (o :: inside ++ cl :: behind)

namespace Node

def span : Node → Span
  | block b => b.span
  | statement s => s.span
  | pipeline p => p.span
  | expression e => e.span
  | invocation i => i.span

/-- The token `o` is one that the group `n` starts with. -/
def OpenedBy (o : Token) : Node → Prop
  | block _ => o.kind = .openBrace
  | expression (.subexpression opener _ _) => o.kind.closer? = some .paren ∧ o.text = opener
  | expression (.hashtable _ _) => o.kind = .atBrace
  | _ => False

def isGroup : Node → Bool
  | block _ | expression (.subexpression _ _ _) | expression (.hashtable _ _) => true
  | _ => false

theorem OpenedBy.isOpener {n : Node} {o : Token} (h : n.OpenedBy o) : o.kind.isOpener := by
  unfold OpenedBy at h
  split at h
  case h_1 | h_3 => rw [h]; rfl
  case h_2 => exact TokenKind.isOpener_of_closer? h.1
  case h_4 => exact h.elim

theorem OpenedBy.isGroup {n : Node} {o : Token} (h : n.OpenedBy o) : n.isGroup := by
  unfold OpenedBy at h
  split at h
  case h_1 | h_2 | h_3 => rfl
  case h_4 => exact h.elim

/-- A group that spans from its opener `o` to its closer `cl`. -/
structure Encloses (o cl : Token) (n : Node) : Prop where
  opened : n.OpenedBy o
  closed : o.ClosedBy cl
  span_eq : n.span = ⟨o.start, cl.stop⟩

/-- If the node is a group, it spans from an opener among the brackets to the closer of this opener. -/
def Bracketed (bs : List Token) (n : Node) : Prop :=
  n.isGroup → ∃ before o inside cl behind,
    bs = before ++ o :: inside ++ cl :: behind ∧ Nested inside ∧ n.Encloses o cl

/-- The node `m` is `n` or stands somewhere in it. -/
inductive Within (m : Node) : Node → Prop
  | refl : Within m m
  | child {k n : Node} : k ∈ n.children → Within m k → Within m n

/-- All of a tree below a node, the node itself among it. -/
def All (P : Node → Prop) (n : Node) : Prop := ∀ m, Within m n → P m

theorem all_iff {P : Node → Prop} {n : Node} :
    n.All P ↔ P n ∧ ∀ k ∈ n.children, k.All P := by
  constructor
  · exact fun h => ⟨h n .refl, fun k hk m hm => h m (.child hk hm)⟩
  · rintro ⟨hn, hchildren⟩ m hm
    cases hm with
    | refl => exact hn
    | child hk hm => exact hchildren _ hk m hm

theorem All.mono {P Q : Node → Prop} {n : Node} (h : n.All P) (hPQ : ∀ m, P m → Q m) :
    n.All Q :=
  fun m hm => hPQ m (h m hm)

/-- A group stays where it is among more brackets. -/
theorem Bracketed.among {bs : List Token} {n : Node} (h : n.Bracketed bs) (as cs : List Token) :
    n.Bracketed (as ++ bs ++ cs) := by
  intro hn
  obtain ⟨before, o, inside, cl, behind, rfl, hinside, henc⟩ := h hn
  exact ⟨as ++ before, o, inside, cl, behind ++ cs, by simp, hinside, henc⟩

theorem bracketed_of_not_isGroup {bs : List Token} {n : Node} (h : n.isGroup = false) :
    n.Bracketed bs := by
  intro hn
  exact absurd (hn.symm.trans h) Bool.noConfusion

end Node

theorem Nested.append {as bs : List Token} (h : Nested as) (h' : Nested bs) :
    Nested (as ++ bs) := by
  induction h with
  | nil => exact h'
  | @group o cl inside behind hclosed hinside _ _ ih =>
      have heq : o :: inside ++ cl :: behind ++ bs = o :: inside ++ cl :: (behind ++ bs) := by simp
      rw [heq]
      exact .group hclosed hinside ih

end ScriptLint
