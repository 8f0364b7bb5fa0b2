import ScriptLint.Proofs.Syntax.Alone
import ScriptLint.Proofs.Syntax.Preorder

/-!
The normal form of trees: what is true of each node of a tree that has been parsed, although other trees can be
written down. It is told node by node, of what the node holds itself.
-/

namespace ScriptLint

namespace Expression

/-- Neither a sequence nor an array. -/
def isSingle : Expression → Bool
  | .sequence _ _ | .array _ _ => false
  | _ => true

/-- The items of an array are no arrays themselves. -/
def isArray : Expression → Bool
  | .array _ _ => true
  | _ => false

theorem isArray_of_isSingle {e : Expression} (h : e.isSingle) : e.isArray = false := by
  cases e <;> first | rfl | cases h

/-- A bare word that is neither a number nor an assignment. -/
def IsCommandWord (e : Expression) : Prop :=
  ∃ text span, e = .bareword text span ∧ Literal.isNumberLike text = false ∧
    ∀ operator ∈ Literal.assignmentOperators, ¬operator.toList <+: text.toList

end Expression

/-- The value is there, or else no byte is. -/
def Pipeline.IsValue (p : Pipeline) : Prop := p.stages = [] → p.span.start = p.span.stop

/-- A parameter has a name. -/
def Element.IsNamed : Element → Prop
  | .parameter name _ _ => name ≠ ""
  | .argument _ => True

/-- Without an operator a call starts with a word that names a command, and streams that are merged go nowhere
else. -/
structure Invocation.Shaped (i : Invocation) : Prop where
  head : i.operator = none → i.head.IsCommandWord
  elements : ∀ e ∈ i.elements, e.IsNamed
  redirections : ∀ r ∈ i.redirections, '&' ∈ r.operator.toList → r.target = none

namespace Node

/-- What holds of the node itself in a tree that has been parsed. -/
def Shaped : Node → Prop
  | expression (.sequence parts _) => 2 ≤ parts.length ∧ ∀ e ∈ parts, e.isSingle
  | expression (.array items _) => items ≠ [] ∧ ∀ e ∈ items, e.isArray = false
  | expression (.hashtable entries _) => ∀ e ∈ entries, e.value.IsValue
  | statement (.assignment _ _ value _) => value.IsValue
  | statement (.pipeline p) | statement (.flow _ (some p) _) => p.stages ≠ []
  | invocation i => i.Shaped
  | _ => True

/-- The pipelines right below the node are values, of an assignment or of the entries of a hashtable. -/
def hasValues : Node → Bool
  | statement (.assignment ..) | expression (.hashtable ..) => true
  | _ => false

/-- A pipeline without stages is a value that is missing. -/
theorem Shaped.missing {n : Node} (h : n.Shaped) {p : Pipeline} (hp : .pipeline p ∈ n.children)
    (hnone : p.stages = []) : n.hasValues ∧ p.span.start = p.span.stop := by
  match n with
  | statement (.pipeline q) =>
    obtain rfl : p = q := by simpa [children] using hp
    exact absurd hnone h
  | statement (.flow _ (some q) _) =>
    obtain rfl : p = q := by simpa [children] using hp
    exact absurd hnone h
  | statement (.assignment _ _ value _) =>
    obtain rfl : p = value := by simpa [children] using hp
    exact ⟨rfl, h hnone⟩
  | expression (.hashtable entries _) =>
    obtain ⟨e, he, rfl⟩ : ∃ e ∈ entries, p = e.value := by simpa [children, ofEntry] using hp
    exact ⟨rfl, h e he hnone⟩
  | pipeline q =>
    obtain ⟨s, -, hs⟩ := List.mem_map.mp hp
    cases s <;> cases hs
  | invocation i =>
    obtain hhead | hbehind := List.mem_cons.mp hp
    · cases hhead
    · obtain hmem | hmem := List.mem_append.mp hbehind
      · obtain ⟨e, -, he⟩ := List.mem_flatMap.mp hmem
        cases e <;> simp [ofElement] at he
      · obtain ⟨r, -, hr⟩ := List.mem_flatMap.mp hmem
        simp [ofRedirection] at hr
  | statement (.compound _ clauses _) =>
    obtain ⟨c, -, hc⟩ := List.mem_flatMap.mp hp
    simp [ofClause] at hc
  | statement (.function _ _ params _ _) => simp [children] at hp
  | block _ | statement (.flow _ none _) | statement (.trivia _ _) | expression (.scriptBlock _)
  | expression (.subexpression _ _ _) | expression (.array _ _) | expression (.sequence _ _)
  | expression (.bareword _ _) | expression (.stringLiteral _ _ _) | expression (.variable _ _ _)
  | expression (.typeLiteral _ _) => simp [children] at hp

end Node

namespace Lexer

variable {c : Char} {cs : List Char}

/-- An answer of the lexer that tells of a parameter is the one for a dash with a name behind it. -/
def Named (c : Char) (cs : List Char) (answer : TokenKind × Nat) : Prop :=
  ∀ colon, answer.1 = .parameter colon → Token.isDash c ∧ startsParameter cs ∧ answer = scanParameter cs

namespace Named

theorem of_ne {kind : TokenKind} {n : Nat} (h : ∀ colon, kind ≠ .parameter colon) : Named c cs (kind, n) :=
  fun colon hkind => absurd hkind (h colon)

theorem pair {p : Prop} [Decidable p] {a b : TokenKind × Nat} (ha : p → Named c cs a) (hb : Named c cs b) :
    Named c cs (if p then a else b) := by
  split
  case isTrue h => exact ha h
  case isFalse => exact hb

theorem plain {p : Prop} [Decidable p] {kind : TokenKind} {n : Nat} {b : TokenKind × Nat}
    (h : ∀ colon, kind ≠ .parameter colon) (hb : Named c cs b) :
    Named c cs (if p then (kind, n) else b) :=
  pair (fun _ => of_ne h) hb

theorem atSign : Named c cs (scanAt cs) := by
  cases cs with
  | nil => exact of_ne nofun
  | cons d cs => exact plain nofun (plain nofun (plain nofun (plain nofun (of_ne nofun))))

theorem dollar : Named c cs (scanDollar cs) := by
  cases cs with
  | nil => exact of_ne nofun
  | cons d cs => exact plain nofun (plain nofun (plain nofun (plain nofun (of_ne nofun))))

-- One step for each line of `scan`, in its order.
theorem scanned (c : Char) (cs : List Char) : Named c cs (scan c cs) := by
  unfold scan
  iterate 12 refine plain nofun ?_
  iterate 2 refine pair (fun _ => plain nofun (of_ne nofun)) ?_
  refine plain nofun (pair (fun _ => atSign) (pair (fun _ => dollar) ?_))
  iterate 4 refine plain nofun ?_
  exact pair (fun h _ _ => ⟨h.1, h.2, rfl⟩) (plain nofun (of_ne nofun))

end Named

end Lexer

/-- What stands behind a dash is a name if it does not start with a colon. -/
theorem Token.parameterName_ne_empty {t : Token} {c d : Char} {ds : List Char}
    (htext : t.text.toList = c :: d :: ds) (hc : isDash c) (hd : d ≠ ':') : t.parameterName ≠ "" := by
  rw [parameterName, htext]
  simp only [hc, if_true, ne_eq, String.ofList_eq_empty_iff]
  split
  case isTrue hcolon =>
    cases ds with
    | nil => exact absurd (Option.some.inj hcolon.2) hd
    | cons e es => simp
  case isFalse => simp

/-- The parameters of a script have names. -/
theorem parameterName_ne_empty_of_mem {source : String} {t : Token} (ht : t ∈ tokenize source)
    {colon : Bool} (h : t.kind = .parameter colon) : t.parameterName ≠ "" := by
  obtain ⟨before, c, behind, -, rfl⟩ := Lexer.exists_of_mem_tokensFrom ht
  obtain ⟨hdash, hstarts, hscan⟩ := Lexer.Named.scanned c behind colon h
  obtain ⟨n, hn⟩ := Nat.exists_eq_add_of_lt (hscan ▸ Lexer.scanParameter_pos hstarts)
  cases behind with
  | nil => cases hstarts
  | cons d ds =>
      have hd : d ≠ ':' := by
        rintro rfl
        rw [Lexer.startsParameter, List.head?_cons, Option.any_some] at hstarts
        exact absurd hstarts (by decide)
      have htext (offset : Nat) : (Lexer.token offset c (d :: ds)).text.toList = c :: d :: ds.take n := by
        rw [Lexer.toList_text_token, hn, Nat.zero_add, List.take_succ_cons]
      exact Token.parameterName_ne_empty (htext _) hdash hd

end ScriptLint
