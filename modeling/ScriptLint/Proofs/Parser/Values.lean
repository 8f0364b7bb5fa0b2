import Mathlib.Data.List.Sort
import ScriptLint.Proofs.Parser.Brackets
import ScriptLint.Proofs.Parser.Order

/-!
What becomes of strings and variables. In a script without diagnostics each of these tokens is read, and
what is read is kept, but for the bare keys of hashtables: they are dropped without a word. So the strings
and variables of the script are those of the tree and those of the bare keys, each one once; and the tree
has them in the order of the script but for the redirections of calls.
-/

namespace ScriptLint

open Cursor

theorem Token.value?_of_isAside {t : Token} (h : t.kind.isAside) : t.value? = none := by
  unfold value?
  split
  case h_1 hkind | h_2 hkind => simp [hkind, TokenKind.isAside] at h
  case h_3 => rfl

theorem Token.value?_of_isBracket {t : Token} (h : t.kind.isBracket) : t.value? = none := by
  unfold value?
  split
  case h_1 hkind | h_2 hkind =>
    simp [hkind, TokenKind.isBracket, TokenKind.isOpener, TokenKind.isCloser] at h
  case h_3 => rfl

namespace Part

/-- The strings and variables in a part. -/
def values (p : Part) : List Expression := p.below.filterMap Node.value?

theorem values_node (n : Node) : (node n).values = n.values := by
  rw [values, below_node, Node.values]

/-- What is no string and no variable has those of the parts below it. -/
theorem values_eq_flatMap {p : Part} (hp : ∀ n, p = node n → n.value? = none) :
    p.values = p.parts.flatMap values := by
  unfold values
  rw [← List.filterMap_flatMap]
  match p with
  | .node n => rw [below_eq, List.filterMap_cons_none (hp n rfl)]
  | .element e => rw [below_element]
  | .redirection r => rw [below_redirection]

end Part

/-- The strings and variables in an expression. -/
def Expression.values (e : Expression) : List Expression := (Node.expression e).values

/-- What has been read for a part has the strings and variables of the part and of what the part loses. -/
theorem Part.Holds.values_perm {p : Part} {qs : List Part} {lost : List Expression} (h : p.Holds qs lost)
    (hp : ∀ n, p = node n → n.value? = none) :
    (qs.flatMap values).Perm (p.values ++ lost.flatMap Expression.values) := by
  have hvalues := h.perm.flatMap_right values
  rw [List.flatMap_append, ← values_eq_flatMap hp, List.flatMap_map] at hvalues
  have hlost : (lost.flatMap fun e => values (expression e)) = lost.flatMap Expression.values :=
    congrArg (List.flatMap · lost) (funext fun e => values_node (.expression e))
  rwa [hlost] at hvalues

namespace Cursor

/-- The strings and variables in the bare keys of the hashtable that the cursor stands in. -/
def bareValues (c : Cursor) : List Expression := c.bareKeys.flatMap Expression.values

variable {c : Cursor} {t : Token} {ts : List Token}

theorem tablesFrom_cons_of_not_isBracket {size depth : Nat} (h : t.kind.isBracket = false) :
    tablesFrom size depth (t :: ts) = tablesFrom size depth ts := by
  have hkind : t.kind ≠ .atBrace := fun hk => by
    rw [hk] at h
    cases h
  rw [tablesFrom, if_neg hkind, List.nil_append, Parse.depthBehind_of_not_isBracket h]

end Cursor

/-- From `b` to `d` strings and variables are passed, and these are those of the parts `ps` and of the bare
keys of the hashtables passed. -/
def Tallies (b : Cursor) (ps : List Part) (d : Cursor) : Prop :=
  ∃ found tables, b.rest.filterMap Token.value? = found ++ d.rest.filterMap Token.value? ∧
    b.tables = tables ++ d.tables ∧
    found.Perm (ps.flatMap Part.values ++ tables.flatMap Cursor.bareValues)

namespace Tallies

variable {b c d : Cursor} {ps qs : List Part} {t : Token} {ts : List Token}

theorem refl (c : Cursor) : Tallies c [] c := ⟨[], [], rfl, rfl, .nil⟩

theorem append (h : Tallies b ps c) (h' : Tallies c qs d) : Tallies b (ps ++ qs) d := by
  obtain ⟨found, tables, hfound, htables, hperm⟩ := h
  obtain ⟨found', tables', hfound', htables', hperm'⟩ := h'
  refine ⟨found ++ found', tables ++ tables', ?_, ?_, ?_⟩
  · rw [hfound, hfound', List.append_assoc]
  · rw [htables, htables', List.append_assoc]
  · refine (hperm.append hperm').trans ?_
    rw [List.flatMap_append, List.flatMap_append, List.append_assoc, List.append_assoc]
    exact .append_left _ (List.perm_append_comm_assoc _ _ _)

/-- A token that is no bracket is passed, for a part that is a value if the token is one. -/
theorem token (hrest : c.rest = t :: ts) (ht : t.kind.isBracket = false)
    (hvalues : ps.flatMap Part.values = t.value?.toList) (hd : d.rest = ts) (hsize : d.size = c.size)
    (hdepth : d.depth = c.depth) : Tallies c ps d := by
  refine ⟨t.value?.toList, [], ?_, ?_, ?_⟩
  · rw [hrest, hd, List.filterMap_cons]
    cases t.value? <;> rfl
  · rw [Cursor.tables, Cursor.tables, hrest, hd, hsize, hdepth,
      Cursor.tablesFrom_cons_of_not_isBracket ht, List.nil_append]
  · rw [hvalues, List.flatMap_nil, List.append_nil]

/-- A token that no part is made of. -/
theorem aside (hrest : c.rest = t :: ts) (ht : t.kind.isAside) (hd : d.rest = ts)
    (hsize : d.size = c.size) (hdepth : d.depth = c.depth) : Tallies c [] d :=
  token hrest (TokenKind.not_isBracket_of_isAside ht) (by rw [Token.value?_of_isAside ht]; rfl) hd hsize
    hdepth

end Tallies

/-- Where a group is ahead, the hashtables ahead are the group itself, if it is one, and those behind its
opener. -/
theorem Cursor.tables_of_opener {c : Cursor} {o : Token} {ts : List Token} (hrest : c.rest = o :: ts)
    (ho : o.kind.isOpener) (hfaults : c.faults = #[]) :
    c.tables = (if o.kind = .atBrace then [c.inside o ts] else []) ++ (c.inside o ts).tables := by
  have hinside : c.inside o ts = ⟨ts, o.stop, c.size, c.depth + 1, #[]⟩ := by
    rw [inside, pass, Parse.isSpacing_of_isOpener ho, hfaults]
    rfl
  rw [hinside, tables, hrest, tablesFrom, Parse.depthBehind, if_pos ho]
  rfl

/-- Behind the closer of a group stand the hashtables that are ahead of it. -/
theorem Cursor.tables_of_closer {c e : Cursor} {o cl : Token} {ts us : List Token} (hrest : e.rest = cl :: us)
    (hcl : cl.kind.isCloser)
    (hdepth : e.depth = (c.inside o ts).depth) : e.tables = (c.outside (e.pass cl us)).tables := by
  have hopener : cl.kind.isOpener = false := by
    revert hcl
    cases cl.kind <;> first | exact fun _ => rfl | exact nofun
  have hkind : cl.kind ≠ .atBrace := fun hkind => by simp [hkind, TokenKind.isOpener] at hopener
  have hbehind : Parse.depthBehind e.depth cl.kind = c.depth := by
    simp [Parse.depthBehind, hopener, hcl, hdepth, inside]
  rw [tables, hrest, tablesFrom, if_neg hkind, List.nil_append, hbehind]
  rfl

/-- What stands in a hashtable and is not kept by it are its bare keys; no other group loses anything. -/
theorem Node.Gathers.lost_values {n : Node} {left : Nat} {c : Cursor} {o : Token} {ts : List Token}
    {qs : List Part} {lost : List Expression} (h : n.Gathers left (c.inside o ts) qs lost)
    (hn : n.OpenedBy o) (hleft : (c.inside o ts).depth + left = Parse.maxNesting) :
    lost.flatMap Expression.values =
      (if o.kind = .atBrace then [c.inside o ts] else []).flatMap Cursor.bareValues := by
  have hlevel : Parse.maxNesting - (c.inside o ts).depth = left := by omega
  rw [h.lost_eq]
  match n, hn with
  | .block _, hn =>
      simp [Node.isTable, show o.kind = .openBrace from hn]
  | .expression (.subexpression _ _ _), hn =>
      have hkind : o.kind ≠ .atBrace := fun hkind => by
        have hcloser := hn.1
        simp [hkind, TokenKind.closer?] at hcloser
      simp [Node.isTable, hkind]
  | .expression (.hashtable _ _), hn =>
      have hkind : o.kind = .atBrace := hn
      simp [Node.isTable, hkind, Cursor.bareValues, Cursor.bareKeys, hlevel]

/-- A group is passed with what stands in it, the bare keys of a hashtable included. -/
theorem Tallies.group {left : Nat} {c e : Cursor} {o cl : Token} {ts us : List Token} {n : Node}
    {qs : List Part} {lost : List Expression} (hrest : c.rest = o :: ts) (hn : n.Encloses o cl)
    (hcloser : e.rest = cl :: us) (hdepth : e.depth = (c.inside o ts).depth)
    (hfaults : (c.inside o ts).faults = #[])
    (hleft : (c.inside o ts).depth + left = Parse.maxNesting)
    (hholds : n.Gathers left (c.inside o ts) qs lost) (h : Tallies (c.inside o ts) qs e) :
    Tallies c [.node n] (c.outside (e.pass cl us)) := by
  obtain ⟨found, tables, hfound, htables, hperm⟩ := h
  obtain ⟨ho, hcl⟩ := hn.closed.isBracket
  have hvalues := hholds.values_perm fun m hm => by
    cases hm
    exact Node.value?_eq_none_of_not_isMark hn.opened.not_isMark
  rw [hholds.lost_values hn.opened hleft] at hvalues
  refine ⟨found, (if o.kind = .atBrace then [c.inside o ts] else []) ++ tables, ?_, ?_, ?_⟩
  · rw [hcloser, List.filterMap_cons_none (Token.value?_of_isBracket hcl)] at hfound
    rw [hrest, List.filterMap_cons_none (Token.value?_of_isBracket ho)]
    exact hfound
  · rw [Cursor.tables_of_opener hrest hn.opened.isOpener hfaults, htables,
      Cursor.tables_of_closer hcloser hn.closed.isCloser hdepth, List.append_assoc]
  · rw [List.flatMap_singleton, List.flatMap_append, ← List.append_assoc]
    exact hperm.trans (hvalues.append_right _)

/-- The key in front of the equals sign is kept with its value, the two behind it are not. -/
example : (bareKeys "@\x7b$a = $x; $y; 'z'\x7d").map Expression.span = [⟨11, 13⟩, ⟨15, 18⟩] := by
  decide +kernel

end ScriptLint
