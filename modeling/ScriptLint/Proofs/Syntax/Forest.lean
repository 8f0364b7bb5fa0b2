import ScriptLint.Proofs.Syntax.Brackets

/-!
What a parse without faults makes of tokens. `Forest ts ns us` says how the tokens ahead of `us` among
`ts` were grouped to the nodes `ns`, with every token accounted for: it is an operand, it bounds a group,
or it is one of those that a statement is written with beside them. Words may have been cut on the way.

What is known of a clean parse follows from its forest by induction, without a look at the parse.
-/

namespace ScriptLint

/-- The tokens that no group is written with, and no operand that must not be lost. -/
def TokenKind.isAside : TokenKind → Bool
  | .variable | .string _ => false
  | k => !k.isBracket

theorem TokenKind.not_isBracket_of_isAside {k : TokenKind} (h : k.isAside) :
    k.isBracket = false := by
  cases k <;> first | rfl | exact absurd h nofun

/-- The operand that a token is by itself. -/
def Token.operand? (t : Token) : Option Expression :=
  match t.kind with
  | .word | .parameter _ | .comma | .redirection => some t.bareword
  | .string false => some t.stringLiteral
  | .variable => some t.variableReference
  | .typeLiteral => some t.typeLiteral
  | _ => none

theorem Token.operand?_eq_some {t : Token} {e : Expression} (h : t.operand? = some e) :
    t.kind.isBracket = false ∧ (Node.expression e).isGroup = false ∧
      (Node.expression e).children = [] := by
  unfold operand? at h
  split at h
  case h_8 => exact absurd h nofun
  all_goals
    obtain rfl := Option.some.inj h
    rename_i hkind
    rw [hkind]
    exact ⟨rfl, rfl, rfl⟩

/-- The node is made of the nodes below it and of nothing else: it is no group and no operand. -/
def Node.isJoint : Node → Bool
  | expression (.scriptBlock _) | expression (.array _ _) | expression (.sequence _ _) => true
  | expression _ | block _ => false
  | statement _ | pipeline _ | invocation _ => true

theorem Node.not_isGroup_of_isJoint {n : Node} (h : n.isJoint) : n.isGroup = false := by
  unfold isGroup
  split <;> first | rfl | exact absurd h nofun

inductive Forest : List Token → List Node → List Token → Prop
  | nil {ts : List Token} : Forest ts [] ts
  | aside {t : Token} {ts us : List Token} {ns : List Node} : t.kind.isAside → Forest ts ns us →
      Forest (t :: ts) ns us
  | cut {t : Token} {ts us : List Token} {ns : List Node} {n : Nat} : t.kind = .word →
      Forest ((t.cut n).1 :: (t.cut n).2 :: ts) ns us → Forest (t :: ts) ns us
  | operand {t : Token} {e : Expression} {ts us : List Token} {ns : List Node} :
      t.operand? = some e → Forest ts ns us → Forest (t :: ts) (.expression e :: ns) us
  | group {o cl : Token} {n : Node} {ts us vs : List Token} {ms ns : List Node} :
      n.Encloses o cl → Forest ts ms (cl :: us) → ms.Perm n.children → Forest us ns vs →
      Forest (o :: ts) (n :: ns) vs
  | joint {n : Node} {ts us vs : List Token} {ms ns : List Node} :
      n.isJoint → Forest ts ms us → ms.Perm n.children → Forest us ns vs → Forest ts (n :: ns) vs
  /-- The key of a hashtable is not kept if no value follows it. -/
  | key {e : Expression} {ts us vs : List Token} {ns : List Node} :
      Forest ts [.expression e] us → Forest us ns vs → Forest ts ns vs

namespace Forest

variable {ts us vs : List Token} {ns ms ms' : List Node}

theorem append (h : Forest ts ns us) (h' : Forest us ms vs) : Forest ts (ns ++ ms) vs := by
  induction h with
  | nil => exact h'
  | aside ht _ ih => exact .aside ht (ih h')
  | cut ht _ ih => exact .cut ht (ih h')
  | operand ht _ ih => exact .operand ht (ih h')
  | group henc hinside hperm _ _ ih => exact .group henc hinside hperm (ih h')
  | joint hn hparts hperm _ _ ih => exact .joint hn hparts hperm (ih h')
  | key he _ _ ih => exact .key he (ih h')

/-- Any expression among the nodes may be taken for a key that is not kept. -/
theorem drop {e : Expression} (h : Forest ts ns us) (hns : ns = ms ++ .expression e :: ms') :
    Forest ts (ms ++ ms') us := by
  induction h generalizing ms with
  | nil => simp at hns
  | aside ht _ ih => exact .aside ht (ih hns)
  | cut ht _ ih => exact .cut ht (ih hns)
  | operand ht hbehind ih =>
      rcases List.cons_eq_append_iff.mp hns with ⟨rfl, h⟩ | ⟨ms, rfl, h⟩
      · cases h
        exact .key (.operand ht .nil) hbehind
      · exact .operand ht (ih h)
  | group henc hinside hperm hbehind _ ih =>
      rcases List.cons_eq_append_iff.mp hns with ⟨rfl, h⟩ | ⟨ms, rfl, h⟩
      · cases h
        exact .key (.group henc hinside hperm .nil) hbehind
      · exact .group henc hinside hperm (ih h)
  | joint hn hparts hperm hbehind _ ih =>
      rcases List.cons_eq_append_iff.mp hns with ⟨rfl, h⟩ | ⟨ms, rfl, h⟩
      · cases h
        exact .key (.joint hn hparts hperm .nil) hbehind
      · exact .joint hn hparts hperm (ih h)
  | key he _ _ ih => exact .key he (ih hns)

theorem drop_all {lost : List Expression} (h : Forest ts ns us)
    (hperm : ns.Perm (ms ++ lost.map .expression)) : ∃ ms', ms'.Perm ms ∧ Forest ts ms' us := by
  induction lost generalizing ns with
  | nil => exact ⟨ns, by simpa using hperm, h⟩
  | cons e lost ih =>
      have hmem : Node.expression e ∈ ns := hperm.mem_iff.mpr (by simp)
      obtain ⟨front, behind, rfl⟩ := List.append_of_mem hmem
      have hrest : (.expression e :: (front ++ behind)).Perm
          (.expression e :: (ms ++ lost.map .expression)) :=
        List.perm_middle.symm.trans (hperm.trans List.perm_middle)
      exact ih (h.drop rfl) (List.perm_cons _ |>.mp hrest)

/-- A string that is not closed is in no forest. -/
theorem mem_of_unterminated (h : Forest ts ns us) {t : Token} (ht : t ∈ ts)
    (hkind : t.kind = .string true) : t ∈ us := by
  induction h with
  | nil => exact ht
  | aside haside _ ih =>
      rcases List.mem_cons.mp ht with rfl | ht
      · rw [hkind] at haside
        exact absurd haside nofun
      · exact ih ht
  | cut hword _ ih =>
      rcases List.mem_cons.mp ht with rfl | ht
      · exact absurd (hword.symm.trans hkind) nofun
      · exact ih (.tail _ (.tail _ ht))
  | operand hoperand _ ih =>
      rcases List.mem_cons.mp ht with rfl | ht
      · rw [Token.operand?, hkind] at hoperand
        exact absurd hoperand nofun
      · exact ih ht
  | group henc _ _ _ ihinside ihbehind =>
      obtain ⟨ho, hcl⟩ := henc.closed.isBracket
      rcases List.mem_cons.mp ht with rfl | ht
      · rw [hkind] at ho
        exact absurd ho nofun
      · rcases List.mem_cons.mp (ihinside ht) with rfl | ht
        · rw [hkind] at hcl
          exact absurd hcl nofun
        · exact ihbehind ht
  | joint _ _ _ _ ihparts ihbehind => exact ihbehind (ihparts ht)
  | key _ _ ihkey ihbehind => exact ihbehind (ihkey ht)

/-- The brackets that a forest has passed are nested, and its groups stand where they do. -/
theorem nested (h : Forest ts ns us) :
    ∃ bs, brackets ts = bs ++ brackets us ∧ Nested bs ∧ ∀ n ∈ ns, n.All (Node.Bracketed bs) := by
  induction h with
  | nil => exact ⟨[], rfl, .nil, fun n hn => absurd hn List.not_mem_nil⟩
  | aside ht _ ih =>
      rw [brackets_cons_of_not_isBracket (TokenKind.not_isBracket_of_isAside ht)]
      exact ih
  | @cut t _ _ _ _ ht _ ih =>
      have hword : t.kind.isBracket = false := by rw [ht]; rfl
      rw [brackets_cons_of_not_isBracket hword]
      exact ih
  | operand ht _ ih =>
      obtain ⟨hkind, hgroup, hchildren⟩ := Token.operand?_eq_some ht
      obtain ⟨bs, hbs, hnested, hns⟩ := ih
      rw [brackets_cons_of_not_isBracket hkind]
      refine ⟨bs, hbs, hnested, List.forall_mem_cons.mpr ⟨Node.all_iff.mpr ⟨?_, ?_⟩, hns⟩⟩
      · exact Node.bracketed_of_not_isGroup hgroup
      · rw [hchildren]
        exact fun k hk => absurd hk List.not_mem_nil
  | @group o cl n _ _ _ _ _ henc _ hperm _ ihinside ihbehind =>
      obtain ⟨inside, hinside, hnested, hms⟩ := ihinside
      obtain ⟨behind, hbehind, hnested', hns⟩ := ihbehind
      obtain ⟨ho, hcl⟩ := henc.closed.isBracket
      refine ⟨o :: inside ++ cl :: behind, ?_, .group henc.closed hnested hnested', ?_⟩
      · rw [brackets_cons_of_isBracket ho, hinside, brackets_cons_of_isBracket hcl, hbehind]
        simp
      -- the group is the first pair of brackets; the groups in it lie between the two
      refine List.forall_mem_cons.mpr ⟨Node.all_iff.mpr ⟨?_, ?_⟩, ?_⟩
      · exact fun _ => ⟨[], o, inside, cl, behind, rfl, hnested, henc⟩
      · intro k hk
        refine (hms k (hperm.mem_iff.mpr hk)).mono fun m hm => ?_
        exact hm.among [o] (cl :: behind)
      · intro k hk
        refine (hns k hk).mono fun m hm => ?_
        have heq : o :: inside ++ cl :: behind = (o :: inside ++ [cl]) ++ behind ++ [] := by simp
        rw [heq]
        exact hm.among _ _
  | @joint n _ _ _ _ _ hn _ hperm _ ihparts ihbehind =>
      obtain ⟨bs, hbs, hnested, hms⟩ := ihparts
      obtain ⟨behind, hbehind, hnested', hns⟩ := ihbehind
      refine ⟨bs ++ behind, ?_, hnested.append hnested', ?_⟩
      · rw [hbs, hbehind, List.append_assoc]
      refine List.forall_mem_cons.mpr ⟨Node.all_iff.mpr ⟨?_, ?_⟩, ?_⟩
      · exact Node.bracketed_of_not_isGroup (Node.not_isGroup_of_isJoint hn)
      · intro k hk
        refine (hms k (hperm.mem_iff.mpr hk)).mono fun m hm => ?_
        exact hm.among [] behind
      · intro k hk
        refine (hns k hk).mono fun m hm => ?_
        rw [← List.append_nil (bs ++ behind)]
        exact hm.among bs []
  | key _ _ ihkey ihbehind =>
      obtain ⟨bs, hbs, hnested, _⟩ := ihkey
      obtain ⟨behind, hbehind, hnested', hns⟩ := ihbehind
      refine ⟨bs ++ behind, ?_, hnested.append hnested', ?_⟩
      · rw [hbs, hbehind, List.append_assoc]
      · intro k hk
        refine (hns k hk).mono fun m hm => ?_
        rw [← List.append_nil (bs ++ behind)]
        exact hm.among bs []

end Forest

end ScriptLint
