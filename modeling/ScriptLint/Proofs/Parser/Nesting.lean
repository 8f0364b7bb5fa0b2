import Mathlib.Data.List.Chain
import ScriptLint.Proofs.Parser.Depth
import ScriptLint.Proofs.Parser.Reading

/-!
How deep the groups of a tree nest. A group takes one of the levels that were left in front of it, and a
group behind the last level is passed over and reported. So along every way down a tree the groups are no
more than the levels, but for one at its end that has been passed over.
-/

namespace ScriptLint

open Cursor

namespace Node

/-- The body of a function that has none: no byte of the script stands for it. -/
def isPlaceholder : Node → Bool
  | block ⟨[], span⟩ => span.start = span.stop
  | _ => false

/-- A group that is written in the script. -/
def isNested (n : Node) : Bool := n.isGroup && !n.isPlaceholder

/-- The group has been passed over, and one of the faults says so. -/
def PassedOver (faults : List Fault) (n : Node) : Prop :=
  n.children = [] ∧ ∃ limit, ⟨.nestingTooDeep limit, n.span⟩ ∈ faults

/-- The groups from `n` down use up no more than `left` levels, except for those passed over. -/
inductive Shallow (faults : List Fault) : Nat → Node → Prop
  | plain {left : Nat} {n : Node} : n.isNested = false →
      (∀ m ∈ n.children, Shallow faults left m) → Shallow faults left n
  | group {left : Nat} {n : Node} : (∀ m ∈ n.children, Shallow faults left m) →
      Shallow faults (left + 1) n
  | passedOver {n : Node} : n.PassedOver faults → Shallow faults 0 n

theorem plain_of_no_children {faults : List Fault} {left : Nat} {n : Node}
    (hn : n.isGroup = false) (hchildren : n.children = []) : Shallow faults left n :=
  .plain (by rw [isNested, hn, Bool.false_and]) (by simp [hchildren])

theorem countP_cons_le (n : Node) (path : List Node) :
    (n :: path).countP isNested ≤ path.countP isNested + 1 := by
  rw [List.countP_cons]
  split <;> omega

/-- On a way down that starts with `n` there are no more groups than levels, or there is one more and the
way ends with it. -/
theorem Shallow.countP_le {faults : List Fault} {left : Nat} {n : Node} (h : Shallow faults left n)
    {path : List Node} (hpath : List.IsChain (fun n m => m ∈ n.children) (n :: path)) :
    (n :: path).countP isNested ≤ left ∨ (n :: path).countP isNested ≤ left + 1 ∧
      ∃ m, (n :: path).getLast? = some m ∧ m.PassedOver faults := by
  induction h generalizing path with
  | plain hn _ ih =>
      rw [List.countP_cons_of_neg (by rw [hn]; exact Bool.false_ne_true)]
      cases path with
      | nil => exact .inl (Nat.zero_le _)
      | cons m path =>
          obtain ⟨hm, hpath⟩ := List.isChain_cons_cons.mp hpath
          rw [List.getLast?_cons_cons]
          exact ih m hm hpath
  | @group left n _ ih =>
      have hle := countP_cons_le n path
      cases path with
      | nil => exact .inl (Nat.le_trans hle (Nat.le_add_left 1 left))
      | cons m path =>
          obtain ⟨hm, hpath⟩ := List.isChain_cons_cons.mp hpath
          rw [List.getLast?_cons_cons]
          obtain hcount | ⟨hcount, hlast⟩ := ih m hm hpath
          · exact .inl (by omega)
          · exact .inr ⟨by omega, hlast⟩
  | @passedOver n hn =>
      cases path with
      | nil => exact .inr ⟨countP_cons_le n [], n, rfl, hn⟩
      | cons m path =>
          have hm := (List.isChain_cons_cons.mp hpath).1
          rw [hn.1] at hm
          exact absurd hm List.not_mem_nil

end Node

/-- What is read on a level uses up no more levels than there are left. -/
theorem Reads.shallow {faults : List Fault} {k : Level} {b d : Cursor} {ps : List Part}
    (h : Reads k b ps d) (hd : d.faults.toList ⊆ faults) :
    ∀ n ∈ ps.flatMap Part.nodes, n.Shallow faults k.left := by
  induction h with
  | nil | passing => exact fun _ hn => absurd hn List.not_mem_nil
  | append _ h' ih ih' =>
      rw [List.flatMap_append]
      intro n hn
      rcases List.mem_append.mp hn with hn | hn
      · exact ih (List.Subset.trans h'.faults_prefix.subset hd) n hn
      · exact ih' hd n hn
  | operand _ ht =>
      obtain ⟨-, hgroup, hchildren⟩ := Token.operand?_eq_some ht
      exact List.forall_mem_singleton.mpr (Node.plain_of_no_children hgroup hchildren)
  | unclosed | comment =>
      exact List.forall_mem_singleton.mpr (Node.plain_of_no_children rfl rfl)
  | @joint _ _ _ p _ _ hp ih =>
      have hparts := hp.holds.forall_nodes (ih hd)
      cases p with
      | node n =>
          rw [Part.flatMap_nodes_parts] at hparts
          have hn := Node.not_isGroup_of_isJoint (Part.isJoint_of_isJoint_node hp.joint)
          exact List.forall_mem_singleton.mpr
            (.plain (by rw [Node.isNested, hn, Bool.false_and]) hparts)
      -- neither an element nor a redirection is a node: there are only those in it
      | element e | redirection r => simpa [Part.parts, Part.rows, Part.nodes] using hparts
  | group _ _ _ hholds _ ih =>
      have hparts := hholds.forall_nodes (ih hd)
      rw [Part.flatMap_nodes_parts] at hparts
      exact List.forall_mem_singleton.mpr (.group hparts)
  | cutOff _ _ _ hholds _ ih =>
      have hparts := hholds.forall_nodes (ih (List.Subset.trans prefix_faults_report.subset hd))
      rw [Part.flatMap_nodes_parts] at hparts
      exact List.forall_mem_singleton.mpr (.group hparts)
  | @tooDeep _ _ _ _ _ n limit _ _ hchildren =>
      have hfault : ⟨.nestingTooDeep limit, n.span⟩ ∈ faults := hd (by simp [report])
      exact List.forall_mem_singleton.mpr (.passedOver ⟨hchildren, limit, hfault⟩)
  | bodiless =>
      refine List.forall_mem_singleton.mpr (.plain ?_ ?_)
      · simp [Node.isNested, Node.isPlaceholder, Span.empty]
      · simp [Node.children]

/-- Below the root of a tree there are the levels that a parse starts with. -/
theorem shallow_of_parse {source : String} {n : Node}
    (h : n ∈ (Node.block (parse source).tree.body).children) :
    n.Shallow (parse source).faults Parse.maxNesting := by
  obtain ⟨body, d, hreads, -, hparse⟩ := exists_reads source
  rw [hparse] at h ⊢
  refine hreads.shallow (List.Subset.refl _) n ?_
  rw [Part.flatMap_nodes_map_node Node.statement]
  exact h

/-- The diagnostic says that a group at this place nests too deep. -/
def Diagnostic.RefusesGroup (d : Diagnostic) (s : Span) : Prop :=
  d.rule = Check.nestingTooDeep.identity.id ∧ d.span = some s

theorem Node.PassedOver.exists_diagnostic {p : Parsed} {n : Node} (h : n.PassedOver p.faults) :
    ∃ d ∈ p.diagnostics, d.RefusesGroup n.span := by
  obtain ⟨-, limit, hfault⟩ := h
  exact ⟨_, List.mem_map_of_mem hfault, rfl, rfl⟩

/-- Groups nest 129 deep at most. On any way from the root of a tree down there are no more of them; one
that has 129 of them ends with the last, which is empty and is reported where it stands; and without such a
report there are 128 at most.

The bound is one on the recursion of a parse too. In `counted^[n] g` nothing but the counter of the cursor
keeps groups from being read inside of groups, `n` of them around each other and those further down as `g`
likes. Whatever `n` and `g` are, with `n` past 128, the run is the one of the parse: it never gets to `g`. -/
theorem nesting_bounded (source : String) :
    (∀ path : List Node,
      List.IsChain (fun n m => m ∈ n.children) (.block (parse source).tree.body :: path) →
        path.countP Node.isNested ≤ 129 ∧
        (path.countP Node.isNested = 129 → ∃ n, path.getLast? = some n ∧ n.children = [] ∧
          ∃ d ∈ (parse source).diagnostics, d.RefusesGroup n.span) ∧
        ((∀ d ∈ (parse source).diagnostics, d.rule ≠ Check.nestingTooDeep.identity.id) →
          path.countP Node.isNested ≤ 128)) ∧
      ∀ (g : Groups) (n : Nat), 128 < n →
        (Parse.statements (Parse.counted^[n] g) none).run (.ofSource source) = Parse.run source := by
  refine ⟨fun path hpath => ?_, fun _ _ hn => Parse.run_counted source hn⟩
  cases path with
  | nil => simp
  | cons n path =>
      obtain ⟨hn, hpath⟩ := List.isChain_cons_cons.mp hpath
      obtain hcount | ⟨hcount, m, hlast, hm⟩ := (shallow_of_parse hn).countP_le hpath
      · rw [Parse.maxNesting] at hcount
        exact ⟨by omega, by omega, fun _ => hcount⟩
      · obtain ⟨d, hd, hrefuses⟩ := hm.exists_diagnostic
        refine ⟨hcount, fun _ => ⟨m, hlast, hm.1, d, hd, hrefuses⟩, fun hnone => ?_⟩
        exact absurd hrefuses.1 (hnone d hd)

/-- The way down to the parentheses of a script that has nothing else. -/
theorem nesting_bounded_parentheses :
    let group : Expression := .subexpression "(" [] ⟨0, 2⟩
    let pipeline : Pipeline := ⟨[.expression group], ⟨0, 2⟩⟩
    let path : List Node := [.statement (.pipeline pipeline), .pipeline pipeline, .expression group]
    List.IsChain (fun n m => m ∈ n.children) (.block (parse "()").tree.body :: path) ∧
      path.countP Node.isNested = 1 ∧
      ((∀ d ∈ (parse "()").diagnostics, d.rule ≠ Check.nestingTooDeep.identity.id) →
        path.countP Node.isNested ≤ 128) := by
  intro group pipeline path
  have hbody : (parse "()").tree.body = ⟨[.pipeline pipeline], ⟨0, 2⟩⟩ := by
    with_unfolding_all rfl
  have hpath : List.IsChain (fun n m => m ∈ n.children) (.block (parse "()").tree.body :: path) := by
    simp [hbody, path, pipeline, Node.children, Node.ofStage]
  exact ⟨hpath, rfl, (((nesting_bounded "()").1 path hpath).2).2⟩

end ScriptLint
