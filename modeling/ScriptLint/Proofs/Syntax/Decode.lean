import ScriptLint.Proofs.Catalog.Json
import ScriptLint.Proofs.Syntax.Part
import ScriptLint.Proofs.Syntax.View
import ScriptLint.Syntax.Decode

/-!
Syntax trees are read back from JSON as they were written. A node is read by readers for the nodes in it,
whose values nest less deeply than its own; what such readers bring back is the induction hypothesis.
-/

namespace ScriptLint

open Json

namespace Encode

@[simp] theorem block?_eq (b? : Option Block) : block? b? = b?.map block := by
  cases b? <;> rfl

@[simp] theorem pipeline?_eq (p? : Option Pipeline) : pipeline? p? = p?.map pipeline := by
  cases p? <;> rfl

@[simp] theorem expression?_eq (e? : Option Expression) : expression? e? = e?.map expression := by
  cases e? <;> rfl

@[simp] theorem statements_eq (ss : List Statement) : statements ss = ss.map statement :=
  View.eq_map rfl (fun _ _ => rfl) ss

@[simp] theorem clauses_eq (cs : List Clause) : clauses cs = cs.map clause :=
  View.eq_map rfl (fun _ _ => rfl) cs

@[simp] theorem stages_eq (ss : List Stage) : stages ss = ss.map stage :=
  View.eq_map rfl (fun _ _ => rfl) ss

@[simp] theorem elements_eq (es : List Element) : elements es = es.map element :=
  View.eq_map rfl (fun _ _ => rfl) es

@[simp] theorem redirections_eq (rs : List Redirection) : redirections rs = rs.map redirection :=
  View.eq_map rfl (fun _ _ => rfl) rs

@[simp] theorem entries_eq (es : List Entry) : entries es = es.map entry :=
  View.eq_map rfl (fun _ _ => rfl) es

@[simp] theorem expressions_eq (es : List Expression) : expressions es = es.map expression :=
  View.eq_map rfl (fun _ _ => rfl) es

theorem isNull_block (b : Block) : (block b).isNull = false := by
  cases b
  rfl

theorem isNull_pipeline (p : Pipeline) : (pipeline p).isNull = false := by
  cases p
  rfl

theorem isNull_expression (e : Expression) : (expression e).isNull = false := by
  cases e <;> rfl

def invocationRow (i : Invocation) : List (String × Option Json) :=
  [("operator", i.operator.map fun o => .text o.key), ("head", some (expression i.head)),
    ("elements", some (.arr (i.elements.map element))),
    ("redirections", unlessNil (i.redirections.map redirection)), ("span", some i.span.toJson)]

def pipelineRow (p : Pipeline) : List (String × Option Json) :=
  [("elements", some (.arr (p.stages.map stage))), ("span", some p.span.toJson)]

def blockRow (b : Block) : List (String × Option Json) :=
  [("statements", some (.arr (b.statements.map statement))), ("span", some b.span.toJson)]

theorem pipeline_eq (p : Pipeline) : pipeline p = ofFields (row (pipelineRow p)) := by
  obtain ⟨ss, s⟩ := p
  rw [pipelineRow, ← stages_eq]
  rfl

theorem block_eq (b : Block) : block b = ofFields (row (blockRow b)) := by
  obtain ⟨ss, s⟩ := b
  rw [blockRow, ← statements_eq]
  rfl

end Encode

namespace Part

/-- The offsets of the part are 64 bits wide. -/
def Sized (p : Part) : Prop := p.span.Fits

theorem All.span {p : Part} (h : p.All Sized) : Span.ofJson? p.span.toJson = some p.span :=
  Span.ofJson?_toJson (all_iff.mp h).1

theorem All.of_mem {P : Part → Prop} {p q : Part} (h : p.All P) (hq : q ∈ p.parts) : q.All P :=
  (all_iff.mp h).2 q hq

theorem All.child {P : Part → Prop} {n m : Node} (h : (node n).All P) (hm : m ∈ n.children) : (node m).All P :=
  fun q hq => h q ((within_of_mem_children hm).trans hq)

end Part

/-- The readers bring back every node whose value nests less than `n` levels. -/
structure Decoders.Reads (d : Decoders) (n : Nat) : Prop where
  expression : ∀ e : Expression, (Encode.expression e).depth < n → (Part.expression e).All Part.Sized →
    d.expression (Encode.expression e) = some e
  statement : ∀ s : Statement, (Encode.statement s).depth < n → (Part.statement s).All Part.Sized →
    d.statement (Encode.statement s) = some s

theorem Decoders.Reads.mono {d : Decoders} {m n : Nat} (h : d.Reads n) (hm : m ≤ n) : d.Reads m where
  expression e he := h.expression e (Nat.lt_of_lt_of_le he hm)
  statement s hs := h.statement s (Nat.lt_of_lt_of_le hs hm)

theorem Decoders.Reads.below {d : Decoders} {m n : Nat} (h : d.Reads n) (hm : m < n) : d.Reads m :=
  h.mono (Nat.le_of_lt hm)

namespace Decode

theorem case?_bind {β : Type} {b : β} {names : List String} {name : String} {nested : Bool}
    {f : String → Option β} (hname : name ∈ names) (h : f name = some b) :
    (case? names nested (.text name) >>= f) = some b := by
  rw [case?, if_pos hname]
  exact h

variable {d : Decoders}

theorem redirection?_encode {r : Redirection} (hd : d.Reads (Encode.redirection r).depth)
    (h : (Part.redirection r).All Part.Sized) : redirection? d (Encode.redirection r) = some r := by
  obtain ⟨operator, target, s⟩ := r
  have hrow : Encode.redirection ⟨operator, target, s⟩ = ofFields (row [("operator", some (.text operator)),
      ("target", target.map Encode.expression), ("span", some s.toJson)]) := by
    cases target <;> rfl
  have hnodup : ["operator", "target", "span"].Nodup := by decide
  rw [hrow] at hd ⊢
  have htarget : ∀ e ∈ target, d.expression (Encode.expression e) = some e := by
    rintro e rfl
    exact hd.expression e (depth_lt_of_lookup "target" rfl)
      (h.of_mem (by simp [Part.parts, Part.rows, Node.ofRedirection]))
  rw [redirection?]
  refine fields?_bind rfl hnodup ?_
  refine get?_bind hnodup rfl rfl ?_
  refine getOption?_bind hnodup rfl Encode.isNull_expression htarget ?_
  exact get?_bind hnodup rfl h.span rfl

theorem element?_encode {e : Element} (hd : d.Reads (Encode.element e).depth)
    (h : (Part.element e).All Part.Sized) : element? d (Encode.element e) = some e := by
  cases e with
  | parameter name argument s =>
      have hrow : Encode.element (.parameter name argument s) = ofFields (row [("kind", some (.text "Parameter")),
          ("name", some (.text name)), ("argument", argument.map Encode.expression), ("span", some s.toJson)]) := by
        cases argument <;> rfl
      have hnodup : ["kind", "name", "argument", "span"].Nodup := by decide
      rw [hrow] at hd ⊢
      have hargument : ∀ e ∈ argument, d.expression (Encode.expression e) = some e := by
        rintro e rfl
        exact hd.expression e (depth_lt_of_lookup "argument" rfl)
          (h.of_mem (by simp [Part.parts, Part.rows, Node.ofElement]))
      rw [element?]
      refine tagged?_bind hnodup (case?_bind (by decide) ?_)
      refine fields?_bind rfl hnodup.of_cons ?_
      refine get?_bind hnodup.of_cons rfl rfl ?_
      refine getOption?_bind hnodup.of_cons rfl Encode.isNull_expression hargument ?_
      exact get?_bind hnodup.of_cons rfl h.span rfl
  | argument value =>
      have hrow : Encode.element (.argument value) = ofFields (row [("kind", some (.text "Argument")),
          ("value", some (Encode.expression value))]) := rfl
      have hnodup : ["kind", "value"].Nodup := by decide
      rw [hrow] at hd ⊢
      have hvalue := hd.expression value (depth_lt_of_lookup "value" rfl)
        (h.of_mem (by simp [Part.parts, Part.rows, Node.ofElement]))
      rw [element?]
      refine tagged?_bind hnodup (case?_bind (by decide) ?_)
      refine fields?_bind rfl hnodup.of_cons ?_
      exact get?_bind hnodup.of_cons rfl hvalue rfl

theorem operator?_encode (o : CallOperator) : operator? (.text o.key) = some o :=
  CallOperator.ofKey?_key o

theorem invocation?_encode {i : Invocation} (hd : d.Reads (ofFields (row (Encode.invocationRow i))).depth)
    (h : (Part.invocation i).All Part.Sized) :
    invocation? d (ofFields (row (Encode.invocationRow i))) = some i := by
  obtain ⟨operator, head, es, rs, s⟩ := i
  have hnodup : ["operator", "head", "elements", "redirections", "span"].Nodup := by decide
  have hhead : d.expression (Encode.expression head) = some head :=
    hd.expression head (depth_lt_of_lookup "head" rfl) (h.child (by simp [Node.children]))
  have helements : (es.map Encode.element).mapM (element? d) = some es :=
    mapM_map_eq_some fun e he => element?_encode
      (hd.below (depth_lt_of_mem "elements" rfl he))
      (h.of_mem (by simp [Part.parts, Part.rows, he]))
  have hredirections : ∀ r ∈ rs, redirection? d (Encode.redirection r) = some r :=
    fun r hr => redirection?_encode (hd.below (depth_lt_of_mem_unlessNil "redirections" rfl hr))
      (h.of_mem (by simp [Part.parts, Part.rows, hr]))
  rw [invocation?]
  refine fields?_bind rfl hnodup ?_
  refine getOption?_bind hnodup rfl (fun _ => rfl) (fun o _ => operator?_encode o) ?_
  refine get?_bind hnodup rfl hhead ?_
  refine get?_bind hnodup rfl helements ?_
  refine getOr?_nil_bind hnodup rfl hredirections ?_
  exact get?_bind hnodup rfl h.span rfl

theorem stage?_encode {s : Stage} (hd : d.Reads (Encode.stage s).depth) (h : (Part.stage s).All Part.Sized) :
    stage? d (Encode.stage s) = some s := by
  cases s with
  | command i =>
      have hrow : Encode.stage (.command i) =
          ofFields (row (("kind", some (.text "Command")) :: Encode.invocationRow i)) := by
        obtain ⟨operator, head, es, rs, s⟩ := i
        rw [Encode.invocationRow, ← Encode.elements_eq, ← Encode.redirections_eq]
        cases operator <;> cases rs <;> rfl
      have hnodup : ["kind", "operator", "head", "elements", "redirections", "span"].Nodup := by decide
      rw [hrow] at hd ⊢
      have hi := invocation?_encode (hd.mono (depth_row_le_cons _)) h
      rw [stage?]
      refine tagged?_bind hnodup (case?_bind (by decide) ?_)
      exact Option.bind_eq_some_iff.mpr ⟨i, hi, rfl⟩
  | expression e =>
      have hrow : Encode.stage (.expression e) = ofFields (row [("kind", some (.text "Expression")),
          ("expression", some (Encode.expression e))]) := rfl
      have hnodup : ["kind", "expression"].Nodup := by decide
      rw [hrow] at hd ⊢
      have he := hd.expression e (depth_lt_of_lookup "expression" rfl) h
      rw [stage?]
      refine tagged?_bind hnodup (case?_bind (by decide) ?_)
      refine fields?_bind rfl hnodup.of_cons ?_
      exact get?_bind hnodup.of_cons rfl he rfl

theorem pipeline?_encode {p : Pipeline} (hd : d.Reads (Encode.pipeline p).depth)
    (h : (Part.pipeline p).All Part.Sized) : pipeline? d (Encode.pipeline p) = some p := by
  obtain ⟨ss, s⟩ := p
  have hnodup : ["elements", "span"].Nodup := by decide
  rw [Encode.pipeline_eq] at hd ⊢
  have hstages : (ss.map Encode.stage).mapM (stage? d) = some ss :=
    mapM_map_eq_some fun s hs => stage?_encode
      (hd.below (depth_lt_of_mem "elements" rfl hs))
      (h.child (List.mem_map_of_mem hs))
  rw [pipeline?]
  refine fields?_bind rfl hnodup ?_
  refine get?_bind hnodup rfl hstages ?_
  exact get?_bind hnodup rfl h.span rfl

/-- A block is read back by whatever reads its statements back. -/
theorem block?_encode {b : Block} {statement : Json → Option Statement}
    (hstatement : ∀ s ∈ b.statements, statement (Encode.statement s) = some s)
    (h : (Part.block b).All Part.Sized) : block? statement (Encode.block b) = some b := by
  obtain ⟨ss, s⟩ := b
  have hnodup : ["statements", "span"].Nodup := by decide
  rw [Encode.block_eq, block?]
  refine fields?_bind rfl hnodup ?_
  refine get?_bind hnodup rfl (mapM_map_eq_some hstatement) ?_
  exact get?_bind hnodup rfl h.span rfl

theorem block?_encode_of_reads {b : Block} (hd : d.Reads (Encode.block b).depth)
    (h : (Part.block b).All Part.Sized) : block? d.statement (Encode.block b) = some b := by
  rw [Encode.block_eq] at hd
  exact block?_encode (fun s hs => hd.statement s (depth_lt_of_mem "statements" rfl hs)
    (h.child (List.mem_map_of_mem hs))) h

theorem clause?_encode {c : Clause} (hd : d.Reads (Encode.clause c).depth)
    (h : ∀ n ∈ Node.ofClause c, (Part.node n).All Part.Sized) : clause? d (Encode.clause c) = some c := by
  obtain ⟨keyword, types, condition, body⟩ := c
  have hrow : Encode.clause ⟨keyword, types, condition, body⟩ = ofFields (row [("keyword", some (.text keyword)),
      ("types", unlessNil (types.map .text)), ("condition", condition.map Encode.expression),
      ("body", body.map Encode.block)]) := by
    cases types <;> cases condition <;> cases body <;> rfl
  have hnodup : ["keyword", "types", "condition", "body"].Nodup := by decide
  rw [hrow] at hd ⊢
  have hcondition : ∀ e ∈ condition, d.expression (Encode.expression e) = some e := by
    rintro e rfl
    exact hd.expression e (depth_lt_of_lookup "condition" rfl) (h _ (by simp [Node.ofClause]))
  have hbody : ∀ b ∈ body, block? d.statement (Encode.block b) = some b := by
    rintro b rfl
    exact block?_encode_of_reads (hd.below (depth_lt_of_lookup "body" rfl))
      (h _ (by simp [Node.ofClause]))
  rw [clause?]
  refine fields?_bind rfl hnodup ?_
  refine get?_bind hnodup rfl rfl ?_
  refine getOr?_nil_bind hnodup rfl (fun _ _ => rfl) ?_
  refine getOption?_bind hnodup rfl Encode.isNull_expression hcondition ?_
  exact getOption?_bind hnodup rfl Encode.isNull_block hbody rfl

theorem keyValue?_encode {e : Entry} (hd : d.Reads (Encode.entry e).depth)
    (h : ∀ n ∈ Node.ofEntry e, (Part.node n).All Part.Sized) : keyValue? d (Encode.entry e) = some e := by
  obtain ⟨key, value⟩ := e
  have hrow : Encode.entry ⟨key, value⟩ = ofFields (row [("key", some (Encode.expression key)),
      ("value", some (Encode.pipeline value))]) := rfl
  have hnodup : ["key", "value"].Nodup := by decide
  rw [hrow] at hd ⊢
  have hkey := hd.expression key (depth_lt_of_lookup "key" rfl) (h _ (by simp [Node.ofEntry]))
  have hvalue := pipeline?_encode (hd.below (depth_lt_of_lookup "value" rfl))
    (h (.pipeline value) (by simp [Node.ofEntry]))
  rw [keyValue?]
  refine fields?_bind rfl hnodup ?_
  refine get?_bind hnodup rfl hkey ?_
  exact get?_bind hnodup rfl hvalue rfl

section Statement

variable {nested : Bool}

theorem statement?_pipeline {p : Pipeline} (hd : d.Reads (Encode.statement (.pipeline p)).depth)
    (h : (Part.statement (.pipeline p)).All Part.Sized) :
    statement? d nested (Encode.statement (.pipeline p)) = some (.pipeline p) := by
  have hrow : Encode.statement (.pipeline p) =
      ofFields (row (("kind", some (.text "Pipeline")) :: Encode.pipelineRow p)) := by
    obtain ⟨ss, s⟩ := p
    rw [Encode.pipelineRow, ← Encode.stages_eq]
    rfl
  have hnodup : ["kind", "elements", "span"].Nodup := by decide
  rw [hrow] at hd ⊢
  have hinner := hd.mono (depth_row_le_cons _)
  rw [← Encode.pipeline_eq] at hinner
  have hp := pipeline?_encode hinner (h.child (by simp [Node.children]))
  rw [Encode.pipeline_eq] at hp
  rw [statement?]
  refine tagged?_bind hnodup (case?_bind (by decide) ?_)
  exact Option.bind_eq_some_iff.mpr ⟨p, hp, rfl⟩

theorem statement?_assignment {target : Expression} {operator : String} {value : Pipeline} {s : Span}
    (hd : d.Reads (Encode.statement (.assignment target operator value s)).depth)
    (h : (Part.statement (.assignment target operator value s)).All Part.Sized) :
    statement? d nested (Encode.statement (.assignment target operator value s)) =
      some (.assignment target operator value s) := by
  have hrow : Encode.statement (.assignment target operator value s) = ofFields (row [
      ("kind", some (.text "Assignment")), ("target", some (Encode.expression target)),
      ("operator", some (.text operator)), ("value", some (Encode.pipeline value)),
      ("span", some s.toJson)]) := rfl
  have hnodup : ["kind", "target", "operator", "value", "span"].Nodup := by decide
  rw [hrow] at hd ⊢
  have htarget := hd.expression target (depth_lt_of_lookup "target" rfl)
    (h.child (by simp [Node.children]))
  have hvalue := pipeline?_encode (hd.below (depth_lt_of_lookup "value" rfl))
    (h.child (by simp [Node.children]))
  rw [statement?]
  refine tagged?_bind hnodup (case?_bind (by decide) ?_)
  refine fields?_bind rfl hnodup.of_cons ?_
  refine get?_bind hnodup.of_cons rfl htarget ?_
  refine get?_bind hnodup.of_cons rfl rfl ?_
  refine get?_bind hnodup.of_cons rfl hvalue ?_
  exact get?_bind hnodup.of_cons rfl h.span rfl

theorem statement?_function {keyword name : String} {params : Option Expression} {body : Block} {s : Span}
    (hd : d.Reads (Encode.statement (.function keyword name params body s)).depth)
    (h : (Part.statement (.function keyword name params body s)).All Part.Sized) :
    statement? d nested (Encode.statement (.function keyword name params body s)) =
      some (.function keyword name params body s) := by
  have hrow : Encode.statement (.function keyword name params body s) = ofFields (row [
      ("kind", some (.text "Function")), ("keyword", some (.text keyword)), ("name", some (.text name)),
      ("params", params.map Encode.expression), ("body", some (Encode.block body)),
      ("span", some s.toJson)]) := by
    cases params <;> rfl
  have hnodup : ["kind", "keyword", "name", "params", "body", "span"].Nodup := by decide
  rw [hrow] at hd ⊢
  have hparams : ∀ e ∈ params, d.expression (Encode.expression e) = some e := by
    rintro e rfl
    exact hd.expression e (depth_lt_of_lookup "params" rfl) (h.child (by simp [Node.children]))
  have hbody := block?_encode_of_reads (hd.below (depth_lt_of_lookup "body" rfl))
    (h.child (by simp [Node.children]))
  rw [statement?]
  refine tagged?_bind hnodup (case?_bind (by decide) ?_)
  refine fields?_bind rfl hnodup.of_cons ?_
  refine get?_bind hnodup.of_cons rfl rfl ?_
  refine get?_bind hnodup.of_cons rfl rfl ?_
  refine getOption?_bind hnodup.of_cons rfl Encode.isNull_expression hparams ?_
  refine get?_bind hnodup.of_cons rfl hbody ?_
  exact get?_bind hnodup.of_cons rfl h.span rfl

theorem statement?_compound {keyword : String} {cs : List Clause} {s : Span}
    (hd : d.Reads (Encode.statement (.compound keyword cs s)).depth)
    (h : (Part.statement (.compound keyword cs s)).All Part.Sized) :
    statement? d nested (Encode.statement (.compound keyword cs s)) = some (.compound keyword cs s) := by
  have hrow : Encode.statement (.compound keyword cs s) = ofFields (row [
      ("kind", some (.text "Compound")), ("keyword", some (.text keyword)),
      ("clauses", some (.arr (cs.map Encode.clause))), ("span", some s.toJson)]) := by
    rw [← Encode.clauses_eq]
    rfl
  have hnodup : ["kind", "keyword", "clauses", "span"].Nodup := by decide
  rw [hrow] at hd ⊢
  have hclauses : (cs.map Encode.clause).mapM (clause? d) = some cs :=
    mapM_map_eq_some fun c hc => clause?_encode
      (hd.below (depth_lt_of_mem "clauses" rfl hc))
      fun n hn => h.child (List.mem_flatMap.mpr ⟨c, hc, hn⟩)
  rw [statement?]
  refine tagged?_bind hnodup (case?_bind (by decide) ?_)
  refine fields?_bind rfl hnodup.of_cons ?_
  refine get?_bind hnodup.of_cons rfl rfl ?_
  refine get?_bind hnodup.of_cons rfl hclauses ?_
  exact get?_bind hnodup.of_cons rfl h.span rfl

theorem statement?_flow {keyword : String} {value : Option Pipeline} {s : Span}
    (hd : d.Reads (Encode.statement (.flow keyword value s)).depth)
    (h : (Part.statement (.flow keyword value s)).All Part.Sized) :
    statement? d nested (Encode.statement (.flow keyword value s)) = some (.flow keyword value s) := by
  have hrow : Encode.statement (.flow keyword value s) = ofFields (row [
      ("kind", some (.text "Flow")), ("keyword", some (.text keyword)),
      ("value", value.map Encode.pipeline), ("span", some s.toJson)]) := by
    cases value <;> rfl
  have hnodup : ["kind", "keyword", "value", "span"].Nodup := by decide
  rw [hrow] at hd ⊢
  have hvalue : ∀ p ∈ value, pipeline? d (Encode.pipeline p) = some p := by
    rintro p rfl
    exact pipeline?_encode (hd.below (depth_lt_of_lookup "value" rfl))
      (h.child (by simp [Node.children]))
  rw [statement?]
  refine tagged?_bind hnodup (case?_bind (by decide) ?_)
  refine fields?_bind rfl hnodup.of_cons ?_
  refine get?_bind hnodup.of_cons rfl rfl ?_
  refine getOption?_bind hnodup.of_cons rfl Encode.isNull_pipeline hvalue ?_
  exact get?_bind hnodup.of_cons rfl h.span rfl

theorem statement?_trivia {text : String} {s : Span} (h : (Part.statement (.trivia text s)).All Part.Sized) :
    statement? d nested (Encode.statement (.trivia text s)) = some (.trivia text s) := by
  have hrow : Encode.statement (.trivia text s) = ofFields (row [("kind", some (.text "Trivia")),
      ("text", some (.text text)), ("span", some s.toJson)]) := rfl
  have hnodup : ["kind", "text", "span"].Nodup := by decide
  rw [hrow, statement?]
  refine tagged?_bind hnodup (case?_bind (by decide) ?_)
  refine fields?_bind rfl hnodup.of_cons ?_
  refine get?_bind hnodup.of_cons rfl rfl ?_
  exact get?_bind hnodup.of_cons rfl h.span rfl

theorem statement?_encode {s : Statement} (hd : d.Reads (Encode.statement s).depth)
    (h : (Part.statement s).All Part.Sized) : statement? d nested (Encode.statement s) = some s := by
  cases s with
  | pipeline p => exact statement?_pipeline hd h
  | assignment target operator value s => exact statement?_assignment hd h
  | function keyword name params body s => exact statement?_function hd h
  | compound keyword cs s => exact statement?_compound hd h
  | flow keyword value s => exact statement?_flow hd h
  | trivia text s => exact statement?_trivia h

end Statement

section Expression

theorem expression?_bareword {text : String} {s : Span}
    (h : (Part.expression (.bareword text s)).All Part.Sized) :
    expression? d (Encode.expression (.bareword text s)) = some (.bareword text s) := by
  have hrow : Encode.expression (.bareword text s) = ofFields (row [("kind", some (.text "Bareword")),
      ("text", some (.text text)), ("span", some s.toJson)]) := rfl
  have hnodup : ["kind", "text", "span"].Nodup := by decide
  rw [hrow, expression?]
  refine tagged?_bind hnodup (case?_bind (by decide) ?_)
  refine fields?_bind rfl hnodup.of_cons ?_
  refine get?_bind hnodup.of_cons rfl rfl ?_
  exact get?_bind hnodup.of_cons rfl h.span rfl

theorem expression?_stringLiteral {value : String} {expandable : Bool} {s : Span}
    (h : (Part.expression (.stringLiteral value expandable s)).All Part.Sized) :
    expression? d (Encode.expression (.stringLiteral value expandable s)) = some (.stringLiteral value expandable s) := by
  have hrow : Encode.expression (.stringLiteral value expandable s) = ofFields (row [("kind", some (.text "StringLiteral")),
      ("value", some (.text value)), ("expandable", some (.bool expandable)), ("span", some s.toJson)]) := rfl
  have hnodup : ["kind", "value", "expandable", "span"].Nodup := by decide
  rw [hrow, expression?]
  refine tagged?_bind hnodup (case?_bind (by decide) ?_)
  refine fields?_bind rfl hnodup.of_cons ?_
  refine get?_bind hnodup.of_cons rfl rfl ?_
  refine get?_bind hnodup.of_cons rfl rfl ?_
  exact get?_bind hnodup.of_cons rfl h.span rfl

theorem expression?_variable {name : String} {splatted : Bool} {s : Span}
    (h : (Part.expression (.variable name splatted s)).All Part.Sized) :
    expression? d (Encode.expression (.variable name splatted s)) = some (.variable name splatted s) := by
  have hrow : Encode.expression (.variable name splatted s) = ofFields (row [("kind", some (.text "Variable")),
      ("name", some (.text name)), ("splatted", some (.bool splatted)), ("span", some s.toJson)]) := rfl
  have hnodup : ["kind", "name", "splatted", "span"].Nodup := by decide
  rw [hrow, expression?]
  refine tagged?_bind hnodup (case?_bind (by decide) ?_)
  refine fields?_bind rfl hnodup.of_cons ?_
  refine get?_bind hnodup.of_cons rfl rfl ?_
  refine get?_bind hnodup.of_cons rfl rfl ?_
  exact get?_bind hnodup.of_cons rfl h.span rfl

theorem expression?_typeLiteral {text : String} {s : Span}
    (h : (Part.expression (.typeLiteral text s)).All Part.Sized) :
    expression? d (Encode.expression (.typeLiteral text s)) = some (.typeLiteral text s) := by
  have hrow : Encode.expression (.typeLiteral text s) = ofFields (row [("kind", some (.text "TypeLiteral")),
      ("text", some (.text text)), ("span", some s.toJson)]) := rfl
  have hnodup : ["kind", "text", "span"].Nodup := by decide
  rw [hrow, expression?]
  refine tagged?_bind hnodup (case?_bind (by decide) ?_)
  refine fields?_bind rfl hnodup.of_cons ?_
  refine get?_bind hnodup.of_cons rfl rfl ?_
  exact get?_bind hnodup.of_cons rfl h.span rfl

theorem expression?_scriptBlock {b : Block} (hd : d.Reads (Encode.expression (.scriptBlock b)).depth)
    (h : (Part.expression (.scriptBlock b)).All Part.Sized) :
    expression? d (Encode.expression (.scriptBlock b)) = some (.scriptBlock b) := by
  have hrow : Encode.expression (.scriptBlock b) = ofFields (row [("kind", some (.text "ScriptBlock")),
      ("block", some (Encode.block b))]) := rfl
  have hnodup : ["kind", "block"].Nodup := by decide
  rw [hrow] at hd ⊢
  have hb := block?_encode_of_reads (hd.below (depth_lt_of_lookup "block" rfl))
    (h.child (by simp [Node.children]))
  rw [expression?]
  refine tagged?_bind hnodup (case?_bind (by decide) ?_)
  refine fields?_bind rfl hnodup.of_cons ?_
  exact get?_bind hnodup.of_cons rfl hb rfl

theorem expression?_subexpression {opener : String} {ss : List Statement} {s : Span}
    (hd : d.Reads (Encode.expression (.subexpression opener ss s)).depth)
    (h : (Part.expression (.subexpression opener ss s)).All Part.Sized) :
    expression? d (Encode.expression (.subexpression opener ss s)) = some (.subexpression opener ss s) := by
  have hrow : Encode.expression (.subexpression opener ss s) = ofFields (row [
      ("kind", some (.text "SubExpression")), ("opener", some (.text opener)),
      ("statements", some (.arr (ss.map Encode.statement))), ("span", some s.toJson)]) := by
    rw [← Encode.statements_eq]
    rfl
  have hnodup : ["kind", "opener", "statements", "span"].Nodup := by decide
  rw [hrow] at hd ⊢
  have hstatements : (ss.map Encode.statement).mapM d.statement = some ss :=
    mapM_map_eq_some fun a ha => hd.statement a (depth_lt_of_mem "statements" rfl ha)
      (h.child (List.mem_map_of_mem ha))
  rw [expression?]
  refine tagged?_bind hnodup (case?_bind (by decide) ?_)
  refine fields?_bind rfl hnodup.of_cons ?_
  refine get?_bind hnodup.of_cons rfl rfl ?_
  refine get?_bind hnodup.of_cons rfl hstatements ?_
  exact get?_bind hnodup.of_cons rfl h.span rfl

theorem expression?_hashtable {es : List Entry} {s : Span}
    (hd : d.Reads (Encode.expression (.hashtable es s)).depth)
    (h : (Part.expression (.hashtable es s)).All Part.Sized) :
    expression? d (Encode.expression (.hashtable es s)) = some (.hashtable es s) := by
  have hrow : Encode.expression (.hashtable es s) = ofFields (row [("kind", some (.text "Hashtable")),
      ("entries", some (.arr (es.map Encode.entry))), ("span", some s.toJson)]) := by
    rw [← Encode.entries_eq]
    rfl
  have hnodup : ["kind", "entries", "span"].Nodup := by decide
  rw [hrow] at hd ⊢
  have hentries : (es.map Encode.entry).mapM (keyValue? d) = some es :=
    mapM_map_eq_some fun e he => keyValue?_encode
      (hd.below (depth_lt_of_mem "entries" rfl he))
      fun n hn => h.child (List.mem_flatMap.mpr ⟨e, he, hn⟩)
  rw [expression?]
  refine tagged?_bind hnodup (case?_bind (by decide) ?_)
  refine fields?_bind rfl hnodup.of_cons ?_
  refine get?_bind hnodup.of_cons rfl hentries ?_
  exact get?_bind hnodup.of_cons rfl h.span rfl

theorem expression?_array {es : List Expression} {s : Span}
    (hd : d.Reads (Encode.expression (.array es s)).depth)
    (h : (Part.expression (.array es s)).All Part.Sized) :
    expression? d (Encode.expression (.array es s)) = some (.array es s) := by
  have hrow : Encode.expression (.array es s) = ofFields (row [("kind", some (.text "Array")),
      ("items", some (.arr (es.map Encode.expression))), ("span", some s.toJson)]) := by
    rw [← Encode.expressions_eq]
    rfl
  have hnodup : ["kind", "items", "span"].Nodup := by decide
  rw [hrow] at hd ⊢
  have hitems : (es.map Encode.expression).mapM d.expression = some es :=
    mapM_map_eq_some fun e he => hd.expression e (depth_lt_of_mem "items" rfl he)
      (h.child (List.mem_map_of_mem he))
  rw [expression?]
  refine tagged?_bind hnodup (case?_bind (by decide) ?_)
  refine fields?_bind rfl hnodup.of_cons ?_
  refine get?_bind hnodup.of_cons rfl hitems ?_
  exact get?_bind hnodup.of_cons rfl h.span rfl

theorem expression?_sequence {es : List Expression} {s : Span}
    (hd : d.Reads (Encode.expression (.sequence es s)).depth)
    (h : (Part.expression (.sequence es s)).All Part.Sized) :
    expression? d (Encode.expression (.sequence es s)) = some (.sequence es s) := by
  have hrow : Encode.expression (.sequence es s) = ofFields (row [("kind", some (.text "Sequence")),
      ("parts", some (.arr (es.map Encode.expression))), ("span", some s.toJson)]) := by
    rw [← Encode.expressions_eq]
    rfl
  have hnodup : ["kind", "parts", "span"].Nodup := by decide
  rw [hrow] at hd ⊢
  have hparts : (es.map Encode.expression).mapM d.expression = some es :=
    mapM_map_eq_some fun e he => hd.expression e (depth_lt_of_mem "parts" rfl he)
      (h.child (List.mem_map_of_mem he))
  rw [expression?]
  refine tagged?_bind hnodup (case?_bind (by decide) ?_)
  refine fields?_bind rfl hnodup.of_cons ?_
  refine get?_bind hnodup.of_cons rfl hparts ?_
  exact get?_bind hnodup.of_cons rfl h.span rfl

theorem expression?_encode : ∀ {e : Expression}, d.Reads (Encode.expression e).depth →
    (Part.expression e).All Part.Sized → expression? d (Encode.expression e) = some e
  | .bareword _ _, _, h => expression?_bareword h
  | .stringLiteral _ _ _, _, h => expression?_stringLiteral h
  | .variable _ _ _, _, h => expression?_variable h
  | .typeLiteral _ _, _, h => expression?_typeLiteral h
  | .scriptBlock _, hd, h => expression?_scriptBlock hd h
  | .subexpression _ _ _, hd, h => expression?_subexpression hd h
  | .hashtable _ _, hd, h => expression?_hashtable hd h
  | .array _ _, hd, h => expression?_array hd h
  | .sequence _ _, hd, h => expression?_sequence hd h

end Expression

/-- As many levels as the readers have, they read back. -/
theorem reads_decoders (n : Nat) : (decoders n).Reads n := by
  induction n with
  | zero => exact ⟨nofun, nofun⟩
  | succ n ih =>
      constructor
      · intro e he h
        exact expression?_encode (ih.mono (Nat.le_of_lt_succ he)) h
      · intro s hs h
        exact statement?_encode (ih.mono (Nat.le_of_lt_succ hs)) h

/-- All of a script is read back with as many levels as its value has. -/
theorem block?_decoders {b : Block} {n : Nat} (hn : (Encode.block b).depth < n)
    (h : (Part.block b).All Part.Sized) :
    block? (statement? (decoders n) false) (Encode.block b) = some b := by
  have hd := (reads_decoders n).below hn
  rw [Encode.block_eq] at hd
  refine block?_encode (fun s hs => ?_) h
  exact statement?_encode (hd.below (depth_lt_of_mem "statements" rfl hs))
    (h.child (List.mem_map_of_mem hs))

end Decode

namespace Tree

/-- The offsets in the tree are 64 bits wide, as offsets are. -/
def Fits (t : Tree) : Prop := (Part.block t.body).All Part.Sized

theorem ofJson?_toJson {t : Tree} (h : t.Fits) : ofJson? t.toJson = some t := by
  have hrow : t.toJson = ofFields (row [("body", some (Encode.block t.body))]) := rfl
  have hnodup : ["body"].Nodup := by decide
  rw [hrow, ofJson?]
  refine fields?_bind rfl hnodup ?_
  exact get?_bind hnodup rfl (Decode.block?_decoders (depth_lt_of_lookup "body" rfl) h) rfl

end Tree

end ScriptLint
