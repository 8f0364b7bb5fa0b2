import ScriptLint.Proofs.Parser.Keys
import ScriptLint.Proofs.Parser.Movement
import ScriptLint.Proofs.Syntax.Forest
import ScriptLint.Proofs.Syntax.Part

/-!
What a parse reads, in any script. `Reads k b ps d` says that the way from `b` to `d` leads past the parts
`ps`, one behind the other, on the level `k` of nesting, and how every one of them was made: out of a
token, out of the parts that were read on its stretch of the way, or between the opener and the closer of
a group. What else is passed carries no operand, or it is reported; the closer of the group around is
never reported, and an opener only where entries are read.

It is a grammar of all runs, with and without faults. What is known of the places of parts, of what they
say and of their order follows from it by induction, without a look at the parse.
-/

namespace ScriptLint

namespace Part

/-- The part is made of the parts below it and of nothing else. -/
def isJoint : Part → Bool
  | statement (.trivia _ _) => false
  | node n => n.isJoint
  | element _ | redirection _ => true

theorem isJoint_of_isJoint_node {n : Node} (h : (node n).isJoint) : n.isJoint := by
  unfold isJoint at h
  split at h
  case h_1 => cases h
  case h_2 hn => cases hn; exact h
  case h_3 hn | h_4 hn => cases hn

/-- The parts `qs` have been read for `p`, which keeps them in its rows, all but the `lost` ones. -/
structure Holds (p : Part) (qs : List Part) (lost : List Expression) : Prop where
  sublist : ∀ row ∈ p.rows, row.Sublist qs
  perm : qs.Perm (p.parts ++ lost.map expression)

/-- What is known besides of the two parts that start with a token of their own. A call starts in front of
all that is in it, a bare name apart; the operator of a redirection is the token that it starts with. -/
def Fits (p : Part) (b : Cursor) (qs : List Part) (c : Cursor) : Prop :=
  match p with
  | invocation i => i.span.start < c.lastEnd ∧ ∃ behind, qs = expression i.head :: behind ∧
      (i.span.start < i.head.span.start ∨ ∃ text s, i.head = .bareword text s) ∧
      ∀ q ∈ behind, i.span.start < q.span.start
  | redirection r => ∃ t ts, b.rest = t :: ts ∧ r.operator = t.text ∧ t.stop ≤ r.span.stop
  | _ => True

/-- Where a part stops that is made of others, when it has been read up to `c`: with the last token that counts.
But what is one other part and nothing else stops with it, and so does a statement that its last part ends; and
where a call has a head that runs to the end of the script, the call runs there too. -/
def Stops (p : Part) (c : Cursor) : Prop :=
  match p with
  | statement (.pipeline _) | expression (.scriptBlock _) | element (.argument _) => True
  | statement (.function _ _ _ body s) => s.stop = body.span.stop
  | statement (.assignment _ _ value s) | statement (.flow _ (some value) s) => s.stop = value.span.stop
  | invocation i => i.span.stop = if i.head.span.stop = c.size then c.size else c.lastEnd
  | p => p.span.stop = c.lastEnd

/-- The part `p` is made of `qs`, which have been read on the way from `b` to `c`. -/
structure Joins (p : Part) (b : Cursor) (qs : List Part) (c : Cursor) : Prop where
  joint : p.isJoint
  holds : p.Holds qs []
  start_eq : p.span.start = b.offset
  start_le_stop : p.span.start ≤ p.span.stop
  lastEnd_le : c.lastEnd ≤ p.span.stop
  stop_eq : p.span.stop = c.lastEnd ∨ ∃ q ∈ qs, p.span.stop = q.span.stop
  stops : p.Stops c
  fits : p.Fits b qs c

theorem Holds.subset {p : Part} {qs : List Part} {lost : List Expression} (h : p.Holds qs lost)
    {q : Part} (hq : q ∈ p.parts) : q ∈ qs := by
  obtain ⟨row, hrow, hq⟩ := List.mem_flatten.mp hq
  exact (h.sublist row hrow).subset hq

/-- What holds of all nodes that have been read for a part holds of those in it. -/
theorem Holds.forall_nodes {p : Part} {qs : List Part} {lost : List Expression} {P : Node → Prop}
    (h : p.Holds qs lost) (hqs : ∀ n ∈ qs.flatMap nodes, P n) : ∀ n ∈ p.parts.flatMap nodes, P n := by
  intro n hn
  obtain ⟨q, hq, hn⟩ := List.mem_flatMap.mp hn
  exact hqs n (List.mem_flatMap.mpr ⟨q, h.subset hq, hn⟩)

/-- What a part holds stands in an order in which what has been read for it stands. -/
theorem Holds.rows_pairwise {p : Part} {qs : List Part} {lost : List Expression}
    {R : Part → Part → Prop} (h : p.Holds qs lost) (hqs : qs.Pairwise R) :
    ∀ row ∈ p.rows, row.Pairwise R :=
  fun row hrow => hqs.sublist (h.sublist row hrow)

/-- Of a part with one row all that it holds stands in this row. -/
theorem holds_of_rows_eq {p : Part} {qs : List Part} (h : p.rows = [qs]) : p.Holds qs [] where
  sublist := by simp [h]
  perm := by simp [parts, h]

end Part

namespace Node

def isTable : Node → Bool
  | expression (.hashtable _ _) => true
  | _ => false

/-- The parts `qs` have been read for the group `n`, whose inside starts at `b`. Only a hashtable loses any of
them, and these are its bare keys. -/
structure Gathers (n : Node) (left : Nat) (b : Cursor) (qs : List Part) (lost : List Expression) : Prop
    extends (Part.node n).Holds qs lost where
  lost_eq : lost = if n.isTable then Parse.bareKeys (Parse.groups left) b else []

/-- A group of which `o` is the opener, and whose closer is missing: it spans to the end of the script. -/
structure Lacks (closer : Closer) (o : Token) (size : Nat) (n : Node) : Prop where
  opened : n.OpenedBy o
  closer_eq : o.kind.closer? = some closer
  span_eq : n.span = ⟨o.start, size⟩

end Node

namespace Cursor

/-- How deep in groups something is read. -/
structure Level where
  /-- How many more groups may be opened around each other. -/
  left : Nat
  /-- The kind of token that opened the group around. -/
  around : Option TokenKind

namespace Level

/-- The closer of the group around. -/
def closer? (k : Level) : Option Closer := k.around.bind TokenKind.closer?

/-- A token of this kind may belong nowhere: it does not close the group around, and outside a hashtable
it opens none and is no blank or comment. -/
structure Stray (k : Level) (kind : TokenKind) : Prop where
  not_closer : k.closer?.map Parse.closerKind ≠ some kind
  in_table : kind.isOpener ∨ kind.isTrivia → k.around = some .atBrace

end Level

/-- From `c` to `d` tokens of any kind are passed. -/
inductive Skips : Cursor → Cursor → Prop
  | refl {c : Cursor} : Skips c c
  | pass {c d : Cursor} {t : Token} {ts : List Token} : c.rest = t :: ts →
      Skips (c.pass t ts) d → Skips c d

theorem Skips.reaches {c d : Cursor} (h : Skips c d) (hc : c.Sound) : Reaches c d := by
  induction h with
  | refl => exact Reaches.refl hc
  | pass hrest _ ih =>
      have hpass := hc.reaches_pass hrest
      exact hpass.trans (ih hpass.sound)

theorem Skips.faults_eq {c d : Cursor} (h : Skips c d) : d.faults = c.faults := by
  induction h with
  | refl => rfl
  | pass _ _ ih => exact ih

/-- The cursor inside the group that the token `o` ahead opens, and behind it. -/
def inside (c : Cursor) (o : Token) (ts : List Token) : Cursor :=
  { c.pass o ts with depth := c.depth + 1 }

/-- The cursor behind a group that is left at `e`, as deep as it was in front of the group. -/
def outside (c e : Cursor) : Cursor := { e with depth := c.depth }

@[simp] theorem offset_report (c : Cursor) (problem : Problem) (s : Span) :
    (c.report problem s).offset = c.offset := rfl

@[simp] theorem offset_inside (c : Cursor) (o : Token) (ts : List Token) :
    (c.inside o ts).offset = (c.pass o ts).offset := rfl

@[simp] theorem offset_outside (c e : Cursor) : (c.outside e).offset = e.offset := rfl

@[simp] theorem lastEnd_outside (c e : Cursor) : (c.outside e).lastEnd = e.lastEnd := rfl

/-- A cursor that has reported something has a fault. -/
theorem faults_report_ne {c : Cursor} {problem : Problem} {s : Span} :
    (c.report problem s).faults ≠ #[] := by
  simp [report]

theorem prefix_faults_report {c : Cursor} {problem : Problem} {s : Span} :
    c.faults.toList <+: (c.report problem s).faults.toList := by
  rw [report, Array.toList_push]
  exact List.prefix_append _ _

/-- A step past something that no part is made of. -/
inductive Passing (k : Level) : Cursor → Cursor → Prop
  /-- A token that carries no operand. -/
  | aside {c : Cursor} {t : Token} {ts : List Token} : c.rest = t :: ts → t.kind.isAside →
      Passing k c (c.pass t ts)
  /-- Such a token that is left behind as if it were not there. -/
  | leave {c : Cursor} {t : Token} {ts : List Token} : c.rest = t :: ts → t.kind.isAside →
      Passing k c { c with rest := ts }
  | cut {c : Cursor} {t : Token} {ts : List Token} {head tail : String} : c.rest = t :: ts →
      t.kind = .word → t.text = head ++ tail → head ≠ "" → tail ≠ "" →
      Passing k c
        { c with rest := (t.cut head.utf8ByteSize).1 :: (t.cut head.utf8ByteSize).2 :: ts }
  /-- What belongs nowhere is reported. -/
  | stray {c : Cursor} {t : Token} {ts : List Token} : c.rest = t :: ts → k.Stray t.kind →
      Passing k c ((c.pass t ts).report (.unexpectedToken t.text) t.span)
  /-- So is a bar with nothing behind it, where its stage would start. -/
  | lacking {c : Cursor} : Passing k c (c.report (.unexpectedToken "|") (.empty c.offset))

theorem Sound.offset_leave {c : Cursor} {t : Token} {ts : List Token} (hc : c.Sound)
    (h : c.rest = t :: ts) : offset { c with rest := ts } = t.stop :=
  offset_eq_of_tiles (c := { c with rest := ts }) (hc.tiles_tail h)

theorem Sound.reaches_leave {c : Cursor} {t : Token} {ts : List Token} (hc : c.Sound)
    (h : c.rest = t :: ts) : Reaches c { c with rest := ts } := by
  have hoffset := hc.offset_leave h
  have hstart := offset_eq_start h
  have hlt := hc.start_lt_stop h
  have hlast := hc.lastEnd_le
  refine ⟨⟨?_, ?_⟩, rfl, rfl, by omega, Nat.le_refl _⟩
  · rw [hoffset]
    exact hc.tiles_tail h
  · rw [hoffset]
    show c.lastEnd ≤ t.stop
    omega

theorem Reaches.report {c d : Cursor} (h : Reaches c d) (problem : Problem) (s : Span) :
    Reaches c (d.report problem s) :=
  h.trans (h.sound.reaches_report problem s)

/-- A token ahead starts where the cursor is, and stops where it is behind the token. -/
theorem Sound.bounds {c : Cursor} {t : Token} {ts : List Token} (hc : c.Sound)
    (h : c.rest = t :: ts) :
    c.offset = t.start ∧ t.start < t.stop ∧ (c.pass t ts).offset = t.stop :=
  ⟨offset_eq_start h, hc.start_lt_stop h, hc.offset_pass h⟩

/-- Behind a token ahead a byte has been passed. -/
theorem Sound.offset_lt_pass {c : Cursor} {t : Token} {ts : List Token} (hc : c.Sound)
    (h : c.rest = t :: ts) : c.offset < (c.pass t ts).offset := by
  have := hc.bounds h
  omega

/-- No token counts that ends behind the one passed. -/
theorem Sound.lastEnd_pass_le {c : Cursor} {t : Token} {ts : List Token} (hc : c.Sound)
    (h : c.rest = t :: ts) : (c.pass t ts).lastEnd ≤ t.stop :=
  hc.offset_pass h ▸ (hc.reaches_pass h).sound.lastEnd_le

/-- At the end of a script no byte is ahead. -/
theorem offset_of_rest_nil {c : Cursor} (h : c.rest = []) : c.offset = c.size := by
  rw [offset, h]

theorem Sound.inside {c : Cursor} {o : Token} {ts : List Token} (hc : c.Sound)
    (h : c.rest = o :: ts) : (c.inside o ts).Sound :=
  ⟨(hc.reaches_pass h).sound.tiles, (hc.reaches_pass h).sound.lastEnd_le⟩

/-- The way through a group leads out of it as deep as it led in. -/
theorem Sound.reaches_outside {c e : Cursor} {o : Token} {ts : List Token} (hc : c.Sound)
    (h : c.rest = o :: ts) (he : Reaches (c.inside o ts) e) : Reaches c (c.outside e) := by
  have hpass := hc.reaches_pass h
  exact ⟨⟨he.sound.tiles, he.sound.lastEnd_le⟩, he.size_eq.trans hpass.size_eq, rfl,
    Nat.le_trans hpass.offset_le he.offset_le, Nat.le_trans hpass.lastEnd_le he.lastEnd_le⟩

theorem Passing.reaches {k : Level} {c d : Cursor} (h : Passing k c d) (hc : c.Sound) : Reaches c d := by
  cases h with
  | aside hrest => exact hc.reaches_pass hrest
  | leave hrest => exact hc.reaches_leave hrest
  | cut hrest _ htext hhead htail => exact hc.reaches_cut hrest htext hhead htail
  | stray hrest => exact (hc.reaches_pass hrest).report _ _
  | lacking => exact (Reaches.refl hc).report _ _

end Cursor

open Cursor

inductive Reads : Level → Cursor → List Part → Cursor → Prop
  | nil {k : Level} {c : Cursor} : Reads k c [] c
  | passing {k : Level} {c d : Cursor} : Passing k c d → Reads k c [] d
  | append {k : Level} {b c d : Cursor} {ps qs : List Part} : Reads k b ps c → Reads k c qs d →
      Reads k b (ps ++ qs) d
  | operand {k : Level} {c : Cursor} {t : Token} {e : Expression} {ts : List Token} :
      c.rest = t :: ts → t.operand? = some e → Reads k c [.expression e] (c.pass t ts)
  /-- A string without its closing quote. -/
  | unclosed {k : Level} {c : Cursor} {t : Token} {ts : List Token} :
      c.rest = t :: ts → t.kind = .string true →
      Reads k c [.expression t.stringLiteral]
        ((c.pass t ts).report (.unterminatedString t.quote) t.span)
  | comment {k : Level} {c : Cursor} {t : Token} {ts : List Token} : c.rest = t :: ts →
      t.kind = .comment → Reads k c [.statement (.trivia t.text t.span)] (c.pass t ts)
  | joint {k : Level} {b c : Cursor} {p : Part} {qs : List Part} : Reads k b qs c →
      p.Joins b qs c → Reads k b [p] c
  | group {left : Nat} {around : Option TokenKind} {c e : Cursor} {o cl : Token}
      {ts us : List Token} {n : Node} {qs : List Part} {lost : List Expression} :
      c.rest = o :: ts → n.Encloses o cl → Reads ⟨left, some o.kind⟩ (c.inside o ts) qs e →
      n.Gathers left (c.inside o ts) qs lost → e.rest = cl :: us →
      Reads ⟨left + 1, around⟩ c [.node n] (c.outside (e.pass cl us))
  /-- A group without a closer, which ends with the script. -/
  | cutOff {left : Nat} {around : Option TokenKind} {c e : Cursor} {o : Token} {ts : List Token}
      {n : Node} {closer : Closer} {qs : List Part} {lost : List Expression} :
      c.rest = o :: ts → n.Lacks closer o e.size → Reads ⟨left, some o.kind⟩ (c.inside o ts) qs e →
      n.Gathers left (c.inside o ts) qs lost → e.rest = [] →
      Reads ⟨left + 1, around⟩ c [.node n]
        ((c.outside e).report (.missingCloser closer) (.empty e.size))
  /-- A group past the last level of nesting, which is passed over up to its closer. -/
  | tooDeep {around : Option TokenKind} {c e : Cursor} {o : Token} {ts : List Token} {n : Node}
      {limit : Nat} : c.rest = o :: ts → n.OpenedBy o → n.children = [] →
      n.span = ⟨o.start, e.offset⟩ → Skips (c.pass o ts) e →
      e.rest = c.rest.drop ((Parse.groupLength? 0 c.rest).getD c.rest.length) →
      Reads ⟨0, around⟩ c [.node n] (e.report (.nestingTooDeep limit) n.span)
  /-- The body of a function that has none. -/
  | bodiless {k : Level} {c : Cursor} {text : String} :
      Reads k c [.block ⟨[], .empty c.offset⟩] (c.report (.unexpectedToken text) (.empty c.offset))

namespace Reads

variable {k : Level} {b c d : Cursor} {ps : List Part}

/-- What follows may read nothing. -/
theorem on (h : Reads k b ps c) (h' : Reads k c [] d) : Reads k b ps d := by
  simpa using h.append h'

/-- No fault is taken back. -/
theorem faults_prefix (h : Reads k b ps d) : b.faults.toList <+: d.faults.toList := by
  induction h with
  | nil | operand | comment => exact List.prefix_rfl
  | passing hpassing =>
      cases hpassing with
      | aside | leave | cut => exact List.prefix_rfl
      | stray | lacking => exact prefix_faults_report
  | append _ _ ih ih' => exact ih.trans ih'
  | joint _ _ ih | group _ _ _ _ _ ih => exact ih
  | cutOff _ _ _ _ _ ih => exact ih.trans prefix_faults_report
  | unclosed | bodiless => exact prefix_faults_report
  | @tooDeep _ c e o ts _ _ hrest _ _ _ hskips =>
      have hkept : e.faults = c.faults := hskips.faults_eq
      exact hkept ▸ prefix_faults_report

theorem no_faults (h : Reads k b ps d) (hd : d.faults = #[]) : b.faults = #[] := by
  have hprefix := h.faults_prefix
  rw [hd] at hprefix
  exact Array.toList_eq_nil_iff.mp (List.prefix_nil.mp hprefix)

theorem reaches (h : Reads k b ps d) (hb : b.Sound) : Reaches b d := by
  induction h with
  | nil => exact Reaches.refl hb
  | passing hpassing => exact hpassing.reaches hb
  | append _ _ ih ih' =>
      have hfirst := ih hb
      exact hfirst.trans (ih' hfirst.sound)
  | operand hrest | comment hrest => exact hb.reaches_pass hrest
  | unclosed hrest => exact (hb.reaches_pass hrest).report _ _
  | joint _ _ ih => exact ih hb
  | group hrest _ _ _ hcloser ih =>
      have hinside := ih (hb.inside hrest)
      exact hb.reaches_outside hrest (hinside.trans (hinside.sound.reaches_pass hcloser))
  | cutOff hrest _ _ _ _ ih =>
      exact (hb.reaches_outside hrest (ih (hb.inside hrest))).report _ _
  | tooDeep hrest _ _ _ hskips =>
      have hpass := hb.reaches_pass hrest
      exact (hpass.trans (hskips.reaches hpass.sound)).report _ _
  | bodiless => exact (Reaches.refl hb).report _ _

end Reads

end ScriptLint
