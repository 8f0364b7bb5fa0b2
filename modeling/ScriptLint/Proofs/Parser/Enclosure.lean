import ScriptLint.Proofs.Parser.Mirror.Group
import ScriptLint.Proofs.Parser.Mirror.Moved
import ScriptLint.Proofs.Parser.OneStage
import ScriptLint.Proofs.Parser.Safety

/-!
Statements mean the same inside a group. A script without faults that is put in brackets is one pipeline,
whose one stage is the group with the statements of the script in it, as long as its own groups leave room
for one more around them.
-/

namespace ScriptLint

open ScriptLint.Parser ScriptLint.Parse Cursor
open Mirror (bind_eq_ok)

/-- The brackets that statements may stand in. -/
inductive Enclosure
  /-- `( )` -/
  | parens
  /-- `$( )` -/
  | dollarParens
  /-- `@( )` -/
  | atParens
  /-- `{ }` -/
  | braces
  deriving DecidableEq, Repr

namespace Enclosure

def openerKind : Enclosure → TokenKind
  | parens => .openParen
  | dollarParens => .dollarParen
  | atParens => .atParen
  | braces => .openBrace

def opener : Enclosure → String
  | parens => "("
  | dollarParens => "$("
  | atParens => "@("
  | braces => "\x7b"

def closer : Enclosure → Closer
  | braces => .brace
  | _ => .paren

def closing : Enclosure → String
  | braces => "\x7d"
  | _ => ")"

/-- The group of some statements. -/
def group (b : Enclosure) (body : List Statement) (s : Span) : Expression :=
  match b with
  | braces => .scriptBlock ⟨body, s⟩
  | _ => .subexpression b.opener body s

/-- The script between the brackets. -/
def enclose (b : Enclosure) (source : String) : String := b.opener ++ source ++ b.closing

def openerToken (b : Enclosure) : Token := ⟨b.openerKind, b.opener, 0⟩

def closingToken (b : Enclosure) (source : String) : Token :=
  ⟨closerKind b.closer, b.closing, source.utf8ByteSize + b.opener.utf8ByteSize⟩

/-- The tokens of a script stay the same between the brackets, which are tokens of their own. -/
def KeepsTokens (b : Enclosure) (source : String) : Prop :=
  tokenize (b.enclose source) =
    b.openerToken :: (tokenize source).map (Token.move b.opener.utf8ByteSize) ++ [b.closingToken source]

instance (b : Enclosure) (source : String) : Decidable (b.KeepsTokens source) :=
  inferInstanceAs (Decidable (_ = _))

variable (b : Enclosure) {source : String}

theorem KeepsTokens.rest_eq {b : Enclosure} {source : String} (h : b.KeepsTokens source) :
    (ofSource (b.enclose source)).rest = b.openerToken ::
      ((tokenize source).map (Token.move b.opener.utf8ByteSize) ++ [b.closingToken source]) := h

@[simp] theorem span_group (b : Enclosure) (body : List Statement) (s : Span) :
    (b.group body s).span = s := by
  cases b <;> rfl

theorem size_enclose (source : String) :
    (b.enclose source).utf8ByteSize = source.utf8ByteSize + b.opener.utf8ByteSize + b.closing.utf8ByteSize := by
  rw [enclose, String.utf8ByteSize_append, String.utf8ByteSize_append, Nat.add_comm source.utf8ByteSize]

theorem stop_closingToken (source : String) :
    (b.closingToken source).stop = (b.enclose source).utf8ByteSize :=
  (b.size_enclose source).symm

/-- Statements inside the brackets are read as they are read alone, up to the closing bracket. -/
theorem inside_eq_ok {body body' : List Statement} {c' d d' : Cursor} {levels : Nat}
    (hdepth : deepest 0 (tokenize source) ≤ levels)
    (hrun : statements (groups (levels + 1)) none (.ofSource source) = .ok (body, d))
    (hclean : d.faults = #[])
    (hrest : c'.rest = (tokenize source).map (Token.move b.opener.utf8ByteSize) ++ [b.closingToken source])
    (hlast : c'.lastEnd = b.opener.utf8ByteSize) (hfaults : c'.faults = #[])
    (hrun' : statements (groups levels) (some b.closer) c' = .ok (body', d')) :
    body' = (View.shift b.opener.utf8ByteSize).statements body ∧
      d'.rest = [b.closingToken source] ∧ d'.size = c'.size ∧ d'.faults = #[] := by
  let M := Mirror.moved b.opener.utf8ByteSize source.utf8ByteSize c'.size [b.closingToken source]
    (some levels) nofun fun t ts h => by
      cases h
      refine ⟨?_, rfl⟩
      show (closerKind b.closer).endsStatement = true
      cases b <;> rfl
  have hlevels : M.Levels 0 (groups (levels + 1)) (groups levels) :=
    Mirror.levels_agree (.inr ⟨rfl, congrArg some (Nat.zero_add levels).symm⟩)
  have hfound : M.Found (M.Beside true) 0 True #[] (.ofSource source) #[] c' := by
    refine ⟨rfl, Mirror.abreast_moved rfl rfl hrest (fun _ => hlast) hfaults fun l hl => ?_⟩
    rwa [← Option.some.inj hl]
  obtain ⟨_, r, hrounds, rfl⟩ := Mirror.statements_eq_ok hrun
  obtain ⟨_, r', hrounds', rfl⟩ := Mirror.statements_eq_ok hrun'
  rcases Mirror.found_of_rounds hlevels (.inr ⟨rfl, fun _ => .inl nofun⟩) hfound hrounds hrounds'
      (M.quiet_of_no_faults hclean) with
    ⟨-, hstops⟩ | ⟨⟨halike, hd⟩, hstops⟩
  · exact absurd (.inr ⟨b.closingToken source, [], rfl, rfl⟩) hstops
  · exact ⟨Mirror.alike_moved.mp halike, hd.rest_eq_tail (Mirror.stops_none.mp hstops), hd.size_eq',
      hd.no_faults hclean⟩

/-- What the brackets and the statements between them are read as. -/
theorem group_eq_ok {β : Type} {f : Token → List Statement → Span → β} {x : β} {d e : Cursor}
    {body : List Statement} {levels : Nat} (hdepth : deepest 0 (tokenize source) ≤ levels)
    (hrun : statements (groups (levels + 1)) none (.ofSource source) = .ok (body, d))
    (hclean : d.faults = #[]) (htokens : b.KeepsTokens source)
    (hrun' : (do
      let t ← advance
      let body ← nested (statements (groups levels) (some b.closer))
      let stop ← expectCloser b.closer
      let s ← span t.start stop
      return f t body s : Parser β) (.ofSource (b.enclose source)) = .ok (x, e)) :
    x = f b.openerToken ((View.shift b.opener.utf8ByteSize).statements body)
        ⟨0, (b.enclose source).utf8ByteSize⟩ ∧
      e.rest = [] ∧ e.lastEnd = (b.enclose source).utf8ByteSize ∧
      e.size = (b.enclose source).utf8ByteSize ∧ e.faults = #[] := by
  have hspacing : b.openerKind.isSpacing = false := by cases b <;> rfl
  have hspacing' : (closerKind b.closer).isSpacing = false := by cases b <;> rfl
  -- the opener
  obtain ⟨_, _, hadvance, hrun'⟩ := bind_eq_ok.mp hrun'
  rw [advance_of_rest htokens.rest_eq] at hadvance
  cases hadvance
  -- what stands inside
  obtain ⟨body', _, hnested, hrun'⟩ := bind_eq_ok.mp hrun'
  obtain ⟨d', k, hbody, rfl⟩ := Mirror.nested_eq_ok hnested
  obtain ⟨rfl, hrest, hsize, hfaults⟩ := b.inside_eq_ok hdepth hrun hclean rfl
    ((if_neg (Bool.not_eq_true _ ▸ hspacing)).trans (Nat.zero_add _)) rfl hbody
  -- the closer
  obtain ⟨_, _, hcloser, hrun'⟩ := bind_eq_ok.mp hrun'
  rw [Mirror.expectCloser_of_rest (c := { d' with depth := k }) hrest rfl] at hcloser
  cases hcloser
  obtain ⟨_, _, hspan, hreturn⟩ := bind_eq_ok.mp hrun'
  obtain ⟨rfl, rfl⟩ := Mirror.span_eq_ok hspan
  cases hreturn
  rw [b.stop_closingToken]
  exact ⟨rfl, rfl, (if_neg (Bool.not_eq_true _ ▸ hspacing')).trans (b.stop_closingToken source),
    hsize, hfaults⟩

/-- The brackets and the statements between them are an operand that takes all of the script. -/
theorem primary_eq_ok {body : List Statement} {d : Cursor} {levels : Nat}
    (hdepth : deepest 0 (tokenize source) ≤ levels)
    (hrun : statements (groups (levels + 1)) none (.ofSource source) = .ok (body, d))
    (hclean : d.faults = #[]) (htokens : b.KeepsTokens source) :
    ∃ e, primary (groups (levels + 1)) (.ofSource (b.enclose source)) =
        .ok (some (b.group ((View.shift b.opener.utf8ByteSize).statements body)
          ⟨0, (b.enclose source).utf8ByteSize⟩), e) ∧
      e.rest = [] ∧ e.lastEnd = (b.enclose source).utf8ByteSize ∧
      e.size = (b.enclose source).utf8ByteSize ∧ e.faults = #[] := by
  have hkind : (ofSource (b.enclose source)).kind? = some b.openerKind := kind?_of_rest htokens.rest_eq
  obtain ⟨x, e, hprimary, -⟩ := ends_iff.mp
    (primary_ends (groups_safe (levels + 1)) (sound_ofSource (b.enclose source)))
  have hread := hprimary
  rw [primary] at hread
  obtain ⟨_, _, hget, hread⟩ := bind_eq_ok.mp hread
  cases hget
  rw [hkind] at hread
  cases b with
  | braces =>
      obtain ⟨_, _, hblock, hreturn⟩ := bind_eq_ok.mp hread
      obtain ⟨rfl, he⟩ := braces.group_eq_ok hdepth hrun hclean htokens hblock
      cases hreturn
      exact ⟨e, hprimary, he⟩
  | _ =>
      obtain ⟨_, _, hsubexpression, hreturn⟩ := bind_eq_ok.mp hread
      obtain ⟨rfl, he⟩ := group_eq_ok _ hdepth hrun hclean htokens hsubexpression
      cases hreturn
      exact ⟨e, hprimary, he⟩

end Enclosure

/-- A script inside brackets. If the script has no faults, opens no more than 127 groups inside one another
and has the same tokens between the brackets, there it has no faults either, and all of it is one
pipeline: the group with the statements of the script, their spans moved behind the opening bracket. -/
theorem parse_enclosed (b : Enclosure) {source : String} (hclean : (parse source).diagnostics = [])
    (hdepth : deepest 0 (tokenize source) ≤ 127) (htokens : b.KeepsTokens source) :
    let p := parse (b.enclose source)
    let all : Span := ⟨0, (b.enclose source).utf8ByteSize⟩
    p.diagnostics = [] ∧
      p.tree.body.statements = [.pipeline ⟨[.expression (b.group
        ((View.shift b.opener.utf8ByteSize).statements (parse source).tree.body.statements) all)], all⟩] := by
  intro p all
  obtain ⟨body, d, hrun, -⟩ := Parse.run_ends source
  obtain ⟨body', d', hrun', -⟩ := Parse.run_ends (b.enclose source)
  have hp : p = _ := parse_eq hrun'
  rw [parse_eq hrun] at hclean ⊢
  have hfaults : d.faults = #[] := Array.toList_inj.mp (List.map_eq_nil_iff.mp hclean)
  obtain ⟨e, hprimary, hrest, hlast, hsize, hfaults'⟩ :=
    b.primary_eq_ok hdepth hrun hfaults htokens
  have hk : StartsOperand b.openerToken.kind :=
    startsOperand_of_isOpener (by cases b <;> rfl)
  have hstop : b.openerToken.start < e.size := by
    rw [hsize, b.size_enclose]
    have : 0 < b.opener.utf8ByteSize := by cases b <;> decide
    exact Nat.lt_of_lt_of_le this (by omega)
  have hstage := stage_of_operand htokens.rest_eq hk hrest hprimary (groups_safe _) (sound_ofSource _)
  obtain ⟨hword, -, -, -, hcomment, -⟩ := hk.ne
  obtain ⟨rfl, rfl⟩ :=
    statements_of_stage hrest hstage htokens.rest_eq hword hcomment hk.separates hstop hrun'
  rw [hp]
  refine ⟨?_, ?_⟩
  · rw [Parsed.diagnostics, hfaults']
    rfl
  · rw [alone, Stage.span, Enclosure.span_group, hlast, Nat.max_eq_left (Nat.zero_le _)]

theorem parse_enclosed_call :
    (parse "Get-Item $x").diagnostics = [] ∧ deepest 0 (tokenize "Get-Item $x") ≤ 127 ∧
      Enclosure.braces.KeepsTokens "Get-Item $x" ∧
      (parse (Enclosure.braces.enclose "Get-Item $x")).diagnostics = [] :=
  ⟨by decide +kernel, by decide +kernel, by decide +kernel,
    (parse_enclosed .braces (by decide +kernel) (by decide +kernel) (by decide +kernel)).1⟩

end ScriptLint
