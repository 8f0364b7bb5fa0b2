import ScriptLint.Proofs.Parser.Rules
import ScriptLint.Proofs.Syntax.Brackets

/-!
Bare keys: the keys of hashtables that no equals sign follows. A script has them but its tree has not, for
no entry is made of such a key. They are told here by the script: behind every token that opens a hashtable,
as many groups deep as the brackets in front of it say, a key stands where a round over the entries starts,
and it is bare if the next token behind blanks is no word that starts with an equals sign.
-/

namespace ScriptLint

namespace Parser

/-- Where the rounds of a loop start, `n` of them at most. -/
def visits {α : Type} (body : α → Parser (ForInStep α)) : (n : Nat) → α → Cursor → List Cursor
  | 0, _, _ => []
  | n + 1, a, c => c :: match body a c with
    | .ok (.yield b, d) => visits body n b d
    | _ => []

/-- A loop keeps what each of its rounds keeps, which may speak of all places where a round has started. -/
theorem gives_repeating_visits {α : Type} {body : α → Parser (ForInStep α)} {a : α} {c : Cursor}
    {I Q : List Cursor → α → Cursor → Prop} (h : I [] a c)
    (hbody : ∀ seen a d, I seen a d → Gives (body a) d fun
      | .done b => Q (seen ++ [d]) b
      | .yield b => I (seen ++ [d]) b) :
    Gives (repeating body a) c (Q (visits body (c.remaining + 1) a c)) := by
  have hrounds (n : Nat) : ∀ seen a d, I seen a d →
      Gives (rounds body n a) d (Q (seen ++ visits body n a d)) := by
    induction n with
    | zero => exact fun _ _ _ _ => trivial
    | succ n ih =>
        intro seen a d hI
        refine Holds.bind (Q := fun r e => body a d = .ok (r, e)) (gives_iff.mpr fun _ _ h => h)
          fun r e hround => ?_
        have hr := gives_iff.mp (hbody seen a d hI) r e hround
        rw [visits, hround]
        cases r with
        | done b => exact hr
        | yield b =>
            have hrest := ih (seen ++ [d]) b e hr
            rwa [List.append_assoc] at hrest
  exact hrounds _ [] a c h

end Parser

namespace Parse

open ScriptLint.Parser

/-- The key with which the next entry starts, and where the cursor stands behind it. -/
def key? (g : Groups) (c : Cursor) : Option (Expression × Cursor) :=
  match (c.skip separatesEntries).rest with
  | [] => none
  | t :: _ =>
    if t.kind = .closeBrace then none
    else match (do cutKey t; primary g : Parser (Option Expression)) (c.skip separatesEntries) with
      | .ok (some key, d) => some (key, d)
      | _ => none

/-- An equals sign starts the token ahead, behind blanks. -/
def assigns (c : Cursor) : Bool :=
  c.skipBlanks.rest.head?.any fun t => t.kind = .word && t.text.toList.head? = some '='

/-- The key with which the next entry starts, if no equals sign follows it. -/
def bareKey? (g : Groups) (c : Cursor) : Option Expression :=
  match key? g c with
  | some (key, d) => if assigns d then none else some key
  | none => none

/-- The bare keys of the hashtable whose entries start at `c`. -/
def bareKeys (g : Groups) (c : Cursor) : List Expression :=
  (visits (hashtableRound g) (c.remaining + 1) #[] c).filterMap (bareKey? g)

end Parse

namespace Cursor

/-- The cursors behind the tokens that open a hashtable, where `depth` groups are open in front of all. -/
def tablesFrom (size : Nat) : (depth : Nat) → List Token → List Cursor
  | _, [] => []
  | depth, t :: ts =>
    (if t.kind = .atBrace then [{ rest := ts, lastEnd := t.stop, size, depth := depth + 1 }] else []) ++
      tablesFrom size (Parse.depthBehind depth t.kind) ts

/-- The cursors behind the tokens ahead that open a hashtable. -/
def tables (c : Cursor) : List Cursor := tablesFrom c.size c.depth c.rest

/-- The bare keys of the hashtable that the cursor stands in. -/
def bareKeys (c : Cursor) : List Expression :=
  Parse.bareKeys (Parse.groups (Parse.maxNesting - c.depth)) c

end Cursor

/-- The bare keys of all hashtables of a script. -/
def bareKeys (source : String) : List Expression :=
  (Cursor.ofSource source).tables.flatMap Cursor.bareKeys

namespace Parse

open ScriptLint.Parser

variable {g : Groups} {c d e : Cursor} {t : Token} {ts : List Token} {key : Expression}

theorem bareKey?_of_rest_nil (h : (c.skip separatesEntries).rest = []) : bareKey? g c = none := by
  rw [bareKey?, key?, h]

theorem bareKey?_of_closeBrace (h : (c.skip separatesEntries).rest = t :: ts)
    (ht : t.kind = .closeBrace) : bareKey? g c = none := by
  rw [bareKey?, key?, h]
  simp only [ht, ↓reduceIte]

/-- The first token of an entry is ahead, and a key is read from there or none. -/
theorem bareKey?_of_ok (h : (c.skip separatesEntries).rest = t :: ts) (ht : t.kind ≠ .closeBrace)
    {key? : Option Expression} (hcut : cutKey t (c.skip separatesEntries) = .ok ((), d))
    (hkey : primary g d = .ok (key?, e)) :
    bareKey? g c = if assigns e then none else key? := by
  have hread : (do cutKey t; primary g : Parser (Option Expression)) (c.skip separatesEntries) =
      .ok (key?, e) := by
    rw [bind_run, hcut]
    exact hkey
  rw [bareKey?, Parse.key?, h]
  simp only [ht, ↓reduceIte, hread]
  cases key? <;> simp

end Parse

end ScriptLint
