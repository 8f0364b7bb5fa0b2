import ScriptLint.Proofs.Parser.Mirror
import ScriptLint.Proofs.Syntax.Locality

/-!
A script that stands some bytes further on in another one.
-/

namespace ScriptLint

open ScriptLint.Parse Cursor

namespace Mirror

/-- A script of `size` bytes that stands `k` bytes further on in one of `size'` bytes, where `tail` follows
it. It is known to have no fault if there is anything behind it, or fewer levels for its groups. -/
def moved (k size size' : Nat) (tail : List Token) (limit? : Option Nat)
    (hsize : tail = [] → size' = size + k)
    (htail : ∀ t ts, tail = t :: ts → t.kind.endsStatement ∧ t.start = size + k) : Mirror where
  offset := (· + k)
  mono := fun _ _ h => Nat.add_le_add_right h k
  comments := true
  size := size
  size' := size'
  tail := tail
  limit? := limit?
  excluded := fun _ => tail ≠ [] ∨ limit?.isSome
  size_eq := hsize
  size_apart := fun _ _ h => Nat.add_right_cancel h
  tail_head := htail
  excluded_all := fun h _ => h

section

variable {k size size' : Nat} {tail : List Token} {limit? : Option Nat}
  {hsize : tail = [] → size' = size + k}
  {htail : ∀ t ts, tail = t :: ts → t.kind.endsStatement ∧ t.start = size + k}

theorem alike_moved {ss ss' : List Statement} :
    (moved k size size' tail limit? hsize htail).Alike Telling.statements ss ss' ↔
      ss' = (View.shift k).statements ss := by
  have hwhole : (moved k size size' tail limit? hsize htail).right.statements ss' =
      View.whole.statements ss' := rfl
  rw [Alike, hwhole, View.whole_statements, eq_comm]
  rfl

theorem same_moved (t : Token) : (moved k size size' tail limit? hsize htail).Same t (t.move k) := by
  refine ⟨rfl, rfl, fun head _ _ => ?_, Telling.suits_of_eq_none rfl t, Nat.zero_le _, fun _ _ _ => ?_⟩
  · show t.start + k + head.utf8ByteSize = t.start + head.utf8ByteSize + k
    rw [Nat.add_right_comm]
  · exact apart_of_injective (add_left_injective k) _

theorem beside_moved {free : Bool} (ts : List Token) :
    (moved k size size' tail limit? hsize htail).Beside free ts (ts.map (Token.move k) ++ tail) := by
  induction ts generalizing free with
  | nil => exact .nil
  | cons t ts ih => exact .cons (same_moved t) ih

theorem abreast_moved {source : String} {c' : Cursor} {depth : Nat} {exact : Prop}
    (hsource : size = source.utf8ByteSize) (hsize' : c'.size = size')
    (hrest : c'.rest = (tokenize source).map (Token.move k) ++ tail)
    (hlast : exact → c'.lastEnd = k) (hfaults : c'.faults = #[])
    (hroom : ∀ l, limit? = some l → deepest depth (tokenize source) ≤ l) :
    (moved k size size' tail limit? hsize htail).Abreast
      ((moved k size size' tail limit? hsize htail).Beside true) depth exact (.ofSource source) c' where
  sound := sound_ofSource source
  ahead := hrest ▸ beside_moved (tokenize source)
  size_eq := hsource.symm
  size_eq' := hsize'
  lastEnd_eq := fun he => (hlast he).trans (Nat.zero_add k).symm
  faults_told := by rw [hfaults]; rfl
  recent := fun f hf => absurd hf (Array.not_mem_empty f)
  room := hroom

end

end Mirror

end ScriptLint
