/-!
Spans: half-open ranges `[start, stop)` of byte offsets into a script.
-/

namespace ScriptLint

/-- Plain data: a tree read from outside may hold spans that end before they start. -/
structure Span where
  start : Nat
  stop : Nat
  deriving DecidableEq, Repr, Inhabited

namespace Span

/-- The span without characters at `offset`. -/
def empty (offset : Nat) : Span := ⟨offset, offset⟩

/-- Two offsets that bound no span, the end standing before the start. -/
structure Reversed where
  start : Nat
  stop : Nat
  deriving DecidableEq, Repr

def Reversed.message (e : Reversed) : String :=
  "Span end (" ++ toString e.stop ++ ") < start (" ++ toString e.start ++ ")"

def between (start stop : Nat) : Except Reversed Span :=
  if start ≤ stop then .ok ⟨start, stop⟩ else .error ⟨start, stop⟩

theorem between_eq_ok_iff {start stop : Nat} {s : Span} :
    between start stop = .ok s ↔ start ≤ stop ∧ s = ⟨start, stop⟩ := by
  unfold between
  split
  case isTrue h => simp [h, eq_comm]
  case isFalse h => simp [h]

end Span

end ScriptLint
