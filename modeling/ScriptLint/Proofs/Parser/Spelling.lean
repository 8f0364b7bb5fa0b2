import ScriptLint.Proofs.Parser.Mirror.Script
import ScriptLint.Proofs.Syntax.Spelling.Lexer

/-!
A script in another spelling is read as the script is. Its tree and its faults are those of the script, each
text spelled and each offset moved on by what has been put in before it.
-/

namespace ScriptLint

open String (utf8Len)
open ScriptLint.Parser ScriptLint.Parse Cursor

namespace Mirror

variable {w : Spelling} {source : String}

/-- A script beside itself in the spelling `w`. -/
def spelled (w : Spelling) (source : String) : Mirror where
  offset := w.offset source.toList
  mono := (w.strictMono_offset _).monotone
  comments := true
  size := source.utf8ByteSize
  size' := (w.text source).utf8ByteSize
  tail := []
  limit? := none
  excluded := fun _ => False
  size_eq := fun _ => by
    have h := w.offset_utf8Len source.toList []
    rw [List.append_nil, String.utf8Len_toList] at h
    rw [h, ← String.utf8Len_toList, Spelling.toList_text]
  size_apart := fun _ _ h => (w.strictMono_offset _).injective h
  tail_head := fun _ _ h => absurd h.symm (List.cons_ne_nil _ _)
  excluded_all := excludes_nothing
  spelling? := some w

theorem same_spelled (h : w = .returns → '\r' ∉ source.toList) {t : Token} (ht : t ∈ tokenize source) :
    (spelled w source).Same t (w.token source.toList t) := by
  obtain ⟨before, behind, hsource, hstart⟩ := Lexer.exists_append_of_mem_tokensFrom ht
  rw [Nat.zero_add] at hstart
  refine ⟨rfl, rfl, fun head tail htext => ?_, ?_, Nat.zero_le _,
    fun _ _ _ => apart_of_injective (w.strictMono_offset _).injective _⟩
  · show w.offset source.toList t.start + (w.text head).utf8ByteSize =
      w.offset source.toList (t.start + head.utf8ByteSize)
    have hsplit : source.toList = before ++ head.toList ++ (tail.toList ++ behind) := by
      rw [hsource, htext, String.toList_append]
      simp only [List.append_assoc]
    rw [hsplit, hstart, List.append_assoc, Spelling.offset_utf8Len, ← List.append_assoc,
      ← String.utf8Len_toList head, ← String.utf8Len_append, Spelling.offset_utf8Len,
      Spelling.chars_append, String.utf8Len_append, ← String.utf8Len_toList, Spelling.toList_text]
  · intro w' hw' hreturns
    obtain rfl : w = w' := Option.some.inj hw'
    refine ⟨fun hmem => h hreturns ?_, Lexer.feed_not_mem_word ht⟩
    rw [hsource]
    exact List.mem_append_left _ (List.mem_append_right _ hmem)

theorem beside_spelled (h : w = .returns → '\r' ∉ source.toList) {free : Bool} {ts : List Token}
    (hts : ∀ t ∈ ts, t ∈ tokenize source) :
    (spelled w source).Beside free ts (ts.map (w.token source.toList)) := by
  induction ts generalizing free with
  | nil => exact .nil
  | cons t ts ih =>
      exact .cons (same_spelled h (hts t List.mem_cons_self)) (ih fun u hu => hts u (List.mem_cons_of_mem t hu))

theorem faces_spelled (h : w = .returns → '\r' ∉ source.toList) :
    (spelled w source).Faces source (w.text source) where
  size_eq := rfl
  size_eq' := rfl
  offset_zero := w.offset_utf8Len [] source.toList
  tail_eq := rfl
  unlimited := rfl
  beside := by
    rw [Spelling.tokenize_text h]
    exact beside_spelled h fun _ ht => ht

end Mirror

/-- A script in a spelling: its tree and its faults, told in the spelling. -/
theorem parse_text {w : Spelling} {source : String} (h : w = .returns → '\r' ∉ source.toList) :
    let v : Telling := ⟨⟨w.offset source.toList, true⟩, some w⟩
    (parse (w.text source)).tree.body = v.block (parse source).tree.body ∧
      (parse (w.text source)).faults = (parse source).faults.map v.fault :=
  (Mirror.faces_spelled h).parse_eq fun _ _ => Mirror.quiet_of_admitted _ fun _ _ hf => hf

end ScriptLint
