import ScriptLint.Diagnostic.Identity

/-!
Templates piece by piece: text outside of slots stays, and a slot is filled with what the context has for
its name.
-/

namespace ScriptLint

namespace Template

variable {context : Dictionary}

theorem fillFrom_append {text : List Char} (h : '{' ∉ text) (rest : List Char) :
    fillFrom context none (text ++ rest) = text ++ fillFrom context none rest := by
  induction text with
  | nil => rfl
  | cons c cs ih =>
      obtain ⟨hc, hcs⟩ := not_or.mp (mt List.mem_cons.mpr h)
      rw [List.cons_append, fillFrom, if_neg (Ne.symm hc), ih hcs, List.cons_append]

/-- A slot is read up to its brace. -/
theorem fillFrom_slot_append {name : List Char} (h : '}' ∉ name) (read rest : List Char) :
    fillFrom context (some read) (name ++ rest) = fillFrom context (some (read ++ name)) rest := by
  induction name generalizing read with
  | nil => rw [List.nil_append, List.append_nil]
  | cons c cs ih =>
      obtain ⟨hc, hcs⟩ := not_or.mp (mt List.mem_cons.mpr h)
      rw [List.cons_append, fillFrom, if_neg (Ne.symm hc), ih hcs, List.append_assoc,
        List.singleton_append]

/-- A slot with a name that the context knows. -/
theorem fillFrom_slot {name : List Char} {value : String} (h : '}' ∉ name)
    (hvalue : context.find? (String.ofList (Text.trim name)) = some value) (rest : List Char) :
    fillFrom context none ('{' :: (name ++ '}' :: rest)) =
      value.toList ++ fillFrom context none rest := by
  rw [fillFrom, if_pos rfl, fillFrom_slot_append h, List.nil_append, fillFrom, if_pos rfl, hvalue]

/-- A template with one slot. -/
theorem fill_one (before name behind : String) {value : String} (hbefore : '{' ∉ before.toList)
    (hname : '}' ∉ name.toList) (hbehind : '{' ∉ behind.toList)
    (hvalue : context.find? (String.ofList (Text.trim name.toList)) = some value) :
    fill (before ++ "\x7b" ++ name ++ "\x7d" ++ behind) context = before ++ value ++ behind := by
  have hend : fillFrom context none behind.toList = behind.toList := by
    rw [← List.append_nil behind.toList, fillFrom_append hbehind, fillFrom]
  rw [← String.toList_inj, fill, String.toList_ofList]
  simp only [String.toList_append, List.append_assoc]
  rw [fillFrom_append hbefore]
  show before.toList ++ fillFrom context none ('{' :: (name.toList ++ '}' :: behind.toList)) = _
  rw [fillFrom_slot hname hvalue, hend]

end Template

end ScriptLint
