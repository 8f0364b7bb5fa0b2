import ScriptLint.Diagnostic.Identity
import ScriptLint.Text.Case

/-!
Diagnostics in small letters. A diagnostic quotes a script in its context and, through the slots of a template,
in its message. Where the texts that it quotes differ in the case of letters only, so do the messages.
-/

namespace ScriptLint

namespace Text

theorem fold_eq_iff {a b : String} :
    fold a = fold b ↔ a.toList.map Char.toLower = b.toList.map Char.toLower := by
  unfold fold
  rw [String.ofList_inj]

end Text

namespace Dictionary

/-- The dictionary with its values in small letters. -/
def fold (d : Dictionary) : Dictionary where
  entries := d.entries.map fun e => (e.1, Text.fold e.2)
  ascending := List.pairwise_map.mpr d.ascending

theorem entries_fold (d : Dictionary) : d.fold.entries = d.entries.map fun e => (e.1, Text.fold e.2) := rfl

theorem map_insertEntry (name value : String) (entries : List (String × String)) :
    (insertEntry name value entries).map (fun e => (e.1, Text.fold e.2)) =
      insertEntry name (Text.fold value) (entries.map fun e => (e.1, Text.fold e.2)) := by
  induction entries with
  | nil => rfl
  | cons e rest ih =>
      rw [insertEntry, List.map_cons, insertEntry]
      split
      · rfl
      · split
        · rfl
        · exact congrArg (_ :: ·) ih

theorem fold_insert (d : Dictionary) (name value : String) :
    (d.insert name value).fold = d.fold.insert name (Text.fold value) := by
  rw [Dictionary.mk.injEq]
  exact map_insertEntry name value d.entries

theorem fold_single (name value : String) : (single name value).fold = single name (Text.fold value) :=
  fold_insert empty name value

theorem find?_fold (d : Dictionary) (name : String) : d.fold.find? name = (d.find? name).map Text.fold := by
  rw [find?, find?, entries_fold]
  induction d.entries with
  | nil => rfl
  | cons e rest ih =>
      rw [List.map_cons, lookup_cons, lookup_cons, ih]
      split <;> rfl

end Dictionary

namespace Template

variable {d d' : Dictionary}

theorem map_fillFrom (h : d.fold = d'.fold) (slot : Option (List Char)) (cs : List Char) :
    (fillFrom d slot cs).map Char.toLower = (fillFrom d' slot cs).map Char.toLower := by
  have hfind (name : String) : (d.find? name).map Text.fold = (d'.find? name).map Text.fold := by
    rw [← Dictionary.find?_fold, h, Dictionary.find?_fold]
  fun_induction fillFrom d slot cs with
  | case1 => rfl
  | case2 name => rfl
  | case3 cs ih => rw [ih, fillFrom, if_pos rfl]
  | case4 c cs hc ih =>
      rw [fillFrom, if_neg hc, List.map_cons, List.map_cons, ih]
  | case5 name cs value hvalue ih =>
      have hname := hfind (String.ofList (Text.trim name))
      rw [hvalue] at hname
      obtain ⟨value', hvalue', hfold⟩ := Option.map_eq_some_iff.mp hname.symm
      rw [fillFrom, if_pos rfl, hvalue', List.map_append, List.map_append, ih, Text.fold_eq_iff.mp hfold]
  | case6 name cs hvalue ih =>
      have hname := hfind (String.ofList (Text.trim name))
      rw [hvalue] at hname
      have hvalue' := Option.map_eq_none_iff.mp hname.symm
      rw [fillFrom, if_pos rfl, hvalue', List.map_cons, List.map_cons, List.map_append, List.map_append,
        List.map_cons, List.map_cons, ih]
  | case7 name c cs hc ih => rw [ih, fillFrom, if_neg hc]

theorem fold_fill (h : d.fold = d'.fold) (template : String) :
    Text.fold (fill template d) = Text.fold (fill template d') := by
  rw [Text.fold_eq_iff, fill, fill, String.toList_ofList, String.toList_ofList]
  exact map_fillFrom h none template.toList

end Template

/-- The diagnostic with what it quotes in small letters. -/
def Diagnostic.fold (d : Diagnostic) : Diagnostic :=
  { d with message := Text.fold d.message, context := d.context.map Dictionary.fold }

theorem Diagnostic.fold_inFile (d : Diagnostic) (file : String) : (d.inFile file).fold = d.fold.inFile file := rfl

theorem Check.fold_diagnostic (c : Check) {d d' : Dictionary} (h : d.fold = d'.fold) (s : Span) :
    (c.diagnostic d s).fold = (c.diagnostic d' s).fold := by
  unfold diagnostic message Diagnostic.fold
  dsimp only
  rw [Option.map_some, Option.map_some, h, Template.fold_fill h]

end ScriptLint
