/-!
Dictionaries from names to texts, held in ascending order of the names, so that equal contents are
equal values and a listing needs no sort.
-/

namespace ScriptLint

structure Dictionary where
  entries : List (String × String)
  ascending : entries.Pairwise (·.1 < ·.1)
  deriving DecidableEq

namespace Dictionary

def empty : Dictionary := ⟨[], .nil⟩

/-- Puts an entry in its place; an entry of the same name gives way. -/
def insertEntry (name value : String) : List (String × String) → List (String × String)
  | [] => [(name, value)]
  | e :: rest =>
    if name < e.1 then (name, value) :: e :: rest
    else if name = e.1 then (name, value) :: rest
    else e :: insertEntry name value rest

theorem mem_insertEntry {name value : String} {entries : List (String × String)} {e : String × String}
    (h : e ∈ insertEntry name value entries) : e = (name, value) ∨ e ∈ entries := by
  induction entries with
  | nil => simpa [insertEntry] using h
  | cons d rest ih =>
    simp only [insertEntry] at h
    split at h
    · simpa using h
    · split at h
      · rcases List.mem_cons.1 h with h | h
        · exact .inl h
        · exact .inr (List.mem_cons_of_mem _ h)
      · rcases List.mem_cons.1 h with h | h
        · exact .inr (h ▸ List.mem_cons_self)
        · exact (ih h).imp_right (List.mem_cons_of_mem _)

theorem pairwise_insertEntry {name value : String} {entries : List (String × String)}
    (h : entries.Pairwise (·.1 < ·.1)) : (insertEntry name value entries).Pairwise (·.1 < ·.1) := by
  induction entries with
  | nil => simp [insertEntry]
  | cons d rest ih =>
    obtain ⟨hd, hrest⟩ := List.pairwise_cons.1 h
    simp only [insertEntry]
    split
    case isTrue hlt =>
      exact List.pairwise_cons.2 ⟨fun e he => by
        rcases List.mem_cons.1 he with rfl | he
        · exact hlt
        · exact String.lt_trans hlt (hd e he), h⟩
    case isFalse hlt =>
      split
      case isTrue heq => exact List.pairwise_cons.2 ⟨fun e he => heq ▸ hd e he, hrest⟩
      case isFalse hne =>
        refine List.pairwise_cons.2 ⟨fun e he => ?_, ih hrest⟩
        rcases mem_insertEntry he with rfl | he
        · exact Std.lt_of_le_of_ne (String.not_lt.1 hlt) (Ne.symm hne)
        · exact hd e he

def insert (d : Dictionary) (name value : String) : Dictionary :=
  ⟨insertEntry name value d.entries, pairwise_insertEntry d.ascending⟩

/-- Of several entries with one name the last one stays. -/
def ofList (entries : List (String × String)) : Dictionary :=
  entries.foldl (fun d e => d.insert e.1 e.2) empty

def find? (d : Dictionary) (name : String) : Option String :=
  d.entries.lookup name

/-- The dictionary with one entry. -/
def single (name value : String) : Dictionary := empty.insert name value

theorem lookup_cons (e : String × String) (entries : List (String × String)) (name : String) :
    (e :: entries).lookup name = if name = e.1 then some e.2 else entries.lookup name := by
  rw [List.lookup_cons]
  by_cases h : name = e.1
  · simp [h]
  · rw [beq_eq_false_iff_ne.2 h, if_neg h]

theorem lookup_insertEntry (name value other : String) (entries : List (String × String)) :
    (insertEntry name value entries).lookup other =
      if other = name then some value else entries.lookup other := by
  induction entries with
  | nil => exact lookup_cons _ _ _
  | cons e rest ih =>
    simp only [insertEntry]
    split
    case isTrue => exact lookup_cons _ _ _
    case isFalse =>
      split
      case isTrue heq =>
        rw [lookup_cons, lookup_cons, heq]
        by_cases h : other = e.1 <;> simp only [h, if_true, if_false]
      case isFalse hne =>
        rw [lookup_cons, lookup_cons, ih]
        by_cases h : other = e.1
        · rw [if_pos h, if_pos h, if_neg fun h' => hne (h'.symm.trans h)]
        · rw [if_neg h, if_neg h]

@[simp] theorem find?_insert (d : Dictionary) (name value other : String) :
    (d.insert name value).find? other = if other = name then some value else d.find? other :=
  lookup_insertEntry name value other d.entries

@[simp] theorem find?_single (name value : String) :
    (single name value).find? name = some value := by
  rw [single, find?_insert, if_pos rfl]

instance : Inhabited Dictionary := ⟨empty⟩

end Dictionary

end ScriptLint
