import Mathlib.Data.List.Nodup
import ScriptLint.Json.Record

/-!
Records read back. A record is written as a row of fields, of which some may be without a value and left out;
whatever is written is found again under its name, and what is left out is found missing.
-/

namespace ScriptLint.Json

/-- The fields that have a value. -/
def row (fields : List (String × Option Json)) : Fields :=
  fields.flatMap fun f => field? f.1 f.2

/-- A field as it stands in an object. -/
def member (f : String × Json) : Member := ⟨some f.1, f.2⟩

theorem ofFields_eq (fields : Fields) : ofFields fields = .obj (fields.map member) := rfl

theorem row_cons (f : String × Option Json) (fields : List (String × Option Json)) :
    row (f :: fields) = field? f.1 f.2 ++ row fields :=
  List.flatMap_cons

theorem field?_some (name : String) (value : Json) : field? name (some value) = [(name, value)] := rfl

/-- An array if there is anything in the list. -/
def unlessNil (items : List Json) : Option Json :=
  if items.isEmpty then none else some (.arr items)

def isNull : Json → Bool
  | .null => true
  | _ => false

theorem mapM_map_eq_some {α β : Type} {encode : α → β} {decode : β → Option α} {as : List α}
    (h : ∀ a ∈ as, decode (encode a) = some a) : (as.map encode).mapM decode = some as := by
  induction as with
  | nil => rfl
  | cons a as ih =>
      obtain ⟨ha, has⟩ := List.forall_mem_cons.mp h
      rw [List.map_cons, List.mapM_cons, ha, ih has]
      rfl

section Row

variable {α : Type} {fields : List (String × Option Json)} {name : String}

theorem map_fst_row_sublist (fields : List (String × Option Json)) :
    ((row fields).map (·.1)).Sublist (fields.map (·.1)) := by
  induction fields with
  | nil => exact .slnil
  | cons f rest ih =>
      obtain ⟨name, _ | value⟩ := f
      · exact .cons _ ih
      · exact .cons_cons _ ih

theorem lookup_row_of_not_mem (h : name ∉ fields.map (·.1)) : (row fields).lookup name = none := by
  have hrow : name ∉ (row fields).map (·.1) := fun hmem => h ((map_fst_row_sublist fields).subset hmem)
  refine List.lookup_eq_none_iff.mpr fun f hf => bne_iff_ne.mpr ?_
  rintro rfl
  exact hrow (List.mem_map_of_mem hf)

theorem lookup_row (hnodup : (fields.map (·.1)).Nodup) {value : Option Json}
    (h : fields.lookup name = some value) : (row fields).lookup name = value := by
  induction fields with
  | nil => cases h
  | cons f rest ih =>
      obtain ⟨hf, hrest⟩ := List.nodup_cons.mp hnodup
      rw [List.lookup_cons] at h
      rw [row_cons]
      by_cases hname : name = f.1
      · rw [hname, beq_self_eq_true] at h
        obtain rfl := Option.some.inj h
        subst hname
        cases hvalue : f.2 with
        | none => exact lookup_row_of_not_mem hf
        | some value => exact List.lookup_cons_self
      · rw [beq_false_of_ne hname] at h
        cases f.2 with
        | none => exact ih hrest h
        | some value' =>
            rw [field?_some, List.singleton_append, List.lookup_cons, beq_false_of_ne hname]
            exact ih hrest h

/-- A record is read back as the fields that it was written with. -/
theorem fields?_row {names : List String} {least : Nat} (hnames : fields.map (·.1) = names)
    (hnodup : names.Nodup) : fields? names least (ofFields (row fields)) = some (row fields) := by
  subst hnames
  have hsublist := map_fst_row_sublist fields
  have hmembers : ((row fields).map member).mapM (fun m => m.name.map fun name => (name, m.value)) =
      some (row fields) := mapM_map_eq_some fun _ _ => rfl
  have hknown : (row fields).filter (fun f => f.1 ∈ fields.map (·.1)) = row fields :=
    List.filter_eq_self.mpr fun f hf => decide_eq_true (hsublist.subset (List.mem_map_of_mem hf))
  rw [ofFields_eq, fields?, hmembers, Option.bind_eq_bind, Option.bind_some, hknown]
  exact if_pos (hsublist.nodup hnodup)

/-- The tag comes off a record again. -/
theorem tagged?_row {tag : Json} (h : "kind" ∉ fields.map (·.1)) :
    tagged? (ofFields (row (("kind", some tag) :: fields))) = some (tag, ofFields (row fields)) := by
  have hothers : ∀ m ∈ (row fields).map member, m.name ≠ some "kind" := by
    intro m hm hkind
    obtain ⟨f, hf, rfl⟩ := List.mem_map.mp hm
    have hname : f.1 = "kind" := Option.some.inj hkind
    exact h (hname ▸ (map_fst_row_sublist fields).subset (List.mem_map_of_mem hf))
  have hpartition : (member ("kind", tag) :: (row fields).map member).partition
      (fun m => m.name = some "kind") = ([member ("kind", tag)], (row fields).map member) := by
    rw [List.partition_eq_filter_filter, List.filter_cons_of_pos (by rfl), List.filter_cons_of_neg (by simp [member]),
      List.filter_eq_nil_iff.mpr fun m hm => by simpa using hothers m hm,
      List.filter_eq_self.mpr fun m hm => by simpa using hothers m hm]
  rw [row_cons, field?_some, List.singleton_append, ofFields_eq, List.map_cons, tagged?, hpartition]
  rfl

end Row

/-!
Rules for reading a record field by field, in the order in which a reader asks for the fields.
-/

section Reading

variable {α β : Type} {fields : List (String × Option Json)} {name : String} {decode : Json → Option α}
  {b : β}

theorem fields?_bind {names : List String} {least : Nat} {f : Fields → Option β}
    (hnames : fields.map (·.1) = names) (hnodup : names.Nodup) (h : f (row fields) = some b) :
    (fields? names least (ofFields (row fields)) >>= f) = some b := by
  rw [fields?_row hnames hnodup]
  exact h

theorem tagged?_bind {tag : Json} {f : Json × Json → Option β}
    (hnodup : ("kind" :: fields.map (·.1)).Nodup) (h : f (tag, ofFields (row fields)) = some b) :
    (tagged? (ofFields (row (("kind", some tag) :: fields))) >>= f) = some b := by
  rw [tagged?_row (List.nodup_cons.mp hnodup).1]
  exact h

theorem get?_bind {value : Json} {a : α} {f : α → Option β} (hnodup : (fields.map (·.1)).Nodup)
    (hlookup : fields.lookup name = some (some value)) (hread : decode value = some a) (h : f a = some b) :
    ((row fields).get? name decode >>= f) = some b := by
  have hvalue : (row fields).get? name decode = some a := by
    rw [Fields.get?, lookup_row hnodup hlookup]
    exact hread
  rw [hvalue]
  exact h

theorem getOption?_bind {encode : α → Json} {o : Option α} {f : Option α → Option β}
    (hnodup : (fields.map (·.1)).Nodup) (hlookup : fields.lookup name = some (o.map encode))
    (hnull : ∀ a, (encode a).isNull = false) (hread : ∀ a ∈ o, decode (encode a) = some a) (h : f o = some b) :
    ((row fields).getOption? name decode >>= f) = some b := by
  have hvalue : (row fields).getOption? name decode = some o := by
    rw [Fields.getOption?, lookup_row hnodup hlookup]
    cases o with
    | none => rfl
    | some a =>
        have ha := hread a rfl
        have hvalue := hnull a
        rw [Option.map_some]
        generalize encode a = value at ha hvalue ⊢
        cases value with
        | null => cases hvalue
        | _ => exact congrArg (Option.map some) ha
  rw [hvalue]
  exact h

theorem getOr?_bind {value : Json} {a default : α} {f : α → Option β} (hnodup : (fields.map (·.1)).Nodup)
    (hlookup : fields.lookup name = some (some value)) (hread : decode value = some a) (h : f a = some b) :
    ((row fields).getOr? name default decode >>= f) = some b := by
  rw [Fields.getOr?, lookup_row hnodup hlookup]
  dsimp only
  rw [hread]
  exact h

theorem getOr?_nil_bind {encode : α → Json} {as : List α} {f : List α → Option β}
    (hnodup : (fields.map (·.1)).Nodup) (hlookup : fields.lookup name = some (unlessNil (as.map encode)))
    (hread : ∀ a ∈ as, decode (encode a) = some a) (h : f as = some b) :
    ((row fields).getOr? name [] (list? decode) >>= f) = some b := by
  have hvalue : (row fields).getOr? name [] (list? decode) = some as := by
    rw [Fields.getOr?, lookup_row hnodup hlookup]
    cases as with
    | nil => rfl
    | cons a as => exact mapM_map_eq_some hread
  rw [hvalue]
  exact h

end Reading

section Depth

theorem depth_lt_of_mem_members {members : List Member} {m : Member} (h : m ∈ members) :
    m.value.depth < (obj members).depth := by
  rw [depth, Nat.lt_succ_iff]
  induction members with
  | nil => cases h
  | cons n rest ih =>
      obtain ⟨name, value⟩ := n
      rw [depthMembers]
      rcases List.mem_cons.mp h with rfl | hrest
      · exact Nat.le_max_left _ _
      · exact Nat.le_trans (ih hrest) (Nat.le_max_right _ _)

theorem depth_lt_of_mem_items {items : List Json} {item : Json} (h : item ∈ items) :
    item.depth < (arr items).depth := by
  rw [depth, Nat.lt_succ_iff]
  induction items with
  | nil => cases h
  | cons other rest ih =>
      rw [depthItems]
      rcases List.mem_cons.mp h with rfl | hrest
      · exact Nat.le_max_left _ _
      · exact Nat.le_trans (ih hrest) (Nat.le_max_right _ _)

variable {fields : List (String × Option Json)}

theorem depth_row_le_cons (f : String × Option Json) :
    (ofFields (row fields)).depth ≤ (ofFields (row (f :: fields))).depth := by
  obtain ⟨name, _ | value⟩ := f
  · exact Nat.le_refl _
  · exact Nat.succ_le_succ (Nat.le_max_right _ _)

theorem depth_lt_of_lookup (name : String) {value : Json} (h : fields.lookup name = some (some value)) :
    value.depth < (ofFields (row fields)).depth := by
  obtain ⟨before, after, rfl, -⟩ := List.lookup_eq_some_iff.mp h
  have hrow : (name, value) ∈ row (before ++ (name, some value) :: after) :=
    List.mem_flatMap.mpr ⟨_, List.mem_append_right _ List.mem_cons_self, List.mem_singleton.mpr rfl⟩
  have hmember := List.mem_map_of_mem (f := member) hrow
  exact depth_lt_of_mem_members hmember

section List

variable {α : Type} {encode : α → Json} {as : List α} {a : α} (name : String)

theorem depth_lt_of_mem (h : fields.lookup name = some (some (.arr (as.map encode)))) (ha : a ∈ as) :
    (encode a).depth < (ofFields (row fields)).depth :=
  Nat.lt_trans (depth_lt_of_mem_items (List.mem_map_of_mem ha)) (depth_lt_of_lookup name h)

theorem depth_lt_of_mem_unlessNil (h : fields.lookup name = some (unlessNil (as.map encode))) (ha : a ∈ as) :
    (encode a).depth < (ofFields (row fields)).depth := by
  cases as with
  | nil => cases ha
  | cons _ _ => exact depth_lt_of_mem name h ha

end List

end Depth

end ScriptLint.Json
