import ScriptLang.Json.Writer

/-!
# Documents that a text can hold

Objects are lists of fields, and integers are unbounded. A text holds a document as it is if no
object in it has two fields of one name and no integer in it has too many digits.

Results:
* `isSound_arr`, `isSound_obj`: a document is sound iff its parts are and its names are distinct.
-/
namespace ScriptLang.Json

mutual

/-- No object in the document has two fields of one name. -/
def hasDistinctNames : Json → Bool
  | .arr items => haveDistinctNames items
  | .obj fields => decide (fields.map (·.1)).Nodup && fieldsHaveDistinctNames fields
  | _ => true

def haveDistinctNames : List Json → Bool
  | [] => true
  | item :: items => item.hasDistinctNames && haveDistinctNames items

def fieldsHaveDistinctNames : List (String × Json) → Bool
  | [] => true
  | (_, value) :: fields => value.hasDistinctNames && fieldsHaveDistinctNames fields

end

/-- A document that a text can hold: no integer in it is too long, and no object has a name
twice. -/
structure IsSound (j : Json) : Prop where
  writable : j.isWritable = true
  distinct : j.hasDistinctNames = true

instance (j : Json) : Decidable j.IsSound :=
  decidable_of_iff (j.isWritable = true ∧ j.hasDistinctNames = true)
    ⟨fun h => ⟨h.1, h.2⟩, fun h => ⟨h.writable, h.distinct⟩⟩

theorem areWritable_iff (items : List Json) :
    areWritable items = true ↔ ∀ item ∈ items, item.isWritable = true := by
  induction items with
  | nil => simp [areWritable]
  | cons item items ih => rw [areWritable, Bool.and_eq_true, ih, List.forall_mem_cons]

theorem fieldsWritable_iff (fields : List (String × Json)) :
    fieldsWritable fields = true ↔ ∀ field ∈ fields, field.2.isWritable = true := by
  induction fields with
  | nil => simp [fieldsWritable]
  | cons field fields ih => rw [fieldsWritable, Bool.and_eq_true, ih, List.forall_mem_cons]

theorem haveDistinctNames_iff (items : List Json) :
    haveDistinctNames items = true ↔ ∀ item ∈ items, item.hasDistinctNames = true := by
  induction items with
  | nil => simp [haveDistinctNames]
  | cons item items ih => rw [haveDistinctNames, Bool.and_eq_true, ih, List.forall_mem_cons]

theorem fieldsHaveDistinctNames_iff (fields : List (String × Json)) :
    fieldsHaveDistinctNames fields = true ↔
      ∀ field ∈ fields, field.2.hasDistinctNames = true := by
  induction fields with
  | nil => simp [fieldsHaveDistinctNames]
  | cons field fields ih =>
    rw [fieldsHaveDistinctNames, Bool.and_eq_true, ih, List.forall_mem_cons]

theorem isSound_str (s : String) : IsSound (.str s) := ⟨rfl, rfl⟩

theorem isSound_null : IsSound .null := ⟨rfl, rfl⟩

theorem isSound_arr (items : List Json) : IsSound (.arr items) ↔ ∀ item ∈ items, IsSound item := by
  constructor
  · intro ⟨hw, hd⟩ item hm
    rw [isWritable, areWritable_iff] at hw
    rw [hasDistinctNames, haveDistinctNames_iff] at hd
    exact ⟨hw item hm, hd item hm⟩
  · intro h
    refine ⟨?_, ?_⟩
    · rw [isWritable, areWritable_iff]
      exact fun item hm => (h item hm).writable
    · rw [hasDistinctNames, haveDistinctNames_iff]
      exact fun item hm => (h item hm).distinct

theorem isSound_obj (fields : List (String × Json)) :
    IsSound (.obj fields) ↔
      (fields.map (·.1)).Nodup ∧ ∀ field ∈ fields, IsSound field.2 := by
  constructor
  · intro ⟨hw, hd⟩
    rw [isWritable, fieldsWritable_iff] at hw
    rw [hasDistinctNames, Bool.and_eq_true, decide_eq_true_eq, fieldsHaveDistinctNames_iff] at hd
    exact ⟨hd.1, fun field hm => ⟨hw field hm, hd.2 field hm⟩⟩
  · intro ⟨hn, h⟩
    refine ⟨?_, ?_⟩
    · rw [isWritable, fieldsWritable_iff]
      exact fun field hm => (h field hm).writable
    · rw [hasDistinctNames, Bool.and_eq_true, decide_eq_true_eq, fieldsHaveDistinctNames_iff]
      exact ⟨hn, fun field hm => (h field hm).distinct⟩

theorem IsSound.lt_tooLarge {n : Int} (h : IsSound (.int n)) : n.natAbs < IntText.tooLarge := by
  have hw := h.writable
  rwa [isWritable, decide_eq_true_eq] at hw

end ScriptLang.Json
