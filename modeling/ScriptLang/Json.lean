import ScriptLang.Entries
import ScriptLang.Number.Binary64

/-!
# Data of the interchange format

Documents of the JSON form in which programs are stored. Integers and floats are kept apart, and
an object is a list of fields in the order of their first appearance. Equality (`=`) is identity of
documents; `Json.equal` is the equality of the language, in which numbers compare by value and the
order of fields does not matter.
-/
namespace ScriptLang

inductive Json where
  | null
  | bool (b : Bool)
  | int (n : Int)
  | float (x : Float)
  | str (s : String)
  | arr (items : List Json)
  | obj (fields : List (String × Json))
  deriving Inhabited

namespace Json

/-! ## Identity -/

mutual

def same : Json → Json → Bool
  | .null, .null => true
  | .bool a, .bool b => a == b
  | .int a, .int b => a == b
  | .float a, .float b => decide (a = b)
  | .str a, .str b => a == b
  | .arr a, .arr b => sameItems a b
  | .obj a, .obj b => sameFields a b
  | _, _ => false

def sameItems : List Json → List Json → Bool
  | [], [] => true
  | a :: as, b :: bs => a.same b && sameItems as bs
  | _, _ => false

def sameFields : List (String × Json) → List (String × Json) → Bool
  | [], [] => true
  | (k, a) :: as, (l, b) :: bs => k == l && a.same b && sameFields as bs
  | _, _ => false

end

mutual

theorem same_iff (a b : Json) : a.same b = true ↔ a = b := by
  cases a <;> cases b <;> simp [same, sameItems_iff, sameFields_iff]

theorem sameItems_iff (a b : List Json) : sameItems a b = true ↔ a = b := by
  cases a <;> cases b <;> simp [sameItems, same_iff, sameItems_iff]

theorem sameFields_iff (a b : List (String × Json)) : sameFields a b = true ↔ a = b := by
  match a, b with
  | [], [] => simp [sameFields]
  | [], _ :: _ => simp [sameFields]
  | _ :: _, [] => simp [sameFields]
  | (k, a) :: as, (l, b) :: bs => simp [sameFields, same_iff, sameFields_iff, and_assoc]

end

instance : DecidableEq Json := fun a b => decidable_of_iff _ (same_iff a b)

/-! ## Names

A variable may be named by any scalar. Two names are the same name iff they have the same key: a
number or truth value counts by its value, so `1`, `1.0` and `true` are one name. -/

inductive Key where
  | null
  | text (s : String)
  | number (value : Binary64.Exact)
  deriving DecidableEq

/-- The key of a scalar; lists and objects have none. -/
def key? : Json → Option Key
  | .null => some .null
  | .bool b => some (.number (.ofInt b.toInt))
  | .int n => some (.number (.ofInt n))
  | .float x => some (.number (Binary64.exact x))
  | .str s => some (.text s)
  | .arr _ => none
  | .obj _ => none

/-- The word for the kind of a document in error messages. -/
def kindName : Json → String
  | .null => "NoneType"
  | .bool _ => "bool"
  | .int _ => "int"
  | .float _ => "float"
  | .str _ => "str"
  | .arr _ => "list"
  | .obj _ => "dict"

/-! ## Equality of the language -/

mutual

/-- Scalars are equal iff their keys are, lists item by item, objects field by field in any
order. -/
def equal : Json → Json → Bool
  | .arr as, .arr bs => equalItems as bs
  | .obj as, .obj bs => as.length == bs.length && equalFields as bs
  | .arr _, _ => false
  | .obj _, _ => false
  | a, b => a.key? == b.key?

def equalItems : List Json → List Json → Bool
  | [], [] => true
  | a :: as, b :: bs => a.equal b && equalItems as bs
  | _, _ => false

/-- Every field of the first object is in the second, with an equal value. -/
def equalFields : List (String × Json) → List (String × Json) → Bool
  | [], _ => true
  | (k, a) :: as, bs => (Entries.get? bs k).any a.equal && equalFields as bs

end

def truthy : Json → Bool
  | .null => false
  | .bool b => b
  | .int n => n != 0
  | .float x => Binary64.exact x != .finite 0
  | .str s => s != ""
  | .arr items => !items.isEmpty
  | .obj fields => !fields.isEmpty

end Json

end ScriptLang
