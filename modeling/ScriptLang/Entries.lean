/-!
# Entries

Lists of keys with values in the order in which the keys first came. Giving a key a new value leaves
it in its place.
-/
namespace ScriptLang.Entries

variable {κ α : Type} [BEq κ]

def get? (entries : List (κ × α)) (key : κ) : Option α :=
  (entries.find? (·.1 == key)).map (·.2)

def has (entries : List (κ × α)) (key : κ) : Bool := entries.any (·.1 == key)

/-- Gives a key a value, in its place if it has one already and at the end if not. -/
def set (entries : List (κ × α)) (key : κ) (value : α) : List (κ × α) :=
  if has entries key then entries.map fun e => if e.1 == key then (e.1, value) else e
  else entries ++ [(key, value)]

def erase (entries : List (κ × α)) (key : κ) : List (κ × α) := entries.filter (·.1 != key)

end ScriptLang.Entries
