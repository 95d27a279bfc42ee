import ScriptLang.Fault
import ScriptLang.Json.Writer
import ScriptLang.Node

/-!
# Values

What variables hold: data and functions. A function is known by the scope and the name it was
declared under, of which there is only one at a time, so two functions are the same iff these are.
A host that uses the language may also bring collections of values, which no program can build; the
lists and objects of a stored program are data.
-/
namespace ScriptLang

/-- The index of a scope among all scopes. -/
abbrev ScopeId := Nat

/-- A function (`Function`) with the scope that its free variables are looked up in, which is also the
one it was declared in. -/
structure Closure where
  name : Json
  params : List Json
  body : List Node
  scope : ScopeId
  deriving DecidableEq

inductive Value where
  | data (j : Json)
  | closure (c : Closure)
  /-- A function that the language brings along, declared in the scope `home`. -/
  | builtin (name : String) (home : ScopeId)
  | list (items : List Value)
  | record (fields : List (String × Value))

namespace Value

/-! ## Identity -/

mutual

def same : Value → Value → Bool
  | .data a, .data b => decide (a = b)
  | .closure a, .closure b => decide (a = b)
  | .builtin a h, .builtin b i => a == b && h == i
  | .list a, .list b => sameItems a b
  | .record a, .record b => sameFields a b
  | _, _ => false

def sameItems : List Value → List Value → Bool
  | [], [] => true
  | a :: as, b :: bs => a.same b && sameItems as bs
  | _, _ => false

def sameFields : List (String × Value) → List (String × Value) → Bool
  | [], [] => true
  | (k, a) :: as, (l, b) :: bs => k == l && a.same b && sameFields as bs
  | _, _ => false

end

mutual

theorem same_iff (a b : Value) : a.same b = true ↔ a = b := by
  cases a <;> cases b <;> simp [same, sameItems_iff, sameFields_iff]

theorem sameItems_iff (a b : List Value) : sameItems a b = true ↔ a = b := by
  cases a <;> cases b <;> simp [sameItems, same_iff, sameItems_iff]

theorem sameFields_iff (a b : List (String × Value)) : sameFields a b = true ↔ a = b := by
  match a, b with
  | [], [] => simp [sameFields]
  | [], _ :: _ => simp [sameFields]
  | _ :: _, [] => simp [sameFields]
  | (k, a) :: as, (l, b) :: bs => simp [sameFields, same_iff, sameFields_iff, and_assoc]

end

instance : DecidableEq Value := fun a b => decidable_of_iff _ (same_iff a b)

def null : Value := .data .null

instance : Inhabited Value := ⟨null⟩

/-- What counts as true in a condition. -/
def truthy : Value → Bool
  | .data j => j.truthy
  | .list items => !items.isEmpty
  | .record fields => !fields.isEmpty
  | .closure _ | .builtin .. => true

/-! ## Texts -/

/-- The text, unless it is missing because an integer has too many digits. -/
def orDigitLimit (text? : Option String) : Except Breakdown String :=
  match text? with
  | some s => .ok s
  | none => .error .digitLimit

/-- The text of a float: integral ones have no point. -/
def floatText (x : Float) : String :=
  match Binary64.parts x with
  | .nan => "NaN"
  | .infinite negative => if negative then "-Infinity" else "Infinity"
  | .finite .. =>
    match Binary64.toInt? x with
    | some n => String.ofList (IntText.digits n)
    | none => Shortest.text x

/-- The document that stands for a function in texts. -/
def functionDocument (kind : String) (name : Json) (more : List (String × Json)) : Json :=
  .obj ([("type", .str kind), ("name", name)] ++ more)

/-- The texts of parameters, the first of which is the one numbered `index`. -/
def paramTexts (index : Nat) : List Json → Except Breakdown (List String)
  | [] => .ok []
  | .str s :: params => do return s :: (← paramTexts (index + 1) params)
  | j :: _ => .error (.badParameter index j.kindName)

mutual

/-- A value in full, as snapshots and collections show it. -/
def shown : Value → Except Breakdown String
  | .data j => orDigitLimit j.shown?
  | .closure c => do
    let params ← paramTexts 0 c.params
    return "<func " ++ c.name.inMessage ++ "(" ++ ", ".intercalate params ++ ")>"
  | .builtin name _ => .ok ("<builtin " ++ name ++ ">")
  | .list items => do return "[" ++ ", ".intercalate (← shownItems items) ++ "]"
  | .record fields => do
    return "\x7b" ++ ", ".intercalate (← shownFields fields) ++ "\x7d"

def shownItems : List Value → Except Breakdown (List String)
  | [] => .ok []
  | item :: items => do
    let first ← item.shown
    return first :: (← shownItems items)

def shownFields : List (String × Value) → Except Breakdown (List String)
  | [] => .ok []
  | (name, value) :: fields => do
    let first ← value.shown
    return (Text.quoted name ++ ": " ++ first) :: (← shownFields fields)

end

/-- The text of a value, as printing and joining it with a string show it (`format_value`). -/
def text : Value → Except Breakdown String
  | .data .null => .ok "null"
  | .data (.bool b) => .ok (if b then "true" else "false")
  | .data (.int n) => orDigitLimit (IntText.text? n)
  | .data (.float x) => .ok (floatText x)
  | .data (.str s) => .ok s
  | .data j => orDigitLimit j.shown?
  | .closure c =>
    .ok ((functionDocument "user-defined-function" c.name [("params", .arr c.params)]).render
      .asciiCompact)
  | .builtin name _ =>
    .ok ((functionDocument "builtin-function" (.str name) []).render .asciiCompact)
  | collection => collection.shown

def snapshotWidth : Nat := 80

/-- A text cut to the width of snapshots, with three points for what is cut off. -/
def cut (s : String) : String :=
  let cs := s.toList
  if snapshotWidth < cs.length then String.ofList (cs.take (snapshotWidth - 3) ++ ['.', '.', '.'])
  else s

/-! ## Numbers -/

/-- The numbers among the values; truth values are none. -/
inductive Number where
  | int (n : Int)
  | float (x : Float)

namespace Number

def exact : Number → Binary64.Exact
  | .int n => .ofInt n
  | .float x => Binary64.exact x

def toValue : Number → Value
  | .int n => .data (.int n)
  | .float x => .data (.float x)

/-- The float nearest to a number. -/
def toFloat : Number → Except Breakdown Float
  | .int n => (Binary64.ofInt? n).elim (.error .floatOverflow) .ok
  | .float x => .ok x

end Number

def number? : Value → Option Number
  | .data (.int n) => some (.int n)
  | .data (.float x) => some (.float x)
  | _ => none

end Value

end ScriptLang
