import ScriptLang.Value

/-!
# Scopes

All scopes of a session (`Environment`), each with its bindings in the order of their declaration
and the scope around it. A name is looked up along the chain of a scope: the scope itself, the one
around it, and so on. Scopes are only ever added, so a scope is known by its index; the one around
it came before it.
-/
namespace ScriptLang

structure Scope where
  parent : Option ScopeId
  bindings : List (Json × Value)
  deriving DecidableEq

namespace Scope

def isNamed (key : Json.Key) (binding : Json × Value) : Bool := binding.1.key? == some key

def owns (s : Scope) (key : Json.Key) : Bool := s.bindings.any (isNamed key)

/-- The value that the scope itself binds a name to. -/
def value? (s : Scope) (key : Json.Key) : Option Value :=
  (s.bindings.find? (isNamed key)).map (·.2)

/-- The scope with one more binding, the last one. -/
def add (s : Scope) (name : Json) (value : Value) : Scope :=
  { s with bindings := s.bindings ++ [(name, value)] }

/-- The scope with a new value for a name that it binds. -/
def set (s : Scope) (key : Json.Key) (value : Value) : Scope :=
  { s with bindings := s.bindings.map fun b => if isNamed key b then (b.1, value) else b }

def names (s : Scope) : List Json := s.bindings.map (·.1)

end Scope

abbrev Snapshot := List (Json × String)

/-- The texts of some bindings, cut to the width of snapshots. -/
def snapshotOf : List (Json × Value) → Except Breakdown Snapshot
  | [] => .ok []
  | (name, value) :: bindings => do
    let shown ← value.shown
    return (name, Value.cut shown) :: (← snapshotOf bindings)

structure Scopes where
  toArray : Array Scope
  deriving DecidableEq

namespace Scopes

/-- A scope; one that does not exist has no bindings and none around it. -/
def get (h : Scopes) (id : ScopeId) : Scope := h.toArray.getD id ⟨none, []⟩

def size (h : Scopes) : Nat := h.toArray.size

/-- Adds an empty scope inside another or inside none. -/
def push (h : Scopes) (parent : Option ScopeId) : Scopes := ⟨h.toArray.push ⟨parent, []⟩⟩

def modify (h : Scopes) (id : ScopeId) (f : Scope → Scope) : Scopes := ⟨h.toArray.modify id f⟩

/-- A scope and at most `fuel` of those around it, from the inside out. -/
def chainFrom (h : Scopes) : Nat → ScopeId → List ScopeId
  | 0, id => [id]
  | fuel + 1, id =>
    match (h.get id).parent with
    | some parent => id :: h.chainFrom fuel parent
    | none => [id]

/-- A scope and those around it, from the inside out. As each came before the one inside it, there
are no more than `id` of them around the scope `id`. -/
def chain (h : Scopes) (id : ScopeId) : List ScopeId := h.chainFrom id id

/-- The nearest scope on the chain that binds a name (`_find_env`). -/
def owner? (h : Scopes) (id : ScopeId) (key : Json.Key) : Option ScopeId :=
  (h.chain id).find? fun s => (h.get s).owns key

/-- The key of a name; lists and objects cannot be names. -/
def keyOf (name : Json) : Except Fault Json.Key :=
  match name.key? with
  | some key => .ok key
  | none => .error (.internal (.badName name.kindName))

/-- The key of a name that can be declared in a scope: one that the scope does not bind yet. -/
def freeKey (h : Scopes) (id : ScopeId) (name : Json) : Except Fault Json.Key := do
  let key ← keyOf name
  if (h.get id).owns key then throw (.duplicate name) else return key

/-- The nearest scope that binds a name, with the key of the name. -/
def boundKey (h : Scopes) (id : ScopeId) (name : Json) : Except Fault (ScopeId × Json.Key) := do
  let key ← keyOf name
  match h.owner? id key with
  | some owner => return (owner, key)
  | none => throw (.unassignable name)

/-- Binds a name in a scope, which must not bind it yet (`Environment.declare`). -/
def declare (h : Scopes) (id : ScopeId) (name : Json) (value : Value) : Except Fault Scopes := do
  let _ ← h.freeKey id name
  return h.modify id (·.add name value)

/-- Gives a new value to a name where it is bound (`Environment.assign`). -/
def assign (h : Scopes) (id : ScopeId) (name : Json) (value : Value) : Except Fault Scopes := do
  let (owner, key) ← h.boundKey id name
  return h.modify owner (·.set key value)

/-- The value of a name (`Environment.lookup`). -/
def lookup (h : Scopes) (id : ScopeId) (name : Json) : Except Fault Value := do
  let key ← keyOf name
  match (h.owner? id key).bind fun owner => (h.get owner).value? key with
  | some value => return value
  | none => throw (.undeclared name)

/-- A name is bound somewhere on the chain (`Environment.has`). -/
def has (h : Scopes) (id : ScopeId) (name : Json) : Bool :=
  name.key?.any fun key => (h.owner? id key).isSome

/-- The bindings of a scope as texts (`Environment.snapshot`). -/
def snapshot (h : Scopes) (id : ScopeId) : Except Breakdown Snapshot :=
  snapshotOf (h.get id).bindings

/-- A description of a scope (`Environment.__repr__`): how many there are around it, and its names in
the order of their characters. -/
def describe (h : Scopes) (id : ScopeId) : String :=
  let names := (h.get id).names.mergeSort fun a b => decide (a.inMessage ≤ b.inMessage)
  "<Environment depth=" ++ toString ((h.chain id).length - 1) ++ " names="
    ++ (Json.arr names).shown ++ ">"

end Scopes

end ScriptLang
