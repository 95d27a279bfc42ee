import ScriptLang.StepLog

/-!
# The machine

The state of a session, as an `Interpreter` holds it: scopes, output, step log and call stack.
Computations on it (`Eval`) give a value or a fault, or run out of fuel, and leave a state in each
case: a fault undoes nothing.
-/
namespace ScriptLang

/-- A call that has not returned: the name of the function, the scope of its parameters. -/
structure Frame where
  name : Json
  scope : ScopeId
  id : FrameId
  deriving DecidableEq

/-- Where the lines go (`output_sink`). A sink may stop a run with a fault instead of taking a line,
depending on the lines that it has taken. -/
structure Sink where
  refusal? : Array String → String → Option Fault

namespace Sink

def unlimited : Sink := ⟨fun _ _ => none⟩

def closingAfter (limit : Nat) : Sink :=
  ⟨fun taken _ => if limit ≤ taken.size then some (.internal .sinkClosed) else none⟩

def ofLimit : Option Nat → Sink
  | some limit => closingAfter limit
  | none => unlimited

end Sink

structure Machine where
  verbose : Bool
  sink : Sink
  scopes : Scopes
  /-- The lines printed so far. -/
  output : Array String
  log : StepLog
  /-- The frames that have not returned, the innermost first. -/
  stack : List Frame
  framesMade : Nat

namespace Machine

def globalScope : ScopeId := 0

/-- The only function that the language brings along. -/
def printName : String := "print"

/-- A machine before its first run (`Interpreter.__init__`): one scope, in which `print` is bound. -/
def freshInto (sink : Sink) (verbose : Bool) : Machine :=
  { verbose, sink
    scopes := ⟨#[⟨none, [(.str printName, .builtin printName globalScope)]⟩]⟩
    output := #[], log := .empty, stack := [], framesMade := 0 }

/-- A machine before its first run whose sink has a limit, or none. -/
def fresh (verbose : Bool) (sinkLimit : Option Nat) : Machine :=
  freshInto (.ofLimit sinkLimit) verbose

end Machine

inductive Outcome (α : Type) where
  | value (a : α)
  | fault (f : Fault)
  | outOfFuel

/-- A computation on the state of a session. -/
def Eval (α : Type) := Machine → Outcome α × Machine

namespace Eval

@[always_inline, inline]
def pure {α : Type} (a : α) : Eval α := fun m => (.value a, m)

@[always_inline, inline]
def bind {α β : Type} (x : Eval α) (f : α → Eval β) : Eval β := fun m =>
  match x m with
  | (.value a, m) => f a m
  | (.fault e, m) => (.fault e, m)
  | (.outOfFuel, m) => (.outOfFuel, m)

@[always_inline]
instance : Monad Eval where
  pure := pure
  bind := bind

def fail {α : Type} (f : Fault) : Eval α := fun m => (.fault f, m)

def exhausted {α : Type} : Eval α := fun m => (.outOfFuel, m)

/-- A part of the state. -/
@[always_inline, inline]
def read {α : Type} (f : Machine → α) : Eval α := fun m => (.value (f m), m)

@[always_inline, inline]
def update (f : Machine → Machine) : Eval Unit := fun m => (.value (), f m)

/-- A result that may be a fault. -/
def ofExcept {α : Type} : Except Fault α → Eval α
  | .ok a => pure a
  | .error f => fail f

def ofBreakdown {α : Type} : Except Breakdown α → Eval α
  | .ok a => pure a
  | .error b => fail (.internal b)

/-! ## Scopes -/

def newScope (parent : ScopeId) : Eval ScopeId := fun m =>
  (.value m.scopes.size, { m with scopes := m.scopes.push (some parent) })

def lookup (scope : ScopeId) (name : Json) : Eval Value := fun m =>
  match m.scopes.lookup scope name with
  | .ok value => (.value value, m)
  | .error f => (.fault f, m)

/-- Changes the scopes, or fails and leaves them. -/
def rescope (change : Scopes → Except Fault Scopes) : Eval Unit := fun m =>
  match change m.scopes with
  | .ok scopes => (.value (), { m with scopes })
  | .error f => (.fault f, m)

def declare (scope : ScopeId) (name : Json) (value : Value) : Eval Unit :=
  rescope (·.declare scope name value)

def assign (scope : ScopeId) (name : Json) (value : Value) : Eval Unit :=
  rescope (·.assign scope name value)

section

variable (scope : ScopeId) (name : Json) (value : Value) (m : Machine)

theorem declare_run : declare scope name value m =
    match m.scopes.freeKey scope name with
    | .ok _ => (.value (), { m with scopes := m.scopes.modify scope (·.add name value) })
    | .error f => (.fault f, m) := by
  unfold declare rescope Scopes.declare
  dsimp only
  cases m.scopes.freeKey scope name <;> rfl

theorem assign_run : assign scope name value m =
    match m.scopes.boundKey scope name with
    | .ok (owner, key) =>
      (.value (), { m with scopes := m.scopes.modify owner (·.set key value) })
    | .error f => (.fault f, m) := by
  unfold assign rescope Scopes.assign
  dsimp only
  cases m.scopes.boundKey scope name <;> rfl

end

/-! ## Output -/

/-- Prints a line, unless the sink refuses it. -/
def print (line : String) : Eval Unit := fun m =>
  match m.sink.refusal? m.output line with
  | some f => (.fault f, m)
  | none => (.value (), { m with output := m.output.push line })

/-! ## Frames and steps -/

/-- Enters a call (`_new_frame`). -/
def pushFrame (name : Json) (scope : ScopeId) : Eval FrameId := fun m =>
  (.value m.framesMade,
    { m with stack := ⟨name, scope, m.framesMade⟩ :: m.stack, framesMade := m.framesMade + 1 })

/-- Leaves the innermost call. -/
def popFrame : Eval Unit := update fun m => { m with stack := m.stack.tail }

/-- Drops what the log keeps of a frame (`forget_frame`). -/
def forgetFrame (id : FrameId) : Eval Unit := update fun m => { m with log := m.log.forget id }

def texts : List Value → Except Breakdown (List String)
  | [] => .ok []
  | value :: values => do
    let first ← value.text
    return first :: (← texts values)

/-- What a verbose session notes of a step: the bindings of a scope, and for a call the name and the
texts of the arguments. -/
def notes (scopes : Scopes) (scope : ScopeId) (call : Option (Json × List Value)) :
    Except Breakdown (Option CallDetail × Option Snapshot) := do
  let snapshot ← scopes.snapshot scope
  match call with
  | none => return (none, some snapshot)
  | some (function, args) => return (some ⟨function, ← texts args⟩, some snapshot)

/-- Records a step of the innermost frame (`_log_step`). -/
def step (rule : Json) (scope : ScopeId) (call : Option (Json × List Value)) : Eval Unit := fun m =>
  match m.stack with
  | [] => (.value (), m)
  | frame :: _ =>
    if m.verbose then
      match notes m.scopes scope call with
      | .ok (detail, snapshot) =>
        (.value (), { m with log := m.log.record frame.id rule detail snapshot })
      | .error b => (.fault (.internal b), m)
    else (.value (), { m with log := m.log.record frame.id rule none none })

end Eval

end ScriptLang
