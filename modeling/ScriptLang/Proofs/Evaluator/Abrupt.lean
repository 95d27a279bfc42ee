import ScriptLang.Session

/-!
# Evaluation with an abrupt return

A second evaluator for programs, in which a return leaves everything at once up to the innermost
call of a function, as an exception leaves everything up to its handler. Blocks, branches and loops
sequence their parts and know nothing of returns; the one place that takes a return is `invoke`.

It works on the machine of `Evaluator`, and beside it keeps a trace: which frame started a
statement or made a call, which frame executed a return, and which one ended with what value.
-/
namespace ScriptLang

/-- What a traced run does that others can tell apart, each by the innermost frame. -/
inductive Event where
  /-- A statement of the frame starts. -/
  | started (frame : FrameId)
  /-- The frame calls a function or a builtin. -/
  | called (frame : FrameId)
  /-- A return of the frame has been executed. -/
  | returned (frame : FrameId) (value : Value)
  /-- The call of the frame ends and gives a value. -/
  | ended (frame : FrameId) (value : Value)

def Event.frame : Event → FrameId
  | .started frame => frame
  | .called frame => frame
  | .returned frame _ => frame
  | .ended frame _ => frame

def Event.isStep : Event → Bool
  | .started _ | .called _ => true
  | .returned .. | .ended .. => false

/-- A machine with the events of a run so far, in their order. -/
structure Traced where
  machine : Machine
  events : List Event

/-- How a computation ends that a return may leave. -/
inductive Ending (α : Type) where
  | value (a : α)
  | returned (v : Value)
  | fault (f : Fault)
  | outOfFuel

/-- A computation that a return may leave. -/
def Abrupt (α : Type) := Traced → Ending α × Traced

namespace Abrupt

/-! ## Computations -/

def pure {α : Type} (a : α) : Abrupt α := fun t => (.value a, t)

def bind {α β : Type} (x : Abrupt α) (f : α → Abrupt β) : Abrupt β := fun t =>
  match x t with
  | (.value a, t) => f a t
  | (.returned v, t) => (.returned v, t)
  | (.fault e, t) => (.fault e, t)
  | (.outOfFuel, t) => (.outOfFuel, t)

instance : Monad Abrupt where
  pure := pure
  bind := bind

/-- A computation on the machine that leaves no trace. -/
def lift {α : Type} (x : Eval α) : Abrupt α := fun t =>
  match x t.machine with
  | (.value a, m) => (.value a, ⟨m, t.events⟩)
  | (.fault e, m) => (.fault e, ⟨m, t.events⟩)
  | (.outOfFuel, m) => (.outOfFuel, ⟨m, t.events⟩)

def record (event : FrameId → Event) (t : Traced) : Traced :=
  match t.machine.stack with
  | [] => t
  | frame :: _ => ⟨t.machine, t.events ++ [event frame.id]⟩

/-- Adds an event of the innermost frame to the trace. -/
def note (event : FrameId → Event) : Abrupt Unit := fun t => (.value (), record event t)

/-- Executes a return: nothing but the innermost call takes it. -/
def leave (v : Value) : Abrupt Unit := fun t => (.returned v, record (.returned · v) t)

/-- Runs the body of a call. A return in it ends it with a value; running to its end gives null. -/
def catchReturn (body : Abrupt Unit) : Abrupt Value := fun t =>
  match body t with
  | (.value (), t) => (.value .null, t)
  | (.returned v, t) => (.value v, t)
  | (.fault e, t) => (.fault e, t)
  | (.outOfFuel, t) => (.outOfFuel, t)

/-- Runs the body of a call in a frame of its own. -/
def invoke (name : Json) (scope : ScopeId) (body : Abrupt Unit) : Abrupt Value := do
  let frame ← lift (Eval.pushFrame name scope)
  let result ← catchReturn body
  note (.ended · result)
  lift Eval.popFrame
  lift (Eval.forgetFrame frame)
  return result

/-! ## Programs -/

mutual

def evaluate : Nat → Node → ScopeId → Abrupt Value
  | 0, _, _ => lift Eval.exhausted
  | fuel + 1, node, scope =>
    match node with
    | .literal _ value => return .data value
    | .identifier name => lift (Eval.lookup scope name)
    | .binary left operator right =>
      match Operator.ofDocument operator with
      | .assign =>
        match left with
        | .identifier name => do
          let value ← evaluate fuel right scope
          lift (Eval.assign scope name value)
          return value
        | _ => lift (Eval.fail .badTarget)
      | operator => do
        let l ← evaluate fuel left scope
        let r ← evaluate fuel right scope
        lift (Eval.ofExcept (operator.apply l r))
    | .call name args => do
      let callee ← lift (Eval.lookup scope name)
      let args ← evaluateAll fuel args scope
      match callee with
      | .builtin _ _ =>
        lift (Eval.step name scope (some (name, args)))
        note .called
        lift (Evaluator.callBuiltin args)
      | .closure function =>
        lift (Eval.step Evaluator.callRule scope (some (name, args)))
        note .called
        callClosure fuel function args
      | _ => lift (Eval.fail (.notAFunction name))
    | other => lift (Eval.fail (.unhandledNode other.kindName))

def evaluateAll : Nat → List Node → ScopeId → Abrupt (List Value)
  | 0, _, _ => lift Eval.exhausted
  | fuel + 1, nodes, scope =>
    match nodes with
    | [] => return []
    | node :: nodes => do
      let first ← evaluate fuel node scope
      let rest ← evaluateAll fuel nodes scope
      return first :: rest

def callClosure : Nat → Closure → List Value → Abrupt Value
  | 0, _, _ => lift Eval.exhausted
  | fuel + 1, function, args => do
    let scope ← lift (Eval.newScope function.scope)
    lift (Evaluator.bindParams scope function.params args)
    invoke function.name scope (executeBlock fuel function.body scope)

def executeBlock : Nat → List Node → ScopeId → Abrupt Unit
  | 0, _, _ => lift Eval.exhausted
  | fuel + 1, nodes, scope => do
    let inner ← lift (Eval.newScope scope)
    executeAll fuel nodes inner

def executeAll : Nat → List Node → ScopeId → Abrupt Unit
  | 0, _, _ => lift Eval.exhausted
  | fuel + 1, nodes, scope =>
    match nodes with
    | [] => return ()
    | node :: nodes => do
      execute fuel node scope
      executeAll fuel nodes scope

def execute : Nat → Node → ScopeId → Abrupt Unit
  | 0, _, _ => lift Eval.exhausted
  | fuel + 1, node, scope => do
    lift (Eval.step (.str node.kindName) scope none)
    note .started
    match node with
    | .expression value =>
      let _ ← evaluate fuel value scope
      return ()
    | .declare name value =>
      let value ← evaluate fuel value scope
      lift (Eval.declare scope name value)
    | .block body => executeBlock fuel body scope
    | .branch test consequent alternate =>
      let chosen ← evaluate fuel test scope
      if chosen.truthy then executeBlock fuel consequent scope
      else
        match alternate with
        | some alternate => executeBlock fuel alternate scope
        | none => return ()
    | .loop test body => executeLoop fuel test body scope
    | .function name params body =>
      lift (Eval.declare scope name (.closure ⟨name, params, body, scope⟩))
    | .ret argument =>
      match argument with
      | some argument =>
        let value ← evaluate fuel argument scope
        leave value
      | none => leave .null
    | .importFile path => lift (Eval.fail (.unlinkedImport path))
    | other => lift (Eval.fail (.unhandledNode other.kindName))

def executeLoop : Nat → Node → List Node → ScopeId → Abrupt Unit
  | 0, _, _, _ => lift Eval.exhausted
  | fuel + 1, test, body, scope => do
    let again ← evaluate fuel test scope
    if again.truthy then
      executeBlock fuel body scope
      executeLoop fuel test body scope
    else return ()

end

def hoist (fuel : Nat) : List Node → Abrupt Unit
  | [] => return ()
  | node :: nodes => do
    match node with
    | .function .. =>
      execute fuel node Machine.globalScope
      hoist fuel nodes
    | _ => hoist fuel nodes

def runBody (fuel : Nat) (p : Program) : Abrupt Value := do
  hoist fuel p.statements
  match ← lift (Eval.read fun m => Session.mainOf m.scopes) with
  | none => lift (Eval.fail .mainMissing)
  | some main =>
    lift (Eval.step Evaluator.callRule Machine.globalScope (some (Session.mainName, [])))
    note .called
    callClosure fuel main []

def runWith (fuel : Nat) (p : Program) : Abrupt Value := do
  let _ ← lift (Eval.pushFrame Session.topLevelName Machine.globalScope)
  let result ← runBody fuel p
  lift Eval.popFrame
  return result

/-- Runs a program on a machine, as `Machine.run` does. A return that no call takes ends the run. -/
def run (m : Machine) (p : Program) : RunResult × Machine :=
  match runWith Evaluator.fuel p ⟨m, []⟩ with
  | (.value v, t) => (.value v, t.machine)
  | (.returned v, t) => (.value v, t.machine)
  | (.fault f, t) => (.fault f (t.machine.log.last.map (·.index)), t.machine)
  | (.outOfFuel, t) => (.outOfFuel, t.machine)

end Abrupt

end ScriptLang
