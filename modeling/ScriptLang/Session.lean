import ScriptLang.Evaluator

/-!
# Runs and sessions

A run of a program on a machine: its top-level functions are declared in order, everything else at
the top level is passed over, and then `main` is called without arguments. A session is a sequence
of runs on one machine. A run that succeeds leaves the call stack as it was; a run that fails leaves
its frames on it, for the traceback.
-/
namespace ScriptLang

/-- How a run ends. A fault is known with the index of the last step before it. -/
inductive RunResult where
  | value (v : Value)
  | fault (f : Fault) (step : Option Nat)
  | outOfFuel

namespace Session

def topLevelName : Json := .str "<top-level>"

def mainName : Json := .str "main"

/-- Declares the functions among some statements, in order. -/
def hoist (fuel : Nat) : List Node → Eval Unit
  | [] => pure ()
  | node :: nodes => do
    match node with
    | .function .. =>
      let _ ← Evaluator.execute fuel node Machine.globalScope
      hoist fuel nodes
    | _ => hoist fuel nodes

/-- The function that the global scope binds `main` to. -/
def mainOf (h : Scopes) : Option Closure :=
  match (h.get Machine.globalScope).value? (.text "main") with
  | some (.closure c) => some c
  | _ => none

def runBody (fuel : Nat) (p : Program) : Eval Value := do
  hoist fuel p.statements
  match ← Eval.read fun m => mainOf m.scopes with
  | none => Eval.fail .mainMissing
  | some main =>
    Eval.step Evaluator.callRule Machine.globalScope (some (mainName, []))
    Evaluator.callClosure fuel main []

/-- A run with a given amount of fuel (`Interpreter._run`). -/
def runWith (fuel : Nat) (p : Program) : Eval Value := do
  let _ ← Eval.pushFrame topLevelName Machine.globalScope
  let result ← runBody fuel p
  Eval.popFrame
  return result

end Session

/-- Runs a program on a machine. -/
def Machine.run (m : Machine) (p : Program) : RunResult × Machine :=
  match Session.runWith Evaluator.fuel p m with
  | (.value v, m) => (.value v, m)
  | (.fault f, m) => (.fault f (m.log.last.map (·.index)), m)
  | (.outOfFuel, m) => (.outOfFuel, m)

end ScriptLang
