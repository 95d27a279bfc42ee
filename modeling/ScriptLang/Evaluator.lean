import ScriptLang.Machine
import ScriptLang.Operator

/-!
# Evaluation

Programs as computations on a machine: the methods of `Interpreter` that execute statements and
evaluate expressions. A statement completes normally or with a pending return, which blocks and loops
hand on and only a call takes. Each unit of fuel is one level of nesting or one round of a loop, so
`Evaluator.fuel` lasts for every run that ends in a lifetime.

Calls may be nested to any depth. That a host has a recursion budget, and what a run does that exhausts
it, is left out.
-/
namespace ScriptLang

/-- How a statement completes. The value of a normal completion is used by nothing. -/
inductive Completion where
  | normal (value : Value)
  | returned (value : Value)
  deriving DecidableEq

def Completion.result : Completion → Value
  | .normal _ => .null
  | .returned value => value

namespace Evaluator

def fuel : Nat := Nat.pow 2 62

def callRule : Json := .str "CALL"

/-- Binds parameters in the scope of a call. Parameters without an argument are null, arguments without
a parameter are dropped. -/
def bindParams (scope : ScopeId) : List Json → List Value → Eval Unit
  | [], _ => pure ()
  | param :: params, args => do
    Eval.declare scope param (args.headD .null)
    bindParams scope params args.tail

/-- Calls a builtin (`Builtins._print`): prints the texts of the arguments on one line. -/
def callBuiltin (args : List Value) : Eval Value := do
  let words ← Eval.ofBreakdown (Eval.texts args)
  Eval.print (" ".intercalate words)
  return .null

def declareFunction (name : Json) (params : List Json) (body : List Node) (scope : ScopeId) :
    Eval Completion := do
  let function := Value.closure ⟨name, params, body, scope⟩
  Eval.declare scope name function
  return .normal function

mutual

/-- The value of an expression in a scope (`_evaluate_expression`, `_evaluate_binary`,
`_evaluate_call`). -/
def evaluate : Nat → Node → ScopeId → Eval Value
  | 0, _, _ => Eval.exhausted
  | fuel + 1, node, scope =>
    match node with
    | .literal _ value => return .data value
    | .identifier name => Eval.lookup scope name
    | .binary left operator right =>
      match Operator.ofDocument operator with
      | .assign =>
        match left with
        | .identifier name => do
          let value ← evaluate fuel right scope
          Eval.assign scope name value
          return value
        | _ => Eval.fail .badTarget
      | operator => do
        let l ← evaluate fuel left scope
        let r ← evaluate fuel right scope
        Eval.ofExcept (operator.apply l r)
    | .call name args => do
      let callee ← Eval.lookup scope name
      let args ← evaluateAll fuel args scope
      match callee with
      | .builtin _ _ =>
        Eval.step name scope (some (name, args))
        callBuiltin args
      | .closure function =>
        Eval.step callRule scope (some (name, args))
        callClosure fuel function args
      | _ => Eval.fail (.notAFunction name)
    | other => Eval.fail (.unhandledNode other.kindName)

/-- The values of expressions, from left to right. -/
def evaluateAll : Nat → List Node → ScopeId → Eval (List Value)
  | 0, _, _ => Eval.exhausted
  | fuel + 1, nodes, scope =>
    match nodes with
    | [] => return []
    | node :: nodes => do
      let first ← evaluate fuel node scope
      let rest ← evaluateAll fuel nodes scope
      return first :: rest

/-- Calls a function (`_call_function`): its parameters are bound in a new scope inside the one it was
declared in, and its body is a block in there. -/
def callClosure : Nat → Closure → List Value → Eval Value
  | 0, _, _ => Eval.exhausted
  | fuel + 1, function, args => do
    let scope ← Eval.newScope function.scope
    bindParams scope function.params args
    let frame ← Eval.pushFrame function.name scope
    let completion ← executeBlock fuel function.body scope
    Eval.popFrame
    Eval.forgetFrame frame
    return completion.result

/-- Executes statements in a new scope inside another (`_execute_block`). -/
def executeBlock : Nat → List Node → ScopeId → Eval Completion
  | 0, _, _ => Eval.exhausted
  | fuel + 1, nodes, scope => do
    let inner ← Eval.newScope scope
    executeAll fuel nodes inner (.normal .null)

/-- Executes statements one after another, up to a return; `before` is how the one before them
completed. -/
def executeAll : Nat → List Node → ScopeId → Completion → Eval Completion
  | 0, _, _, _ => Eval.exhausted
  | fuel + 1, nodes, scope, before =>
    match nodes with
    | [] => return before
    | node :: nodes => do
      match ← execute fuel node scope with
      | .returned value => return .returned value
      | completion => executeAll fuel nodes scope completion

/-- Executes a statement in a scope (`_execute_statement`). -/
def execute : Nat → Node → ScopeId → Eval Completion
  | 0, _, _ => Eval.exhausted
  | fuel + 1, node, scope => do
    Eval.step (.str node.kindName) scope none
    match node with
    | .expression value =>
      let _ ← evaluate fuel value scope
      return .normal .null
    | .declare name value =>
      let value ← evaluate fuel value scope
      Eval.declare scope name value
      return .normal value
    | .block body => executeBlock fuel body scope
    | .branch test consequent alternate =>
      let chosen ← evaluate fuel test scope
      if chosen.truthy then executeBlock fuel consequent scope
      else
        match alternate with
        | some alternate => executeBlock fuel alternate scope
        | none => return .normal .null
    | .loop test body => executeLoop fuel test body scope (.normal .null)
    | .function name params body => declareFunction name params body scope
    | .ret argument =>
      match argument with
      | some argument =>
        let value ← evaluate fuel argument scope
        return .returned value
      | none => return .returned .null
    | .importFile path => Eval.fail (.unlinkedImport path)
    | other => Eval.fail (.unhandledNode other.kindName)

/-- Executes a block as long as a test holds (`_execute_while`); `before` is how the last round
completed. -/
def executeLoop : Nat → Node → List Node → ScopeId → Completion → Eval Completion
  | 0, _, _, _, _ => Eval.exhausted
  | fuel + 1, test, body, scope, before => do
    let again ← evaluate fuel test scope
    if again.truthy then
      match ← executeBlock fuel body scope with
      | .returned value => return .returned value
      | completion => executeLoop fuel test body scope completion
    else return before

end

end Evaluator

end ScriptLang
