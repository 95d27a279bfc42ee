import Mathlib.Logic.Relation
import ScriptLang.Proofs.Evaluator.Logic
import ScriptLang.Proofs.Evaluator.Unwinding
import ScriptLang.Proofs.Session

/-!
# The activities of a run

A run is a tree of activities: evaluating an expression starts the evaluation of its parts, calling a
function starts its body, and so on. An activity is a task of the evaluator with the machine it starts
on, so that what holds of every activity holds of every state and of every value that a run comes by,
whether the run ends or not.

A fault arises in one activity and is handed up by all those that it is inside of.

Results:
* `Activity.fault_origin`: a fault of an activity is its own or that of one that it starts;
* `Session.fault_origin`: a fault of a run arises in one of its activities, or before there is any.
-/
namespace ScriptLang

variable {α β : Type}

/-! ## Activities -/

/-- What the evaluator can have to do. -/
inductive Task where
  | evaluate (node : Node) (scope : ScopeId)
  | evaluateAll (nodes : List Node) (scope : ScopeId)
  | call (function : Closure) (args : List Value)
  | block (nodes : List Node) (scope : ScopeId)
  | executeAll (nodes : List Node) (scope : ScopeId) (before : Completion)
  | execute (node : Node) (scope : ScopeId)
  | loop (test : Node) (body : List Node) (scope : ScopeId) (before : Completion)

namespace Task

/-- Does what there is to do, with some fuel, and gives the values that come out. -/
def run (fuel : Nat) : Task → Eval (List Value)
  | evaluate node scope => return [← Evaluator.evaluate fuel node scope]
  | evaluateAll nodes scope => Evaluator.evaluateAll fuel nodes scope
  | call function args => return [← Evaluator.callClosure fuel function args]
  | block nodes scope => return [(← Evaluator.executeBlock fuel nodes scope).value]
  | executeAll nodes scope before =>
    return [(← Evaluator.executeAll fuel nodes scope before).value]
  | execute node scope => return [(← Evaluator.execute fuel node scope).value]
  | loop test body scope before =>
    return [(← Evaluator.executeLoop fuel test body scope before).value]

def passed : Task → List Value
  | call _ args => args
  | executeAll _ _ before => [before.value]
  | loop _ _ _ before => [before.value]
  | _ => []

/-- What there is to do first, to execute a statement. -/
def ofStatement? (scope : ScopeId) : Node → Option Task
  | .expression value => some (evaluate value scope)
  | .declare _ value => some (evaluate value scope)
  | .block body => some (block body scope)
  | .branch test _ _ => some (evaluate test scope)
  | .loop test body => some (loop test body scope (.normal .null))
  | .ret (some argument) => some (evaluate argument scope)
  | _ => none

end Task

/-- A task with the fuel and the machine that the evaluator starts on it with. -/
structure Activity where
  fuel : Nat
  task : Task
  before : Machine

def Activity.run (a : Activity) : Outcome (List Value) × Machine := a.task.run a.fuel a.before

def Activity.after (a : Activity) : Machine := a.run.2

/-- The first activity starts the second one as a part of it. -/
inductive Starts : Activity → Activity → Prop
  | assigned {fuel x operator right scope m} : Operator.ofDocument operator = .assign →
      Starts ⟨fuel + 1, .evaluate (.binary (.identifier x) operator right) scope, m⟩
        ⟨fuel, .evaluate right scope, m⟩
  | left {fuel left operator right scope m} : Operator.ofDocument operator ≠ .assign →
      Starts ⟨fuel + 1, .evaluate (.binary left operator right) scope, m⟩
        ⟨fuel, .evaluate left scope, m⟩
  | right {fuel left operator right scope m l m'} : Operator.ofDocument operator ≠ .assign →
      Evaluator.evaluate fuel left scope m = (.value l, m') →
      Starts ⟨fuel + 1, .evaluate (.binary left operator right) scope, m⟩
        ⟨fuel, .evaluate right scope, m'⟩
  | arguments {fuel x args scope m callee m'} : Eval.lookup scope x m = (.value callee, m') →
      Starts ⟨fuel + 1, .evaluate (.call x args) scope, m⟩ ⟨fuel, .evaluateAll args scope, m'⟩
  | call {fuel x args scope m function m₁ vs m₂ m₃} :
      Eval.lookup scope x m = (.value (.closure function), m₁) →
      Evaluator.evaluateAll fuel args scope m₁ = (.value vs, m₂) →
      Eval.step Evaluator.callRule scope (some (x, vs)) m₂ = (.value (), m₃) →
      Starts ⟨fuel + 1, .evaluate (.call x args) scope, m⟩ ⟨fuel, .call function vs, m₃⟩
  | first {fuel node nodes scope m} :
      Starts ⟨fuel + 1, .evaluateAll (node :: nodes) scope, m⟩ ⟨fuel, .evaluate node scope, m⟩
  | rest {fuel node nodes scope m v m'} :
      Evaluator.evaluate fuel node scope m = (.value v, m') →
      Starts ⟨fuel + 1, .evaluateAll (node :: nodes) scope, m⟩
        ⟨fuel, .evaluateAll nodes scope, m'⟩
  | body {fuel function args m scope m₁ m₂ frame m₃} :
      Eval.newScope function.scope m = (.value scope, m₁) →
      Evaluator.bindParams scope function.params args m₁ = (.value (), m₂) →
      Eval.pushFrame function.name scope m₂ = (.value frame, m₃) →
      Starts ⟨fuel + 1, .call function args, m⟩ ⟨fuel, .block function.body scope, m₃⟩
  | inside {fuel nodes scope m inner m'} : Eval.newScope scope m = (.value inner, m') →
      Starts ⟨fuel + 1, .block nodes scope, m⟩
        ⟨fuel, .executeAll nodes inner (.normal .null), m'⟩
  | statement {fuel node nodes scope before m} :
      Starts ⟨fuel + 1, .executeAll (node :: nodes) scope before, m⟩
        ⟨fuel, .execute node scope, m⟩
  | next {fuel node nodes scope before m v m'} :
      Evaluator.execute fuel node scope m = (.value (.normal v), m') →
      Starts ⟨fuel + 1, .executeAll (node :: nodes) scope before, m⟩
        ⟨fuel, .executeAll nodes scope (.normal v), m'⟩
  | opening {fuel node scope m m' task} :
      Eval.step (.str node.kindName) scope none m = (.value (), m') →
      Task.ofStatement? scope node = some task →
      Starts ⟨fuel + 1, .execute node scope, m⟩ ⟨fuel, task, m'⟩
  | consequent {fuel test consequent alternate scope m m₁ v m₂} :
      Eval.step (.str (Node.branch test consequent alternate).kindName) scope none m =
        (.value (), m₁) →
      Evaluator.evaluate fuel test scope m₁ = (.value v, m₂) → v.truthy = true →
      Starts ⟨fuel + 1, .execute (.branch test consequent alternate) scope, m⟩
        ⟨fuel, .block consequent scope, m₂⟩
  | alternate {fuel test consequent alternate scope m m₁ v m₂} :
      Eval.step (.str (Node.branch test consequent (some alternate)).kindName) scope none m =
        (.value (), m₁) →
      Evaluator.evaluate fuel test scope m₁ = (.value v, m₂) → v.truthy = false →
      Starts ⟨fuel + 1, .execute (.branch test consequent (some alternate)) scope, m⟩
        ⟨fuel, .block alternate scope, m₂⟩
  | test {fuel test body scope before m} :
      Starts ⟨fuel + 1, .loop test body scope before, m⟩ ⟨fuel, .evaluate test scope, m⟩
  | round {fuel test body scope before m v m'} :
      Evaluator.evaluate fuel test scope m = (.value v, m') → v.truthy = true →
      Starts ⟨fuel + 1, .loop test body scope before, m⟩ ⟨fuel, .block body scope, m'⟩
  | again {fuel test body scope before m v m₁ w m₂} :
      Evaluator.evaluate fuel test scope m = (.value v, m₁) → v.truthy = true →
      Evaluator.executeBlock fuel body scope m₁ = (.value (.normal w), m₂) →
      Starts ⟨fuel + 1, .loop test body scope before, m⟩
        ⟨fuel, .loop test body scope (.normal w), m₂⟩

/-! ## Where faults arise -/

/-- The activity itself, and nothing that it starts, stops with the fault and leaves the machine. -/
inductive Breaks : Activity → Fault → Machine → Prop
  | identifier {fuel x scope m f m'} : Eval.lookup scope x m = (.fault f, m') →
      Breaks ⟨fuel + 1, .evaluate (.identifier x) scope, m⟩ f m'
  | target {fuel left operator right scope m} : Operator.ofDocument operator = .assign →
      (∀ x, left ≠ .identifier x) →
      Breaks ⟨fuel + 1, .evaluate (.binary left operator right) scope, m⟩ .badTarget m
  | assignment {fuel x operator right scope m v m₁ f m'} :
      Operator.ofDocument operator = .assign →
      Evaluator.evaluate fuel right scope m = (.value v, m₁) →
      Eval.assign scope x v m₁ = (.fault f, m') →
      Breaks ⟨fuel + 1, .evaluate (.binary (.identifier x) operator right) scope, m⟩ f m'
  | operation {fuel left operator right scope m l m₁ r m₂ f} :
      Operator.ofDocument operator ≠ .assign →
      Evaluator.evaluate fuel left scope m = (.value l, m₁) →
      Evaluator.evaluate fuel right scope m₁ = (.value r, m₂) →
      (Operator.ofDocument operator).apply l r = .error f →
      Breaks ⟨fuel + 1, .evaluate (.binary left operator right) scope, m⟩ f m₂
  | callee {fuel x args scope m f m'} : Eval.lookup scope x m = (.fault f, m') →
      Breaks ⟨fuel + 1, .evaluate (.call x args) scope, m⟩ f m'
  | calling {fuel x args scope m callee m₁ vs m₂ rule f m'} :
      Eval.lookup scope x m = (.value callee, m₁) →
      Evaluator.evaluateAll fuel args scope m₁ = (.value vs, m₂) →
      Eval.step rule scope (some (x, vs)) m₂ = (.fault f, m') →
      Breaks ⟨fuel + 1, .evaluate (.call x args) scope, m⟩ f m'
  | builtin {fuel x args scope m name home m₁ vs m₂ m₃ f m'} :
      Eval.lookup scope x m = (.value (.builtin name home), m₁) →
      Evaluator.evaluateAll fuel args scope m₁ = (.value vs, m₂) →
      Eval.step x scope (some (x, vs)) m₂ = (.value (), m₃) →
      Evaluator.callBuiltin vs m₃ = (.fault f, m') →
      Breaks ⟨fuel + 1, .evaluate (.call x args) scope, m⟩ f m'
  | notAFunction {fuel x args scope m callee m₁ vs m₂} :
      Eval.lookup scope x m = (.value callee, m₁) → (∀ c, callee ≠ .closure c) →
      (∀ name home, callee ≠ .builtin name home) →
      Evaluator.evaluateAll fuel args scope m₁ = (.value vs, m₂) →
      Breaks ⟨fuel + 1, .evaluate (.call x args) scope, m⟩ (.notAFunction x) m₂
  | noExpression {fuel node scope m} : node.isExpression = false →
      Breaks ⟨fuel + 1, .evaluate node scope, m⟩ (.unhandledNode node.kindName) m
  | parameters {fuel function args m scope m₁ f m'} :
      Eval.newScope function.scope m = (.value scope, m₁) →
      Evaluator.bindParams scope function.params args m₁ = (.fault f, m') →
      Breaks ⟨fuel + 1, .call function args, m⟩ f m'
  | statement {fuel node scope m f m'} :
      Eval.step (.str node.kindName) scope none m = (.fault f, m') →
      Breaks ⟨fuel + 1, .execute node scope, m⟩ f m'
  | declaration {fuel x value scope m m₁ v m₂ f m'} :
      Eval.step (.str (Node.declare x value).kindName) scope none m = (.value (), m₁) →
      Evaluator.evaluate fuel value scope m₁ = (.value v, m₂) →
      Eval.declare scope x v m₂ = (.fault f, m') →
      Breaks ⟨fuel + 1, .execute (.declare x value) scope, m⟩ f m'
  | function {fuel x params body scope m m₁ f m'} :
      Eval.step (.str (Node.function x params body).kindName) scope none m = (.value (), m₁) →
      Eval.declare scope x (.closure ⟨x, params, body, scope⟩) m₁ = (.fault f, m') →
      Breaks ⟨fuel + 1, .execute (.function x params body) scope, m⟩ f m'
  | importFile {fuel path scope m m'} :
      Eval.step (.str (Node.importFile path).kindName) scope none m = (.value (), m') →
      Breaks ⟨fuel + 1, .execute (.importFile path) scope, m⟩ (.unlinkedImport path) m'
  | noStatement {fuel node scope m m'} :
      Eval.step (.str node.kindName) scope none m = (.value (), m') → node.isStatement = false →
      Breaks ⟨fuel + 1, .execute node scope, m⟩ (.unhandledNode node.kindName) m'

theorem Eval.bind_fault {x : Eval α} {k : α → Eval β} {m m' : Machine} {f : Fault} :
    (x >>= k) m = (.fault f, m') ↔
      x m = (.fault f, m') ∨ ∃ a m₁, x m = (.value a, m₁) ∧ k a m₁ = (.fault f, m') := by
  rw [Eval.bind_run]
  obtain ⟨o, m₁⟩ := x m
  cases o <;> simp

theorem Eval.return_fault {x : Eval α} {g : α → β} {m m' : Machine} {f : Fault} :
    (do return g (← x)) m = (.fault f, m') ↔ x m = (.fault f, m') := by
  rw [Eval.bind_fault]
  refine or_iff_left ?_
  rintro ⟨a, m₁, -, h⟩
  cases h

theorem Eval.ofExcept_fault {r : Except Fault α} {m m' : Machine} {f : Fault} :
    Eval.ofExcept r m = (.fault f, m') ↔ r = .error f ∧ m = m' := by
  cases r with
  | error e => simp [Eval.ofExcept, Eval.fail]
  | ok a =>
    refine ⟨fun h => ?_, fun h => ?_⟩
    · cases h
    · cases h.1

namespace Activity

/-- The fault is the activity's own or that of one that it starts. -/
def Explains (a : Activity) (f : Fault) (m' : Machine) : Prop :=
  (∃ b, Starts a b ∧ b.run = (.fault f, m')) ∨ Breaks a f m'

variable {fuel : Nat} {scope : ScopeId} {m m' : Machine} {f : Fault}

theorem Explains.part {a : Activity} (b : Activity) (h : Starts a b)
    (hb : b.run = (.fault f, m')) : a.Explains f m' := .inl ⟨b, h, hb⟩

theorem evaluate_explains {node : Node}
    (h : Evaluator.evaluate fuel node scope m = (.fault f, m')) :
    Explains ⟨fuel, .evaluate node scope, m⟩ f m' := by
  cases fuel with
  | zero =>
    unfold Evaluator.evaluate at h
    cases h
  | succ fuel =>
    unfold Evaluator.evaluate at h
    cases node with
    | literal kind j => cases h
    | identifier x => exact .inr (.identifier h)
    | binary left operator right =>
      dsimp only at h
      cases hop : Operator.ofDocument operator with
      | assign =>
        rw [hop] at h
        cases left with
        | identifier x =>
          obtain h | ⟨v, m₁, hv, h⟩ := Eval.bind_fault.mp h
          · exact .part _ (.assigned hop) (Eval.return_fault.mpr h)
          · obtain h | ⟨-, m₂, -, h⟩ := Eval.bind_fault.mp h
            · exact .inr (.assignment hop hv h)
            · cases h
        | _ =>
          cases h
          exact .inr (.target hop (by simp))
      | _ =>
        rw [hop] at h
        have hop' : Operator.ofDocument operator ≠ .assign := by simp [hop]
        obtain h | ⟨l, m₁, hl, h⟩ := Eval.bind_fault.mp h
        · exact .part _ (.left hop') (Eval.return_fault.mpr h)
        · obtain h | ⟨r, m₂, hr, h⟩ := Eval.bind_fault.mp h
          · exact .part _ (.right hop' hl) (Eval.return_fault.mpr h)
          · obtain ⟨happly, rfl⟩ := Eval.ofExcept_fault.mp h
            exact .inr (.operation hop' hl hr (hop ▸ happly))
    | call x args =>
      obtain h | ⟨callee, m₁, hcallee, h⟩ := Eval.bind_fault.mp h
      · exact .inr (.callee h)
      obtain h | ⟨vs, m₂, hvs, h⟩ := Eval.bind_fault.mp h
      · exact .part _ (.arguments hcallee) h
      cases callee with
      | builtin name home =>
        obtain h | ⟨⟨⟩, m₃, hstep, h⟩ := Eval.bind_fault.mp h
        · exact .inr (.calling hcallee hvs h)
        · exact .inr (.builtin hcallee hvs hstep h)
      | closure function =>
        obtain h | ⟨⟨⟩, m₃, hstep, h⟩ := Eval.bind_fault.mp h
        · exact .inr (.calling hcallee hvs h)
        · exact .part _ (.call hcallee hvs hstep) (Eval.return_fault.mpr h)
      | _ =>
        cases h
        exact .inr (.notAFunction hcallee (by simp) (by simp) hvs)
    | _ =>
      cases h
      exact .inr (.noExpression rfl)

theorem evaluateAll_explains {nodes : List Node}
    (h : Evaluator.evaluateAll fuel nodes scope m = (.fault f, m')) :
    Explains ⟨fuel, .evaluateAll nodes scope, m⟩ f m' := by
  cases fuel with
  | zero =>
    unfold Evaluator.evaluateAll at h
    cases h
  | succ fuel =>
    unfold Evaluator.evaluateAll at h
    cases nodes with
    | nil => cases h
    | cons node nodes =>
      obtain h | ⟨v, m₁, hv, h⟩ := Eval.bind_fault.mp h
      · exact .part _ .first (Eval.return_fault.mpr h)
      · exact .part _ (.rest hv) (Eval.return_fault.mp h)

theorem call_explains {function : Closure} {args : List Value}
    (h : Evaluator.callClosure fuel function args m = (.fault f, m')) :
    Explains ⟨fuel, .call function args, m⟩ f m' := by
  cases fuel with
  | zero =>
    unfold Evaluator.callClosure at h
    cases h
  | succ fuel =>
    unfold Evaluator.callClosure at h
    obtain h | ⟨scope, m₁, hscope, h⟩ := Eval.bind_fault.mp h
    · cases h
    obtain h | ⟨⟨⟩, m₂, hparams, h⟩ := Eval.bind_fault.mp h
    · exact .inr (.parameters hscope h)
    obtain h | ⟨frame, m₃, hframe, h⟩ := Eval.bind_fault.mp h
    · cases h
    obtain h | ⟨c, m₄, -, h⟩ := Eval.bind_fault.mp h
    · exact .part _ (.body hscope hparams hframe) (Eval.return_fault.mpr h)
    · cases h

theorem block_explains {nodes : List Node}
    (h : Evaluator.executeBlock fuel nodes scope m = (.fault f, m')) :
    Explains ⟨fuel, .block nodes scope, m⟩ f m' := by
  cases fuel with
  | zero =>
    unfold Evaluator.executeBlock at h
    cases h
  | succ fuel =>
    unfold Evaluator.executeBlock at h
    obtain h | ⟨inner, m₁, hinner, h⟩ := Eval.bind_fault.mp h
    · cases h
    · exact .part _ (.inside hinner) (Eval.return_fault.mpr h)

theorem executeAll_explains {nodes : List Node} {before : Completion}
    (h : Evaluator.executeAll fuel nodes scope before m = (.fault f, m')) :
    Explains ⟨fuel, .executeAll nodes scope before, m⟩ f m' := by
  cases fuel with
  | zero =>
    unfold Evaluator.executeAll at h
    cases h
  | succ fuel =>
    unfold Evaluator.executeAll at h
    cases nodes with
    | nil => cases h
    | cons node nodes =>
      obtain h | ⟨c, m₁, hc, h⟩ := Eval.bind_fault.mp h
      · exact .part _ .statement (Eval.return_fault.mpr h)
      · cases c with
        | returned v => cases h
        | normal v => exact .part _ (.next hc) (Eval.return_fault.mpr h)

theorem execute_explains {node : Node}
    (h : Evaluator.execute fuel node scope m = (.fault f, m')) :
    Explains ⟨fuel, .execute node scope, m⟩ f m' := by
  cases fuel with
  | zero =>
    unfold Evaluator.execute at h
    cases h
  | succ fuel =>
    unfold Evaluator.execute at h
    obtain h | ⟨⟨⟩, m₁, hstep, h⟩ := Eval.bind_fault.mp h
    · exact .inr (.statement h)
    cases node with
    | expression value =>
      exact .part _ (.opening hstep rfl) (Eval.return_fault.mpr (Eval.return_fault.mp h))
    | declare x value =>
      obtain h | ⟨v, m₂, hv, h⟩ := Eval.bind_fault.mp h
      · exact .part _ (.opening hstep rfl) (Eval.return_fault.mpr h)
      · exact .inr (.declaration hstep hv (Eval.return_fault.mp h))
    | block body => exact .part _ (.opening hstep rfl) (Eval.return_fault.mpr h)
    | branch test consequent alternate =>
      obtain h | ⟨v, m₂, hv, h⟩ := Eval.bind_fault.mp h
      · exact .part _ (.opening hstep rfl) (Eval.return_fault.mpr h)
      · cases htrue : v.truthy with
        | true =>
          rw [htrue, if_pos rfl] at h
          exact .part _ (.consequent hstep hv htrue) (Eval.return_fault.mpr h)
        | false =>
          rw [htrue, if_neg Bool.false_ne_true] at h
          cases alternate with
          | none => cases h
          | some alternate =>
            exact .part _ (.alternate hstep hv htrue) (Eval.return_fault.mpr h)
    | loop test body => exact .part _ (.opening hstep rfl) (Eval.return_fault.mpr h)
    | function x params body => exact .inr (.function hstep (Eval.return_fault.mp h))
    | ret argument =>
      cases argument with
      | none => cases h
      | some argument =>
        exact .part _ (.opening hstep rfl) (Eval.return_fault.mpr (Eval.return_fault.mp h))
    | importFile path =>
      cases h
      exact .inr (.importFile hstep)
    | _ =>
      cases h
      exact .inr (.noStatement hstep rfl)

theorem loop_explains {test : Node} {body : List Node} {before : Completion}
    (h : Evaluator.executeLoop fuel test body scope before m = (.fault f, m')) :
    Explains ⟨fuel, .loop test body scope before, m⟩ f m' := by
  cases fuel with
  | zero =>
    unfold Evaluator.executeLoop at h
    cases h
  | succ fuel =>
    unfold Evaluator.executeLoop at h
    obtain h | ⟨v, m₁, hv, h⟩ := Eval.bind_fault.mp h
    · exact .part _ .test (Eval.return_fault.mpr h)
    cases htrue : v.truthy with
    | false =>
      rw [htrue, if_neg Bool.false_ne_true] at h
      cases h
    | true =>
      rw [htrue, if_pos rfl] at h
      obtain h | ⟨c, m₂, hc, h⟩ := Eval.bind_fault.mp h
      · exact .part _ (.round hv htrue) (Eval.return_fault.mpr h)
      · cases c with
        | returned w => cases h
        | normal w => exact .part _ (.again hv htrue hc) (Eval.return_fault.mpr h)

/-- A fault of an activity is its own or that of one that it starts. -/
theorem fault_origin {a : Activity} (h : a.run = (.fault f, m')) : a.Explains f m' := by
  obtain ⟨fuel, task, m⟩ := a
  cases task with
  | evaluate node scope => exact evaluate_explains (Eval.return_fault.mp h)
  | evaluateAll nodes scope => exact evaluateAll_explains h
  | call function args => exact call_explains (Eval.return_fault.mp h)
  | block nodes scope => exact block_explains (Eval.return_fault.mp h)
  | executeAll nodes scope before => exact executeAll_explains (Eval.return_fault.mp h)
  | execute node scope => exact execute_explains (Eval.return_fault.mp h)
  | loop test body scope before => exact loop_explains (Eval.return_fault.mp h)

end Activity

theorem Starts.fuel_eq {a b : Activity} (h : Starts a b) : a.fuel = b.fuel + 1 := by
  cases h <;> rfl

/-! ## Runs -/

namespace Session

variable {fuel : Nat} {p : Program} {m m' : Machine} {f : Fault}

/-- The activities of a run that starts on the machine `m`. -/
inductive Happens (fuel : Nat) (p : Program) (m : Machine) : Activity → Prop
  | hoisted {before x params body after m₁} :
      p.statements = before ++ .function x params body :: after →
      hoist fuel before (start m) = (.value (), m₁) →
      Happens fuel p m ⟨fuel, .execute (.function x params body) Machine.globalScope, m₁⟩
  | main {m₁ main m₂} : hoist fuel p.statements (start m) = (.value (), m₁) →
      mainOf m₁.scopes = some main →
      Eval.step Evaluator.callRule Machine.globalScope (some (mainName, [])) m₁ =
        (.value (), m₂) →
      Happens fuel p m ⟨fuel, .call main [], m₂⟩
  | part {a b} : Happens fuel p m a → Starts a b → Happens fuel p m b

/-- The machines that a run comes by. -/
inductive Visits (fuel : Nat) (p : Program) (m : Machine) : Machine → Prop
  | start : Visits fuel p m (start m)
  | hoisted {m₁} : hoist fuel p.statements (Session.start m) = (.value (), m₁) →
      Visits fuel p m m₁
  | before {a} : Happens fuel p m a → Visits fuel p m a.before
  | after {a} : Happens fuel p m a → Visits fuel p m a.after

/-- The values that a run ever binds, passes or returns. -/
inductive Occurs (fuel : Nat) (p : Program) (m : Machine) : Value → Prop
  | bound {m₁ scope name v} : Visits fuel p m m₁ → (name, v) ∈ (m₁.scopes.get scope).bindings →
      Occurs fuel p m v
  | passed {a v} : Happens fuel p m a → v ∈ a.task.passed → Occurs fuel p m v
  | returned {a vs m₁ v} : Happens fuel p m a → a.run = (.value vs, m₁) → v ∈ vs →
      Occurs fuel p m v

/-- Where the fault of a run arises: in an activity, or when there is no `main`, or in the step that
calls it. -/
inductive Stops (fuel : Nat) (p : Program) (m : Machine) : Fault → Machine → Prop
  | inside {a f m₁} : Happens fuel p m a → Breaks a f m₁ → Stops fuel p m f m₁
  | mainMissing {m₁} : hoist fuel p.statements (start m) = (.value (), m₁) →
      mainOf m₁.scopes = none → Stops fuel p m .mainMissing m₁
  | calling {m₁ f m₂} : hoist fuel p.statements (start m) = (.value (), m₁) →
      Eval.step Evaluator.callRule Machine.globalScope (some (mainName, [])) m₁ =
        (.fault f, m₂) → Stops fuel p m f m₂

theorem Happens.stops {a : Activity} (ha : Happens fuel p m a) (h : a.run = (.fault f, m')) :
    Stops fuel p m f m' := by
  -- the parts of an activity have less fuel
  induction hn : a.fuel generalizing a with
  | zero =>
    obtain ⟨b, hb, -⟩ | hbreak := a.fault_origin h
    · have := hb.fuel_eq
      omega
    · exact .inside ha hbreak
  | succ n ih =>
    obtain ⟨b, hb, hfault⟩ | hbreak := a.fault_origin h
    · have := hb.fuel_eq
      exact ih (.part ha hb) hfault (by omega)
    · exact .inside ha hbreak

theorem hoist_fault {nodes : List Node} {m : Machine} (h : hoist fuel nodes m = (.fault f, m')) :
    ∃ before x params body after m₁, nodes = before ++ .function x params body :: after ∧
      hoist fuel before m = (.value (), m₁) ∧
      Evaluator.execute fuel (.function x params body) Machine.globalScope m₁ =
        (.fault f, m') := by
  induction nodes generalizing m with
  | nil => cases h
  | cons node nodes ih =>
    unfold hoist at h
    have skip (hnode : hoist fuel nodes m = (.fault f, m'))
        (hskip : ∀ before, hoist fuel (node :: before) m = hoist fuel before m) :
        ∃ before x params body after m₁, node :: nodes = before ++ .function x params body :: after ∧
          hoist fuel before m = (.value (), m₁) ∧
          Evaluator.execute fuel (.function x params body) Machine.globalScope m₁ =
            (.fault f, m') := by
      obtain ⟨before, x, params, body, after, m₁, rfl, hbefore, hfault⟩ := ih hnode
      exact ⟨node :: before, x, params, body, after, m₁, rfl, by rw [hskip, hbefore], hfault⟩
    cases node with
    | function x params body =>
      obtain h | ⟨c, m₁, hc, h⟩ := Eval.bind_fault.mp h
      · exact ⟨[], x, params, body, nodes, m, rfl, rfl, h⟩
      · obtain ⟨before, y, qs, ns, after, m₂, rfl, hbefore, hfault⟩ := ih h
        refine ⟨.function x params body :: before, y, qs, ns, after, m₂, rfl, ?_, hfault⟩
        unfold hoist
        dsimp only
        rw [Eval.bind_run, hc]
        exact hbefore
    | _ => exact skip h fun before => rfl

/-- The fault of a run arises in one of its activities, or before there is any. -/
theorem fault_origin (h : runBody fuel p (start m) = (.fault f, m')) : Stops fuel p m f m' := by
  unfold runBody at h
  obtain h | ⟨⟨⟩, m₁, hhoist, h⟩ := Eval.bind_fault.mp h
  · obtain ⟨before, x, params, body, after, m₁, hp, hbefore, h⟩ := hoist_fault h
    exact (Happens.hoisted hp hbefore).stops (Eval.return_fault.mpr h)
  obtain h | ⟨main?, m₂, hread, h⟩ := Eval.bind_fault.mp h
  · cases h
  obtain ⟨hmain, rfl⟩ : mainOf m₁.scopes = main? ∧ m₁ = m₂ := by
    cases hread
    exact ⟨rfl, rfl⟩
  cases main? with
  | none =>
    cases h
    exact .mainMissing hhoist hmain
  | some main =>
    obtain h | ⟨⟨⟩, m₃, hstep, h⟩ := Eval.bind_fault.mp h
    · exact .calling hhoist h
    · exact (Happens.main hhoist hmain hstep).stops (Eval.return_fault.mpr h)

/-- A run that fails is reported with the index of the last step before the fault. -/
theorem stops_of_runFor {step : Option Nat} (h : (runFor fuel p m).1 = .fault f step) :
    Stops fuel p m f (runFor fuel p m).2 ∧
      step = (runFor fuel p m).2.log.last.map (·.index) := by
  unfold runFor at h ⊢
  rw [runWith_eq] at h ⊢
  rcases hrun : runBody fuel p (start m) with ⟨o, m₁⟩
  rw [hrun] at h
  cases o with
  | value v => cases h
  | fault g =>
    cases h
    exact ⟨fault_origin hrun, rfl⟩
  | outOfFuel => cases h

end Session

end ScriptLang
