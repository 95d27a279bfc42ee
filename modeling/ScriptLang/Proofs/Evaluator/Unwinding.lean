import ScriptLang.Proofs.Evaluator.Abrupt

/-!
# Pending returns and abrupt returns

The evaluator hands a pending return on through blocks and loops; the one of `Abrupt` knows nothing
of returns there. On every machine, and with the same fuel, they end alike and in the same state.

`Follows` relates a computation to an abrupt one. It is kept by each way of putting computations
together, so the seven functions of the evaluators agree by induction on the fuel.

Results:
* `agreement`: the evaluators follow each other;
* `runWith_follows`: so do whole runs.
-/
namespace ScriptLang

variable {α β γ : Type}

/-! ## Computations that follow each other -/

theorem Eval.bind_run (x : Eval α) (k : α → Eval β) (m : Machine) :
    (x >>= k) m =
      match x m with
      | (.value a, m) => k a m
      | (.fault e, m) => (.fault e, m)
      | (.outOfFuel, m) => (.outOfFuel, m) := rfl

theorem Eval.bind_value {x : Eval α} {k : α → Eval β} {m m' : Machine} {b : β}
    (h : (x >>= k) m = (.value b, m')) : ∃ a m₁, x m = (.value a, m₁) ∧ k a m₁ = (.value b, m') := by
  rw [Eval.bind_run] at h
  split at h
  · next a m₁ hx => exact ⟨a, m₁, hx, h⟩
  · cases h
  · cases h

theorem Abrupt.bind_run (y : Abrupt α) (l : α → Abrupt β) (t : Traced) :
    (y >>= l) t =
      match y t with
      | (.value a, t) => l a t
      | (.returned v, t) => (.returned v, t)
      | (.fault e, t) => (.fault e, t)
      | (.outOfFuel, t) => (.outOfFuel, t) := rfl

def Outcome.ending (g : α → Ending β) : Outcome α → Ending β
  | .value a => g a
  | .fault f => .fault f
  | .outOfFuel => .outOfFuel

/-- How a statement is left: a pending return leaves it as a return does. -/
def Completion.ending : Completion → Ending Unit
  | .normal _ => .value ()
  | .returned v => .returned v

/-- On every machine the two computations end alike, in the same state. -/
def Follows (g : α → Ending β) (x : Eval α) (y : Abrupt β) : Prop :=
  ∀ t, (y t).1 = (x t.machine).1.ending g ∧ (y t).2.machine = (x t.machine).2

namespace Follows

theorem pure {g : α → Ending β} {a : α} {b : β} (h : g a = .value b) :
    Follows g (Pure.pure a) (Pure.pure b) := fun _ => ⟨h.symm, rfl⟩

theorem lift (x : Eval α) : Follows .value x (Abrupt.lift x) := by
  intro t
  unfold Abrupt.lift
  rcases x t.machine with ⟨o, m⟩
  cases o <;> exact ⟨rfl, rfl⟩

theorem fail (f : Fault) :
    Follows Completion.ending (Eval.fail f) (Abrupt.lift (Eval.fail f)) := fun _ => ⟨rfl, rfl⟩

theorem exhausted : Follows Completion.ending Eval.exhausted (Abrupt.lift Eval.exhausted) :=
  fun _ => ⟨rfl, rfl⟩

/-- The value with which a statement completes is used by nothing. -/
theorem effect (x : Eval Unit) (v : Value) :
    Follows Completion.ending (x >>= fun _ => Pure.pure (.normal v)) (Abrupt.lift x) := by
  intro t
  rw [Eval.bind_run]
  unfold Abrupt.lift
  rcases x t.machine with ⟨o, m⟩
  cases o <;> exact ⟨rfl, rfl⟩

theorem record_machine (event : FrameId → Event) (t : Traced) :
    (Abrupt.record event t).machine = t.machine := by
  unfold Abrupt.record
  split <;> rfl

theorem leave (v : Value) :
    Follows Completion.ending (Pure.pure (.returned v)) (Abrupt.leave v) :=
  fun t => ⟨rfl, record_machine _ t⟩

theorem bind {g : β → Ending γ} {x : Eval α} {y : Abrupt α} {k : α → Eval β} {l : α → Abrupt γ}
    (h : Follows .value x y) (hk : ∀ a, Follows g (k a) (l a)) :
    Follows g (x >>= k) (y >>= l) := by
  intro t
  obtain ⟨h₁, h₂⟩ := h t
  rw [Eval.bind_run, Abrupt.bind_run]
  generalize x t.machine = r at h₁ h₂
  generalize y t = r' at h₁ h₂
  obtain ⟨o, m⟩ := r
  obtain ⟨e, t'⟩ := r'
  dsimp only at h₁ h₂
  subst h₁ h₂
  cases o with
  | value a => exact hk a t'
  | fault f => exact ⟨rfl, rfl⟩
  | outOfFuel => exact ⟨rfl, rfl⟩

/-- The statement after a statement: one that looks at a pending return and hands it on follows one
that does not look. -/
theorem next {x : Eval Completion} {y : Abrupt Unit} {k : Completion → Eval Completion}
    {l : Unit → Abrupt Unit} (h : Follows Completion.ending x y)
    (hk : ∀ v, Follows Completion.ending (k (.normal v)) (l ()))
    (hr : ∀ v, k (.returned v) = Pure.pure (.returned v)) :
    Follows Completion.ending (x >>= k) (y >>= l) := by
  intro t
  obtain ⟨h₁, h₂⟩ := h t
  rw [Eval.bind_run, Abrupt.bind_run]
  generalize x t.machine = r at h₁ h₂
  generalize y t = r' at h₁ h₂
  obtain ⟨o, m⟩ := r
  obtain ⟨e, t'⟩ := r'
  dsimp only at h₁ h₂
  subst h₁ h₂
  cases o with
  | value c =>
    cases c with
    | normal v => exact hk v t'
    | returned v =>
      dsimp only
      rw [hr v]
      exact ⟨rfl, rfl⟩
  | fault f => exact ⟨rfl, rfl⟩
  | outOfFuel => exact ⟨rfl, rfl⟩

/-- A statement that never returns, whose completion is used by nothing. -/
theorem passed {g : β → Ending γ} {x : Eval Completion} {y : Abrupt Unit} {k : Eval β}
    {l : Abrupt γ} (h : Follows Completion.ending x y)
    (hx : ∀ m m' v, x m ≠ (.value (.returned v), m')) (hk : Follows g k l) :
    Follows g (x >>= fun _ => k) (y >>= fun _ => l) := by
  intro t
  obtain ⟨h₁, h₂⟩ := h t
  rw [Eval.bind_run, Abrupt.bind_run]
  cases hr : x t.machine with
  | mk o m =>
    rw [hr] at h₁ h₂
    generalize y t = r' at h₁ h₂
    obtain ⟨e, t'⟩ := r'
    dsimp only at h₁ h₂
    subst h₁ h₂
    cases o with
    | value c =>
      cases c with
      | normal v => exact hk t'
      | returned v => exact absurd hr (hx _ _ v)
    | fault f => exact ⟨rfl, rfl⟩
    | outOfFuel => exact ⟨rfl, rfl⟩

theorem catchReturn {g : β → Ending γ} {x : Eval Completion} {y : Abrupt Unit}
    {k : Completion → Eval β} {l : Value → Abrupt γ} (h : Follows Completion.ending x y)
    (hk : ∀ c, Follows g (k c) (l c.result)) :
    Follows g (x >>= k) (Abrupt.catchReturn y >>= l) := by
  intro t
  obtain ⟨h₁, h₂⟩ := h t
  rw [Eval.bind_run, Abrupt.bind_run, Abrupt.catchReturn]
  generalize x t.machine = r at h₁ h₂
  generalize y t = r' at h₁ h₂
  obtain ⟨o, m⟩ := r
  obtain ⟨e, t'⟩ := r'
  dsimp only at h₁ h₂
  subst h₁ h₂
  cases o with
  | value c =>
    cases c with
    | normal v => exact hk (.normal v) t'
    | returned v => exact hk (.returned v) t'
  | fault f => exact ⟨rfl, rfl⟩
  | outOfFuel => exact ⟨rfl, rfl⟩

/-- An event leaves the machine alone. -/
theorem note {g : α → Ending β} {x : Eval α} {y : Abrupt β} (event : FrameId → Event)
    (h : Follows g x y) : Follows g x (Abrupt.note event >>= fun _ => y) := by
  intro t
  have := h (Abrupt.record event t)
  rw [record_machine] at this
  exact this

end Follows

/-! ## The evaluators -/

/-- With some fuel the two evaluators follow each other. -/
structure Agreement (fuel : Nat) : Prop where
  evaluate : ∀ node scope,
    Follows .value (Evaluator.evaluate fuel node scope) (Abrupt.evaluate fuel node scope)
  evaluateAll : ∀ nodes scope,
    Follows .value (Evaluator.evaluateAll fuel nodes scope) (Abrupt.evaluateAll fuel nodes scope)
  callClosure : ∀ function args,
    Follows .value (Evaluator.callClosure fuel function args)
      (Abrupt.callClosure fuel function args)
  executeBlock : ∀ nodes scope, Follows Completion.ending
    (Evaluator.executeBlock fuel nodes scope) (Abrupt.executeBlock fuel nodes scope)
  executeAll : ∀ nodes scope v, Follows Completion.ending
    (Evaluator.executeAll fuel nodes scope (.normal v)) (Abrupt.executeAll fuel nodes scope)
  execute : ∀ node scope, Follows Completion.ending
    (Evaluator.execute fuel node scope) (Abrupt.execute fuel node scope)
  executeLoop : ∀ test body scope v, Follows Completion.ending
    (Evaluator.executeLoop fuel test body scope (.normal v))
    (Abrupt.executeLoop fuel test body scope)

namespace Agreement

variable {fuel : Nat}

theorem evaluate_succ (ih : Agreement fuel) (node : Node) (scope : ScopeId) :
    Follows .value (Evaluator.evaluate (fuel + 1) node scope)
      (Abrupt.evaluate (fuel + 1) node scope) := by
  unfold Evaluator.evaluate Abrupt.evaluate
  cases node with
  | literal kind value => exact .pure rfl
  | identifier name => exact .lift _
  | binary left operator right =>
    dsimp only
    cases Operator.ofDocument operator with
    | assign =>
      cases left with
      | identifier name =>
        exact .bind (ih.evaluate _ _) fun value => .bind (.lift _) fun _ => .pure rfl
      | _ => exact .lift _
    | _ => exact .bind (ih.evaluate _ _) fun l => .bind (ih.evaluate _ _) fun r => .lift _
  | call name args =>
    refine .bind (.lift _) fun callee => .bind (ih.evaluateAll _ _) fun args => ?_
    cases callee with
    | builtin builtinName home => exact .bind (.lift _) fun _ => .note _ (.lift _)
    | closure function => exact .bind (.lift _) fun _ => .note _ (ih.callClosure _ _)
    | _ => exact .lift _
  | _ => exact .lift _

theorem evaluateAll_succ (ih : Agreement fuel) (nodes : List Node) (scope : ScopeId) :
    Follows .value (Evaluator.evaluateAll (fuel + 1) nodes scope)
      (Abrupt.evaluateAll (fuel + 1) nodes scope) := by
  unfold Evaluator.evaluateAll Abrupt.evaluateAll
  cases nodes with
  | nil => exact .pure rfl
  | cons node nodes =>
    exact .bind (ih.evaluate _ _) fun first => .bind (ih.evaluateAll _ _) fun rest => .pure rfl

theorem callClosure_succ (ih : Agreement fuel) (function : Closure) (args : List Value) :
    Follows .value (Evaluator.callClosure (fuel + 1) function args)
      (Abrupt.callClosure (fuel + 1) function args) := by
  unfold Evaluator.callClosure Abrupt.callClosure Abrupt.invoke
  refine .bind (.lift _) fun scope => .bind (.lift _) fun _ => .bind (.lift _) fun frame => ?_
  refine .catchReturn (ih.executeBlock _ _) fun completion => .note _ ?_
  exact .bind (.lift _) fun _ => .bind (.lift _) fun _ => .pure rfl

theorem executeBlock_succ (ih : Agreement fuel) (nodes : List Node) (scope : ScopeId) :
    Follows Completion.ending (Evaluator.executeBlock (fuel + 1) nodes scope)
      (Abrupt.executeBlock (fuel + 1) nodes scope) := by
  unfold Evaluator.executeBlock Abrupt.executeBlock
  exact .bind (.lift _) fun inner => ih.executeAll _ _ _

theorem executeAll_succ (ih : Agreement fuel) (nodes : List Node) (scope : ScopeId) (v : Value) :
    Follows Completion.ending (Evaluator.executeAll (fuel + 1) nodes scope (.normal v))
      (Abrupt.executeAll (fuel + 1) nodes scope) := by
  unfold Evaluator.executeAll Abrupt.executeAll
  cases nodes with
  | nil => exact .pure rfl
  | cons node nodes =>
    exact .next (ih.execute _ _) (fun w => ih.executeAll _ _ w) fun w => rfl

theorem execute_succ (ih : Agreement fuel) (node : Node) (scope : ScopeId) :
    Follows Completion.ending (Evaluator.execute (fuel + 1) node scope)
      (Abrupt.execute (fuel + 1) node scope) := by
  unfold Evaluator.execute Abrupt.execute
  refine .bind (.lift _) fun _ => .note _ ?_
  cases node with
  | expression value => exact .bind (ih.evaluate _ _) fun _ => .pure rfl
  | declare name value => exact .bind (ih.evaluate _ _) fun value => .effect _ _
  | block body => exact ih.executeBlock _ _
  | branch test consequent alternate =>
    refine .bind (ih.evaluate _ _) fun chosen => ?_
    split
    · exact ih.executeBlock _ _
    · cases alternate with
      | none => exact .pure rfl
      | some alternate => exact ih.executeBlock _ _
  | loop test body => exact ih.executeLoop _ _ _ _
  | function name params body => exact .effect _ _
  | ret argument =>
    cases argument with
    | none => exact .leave _
    | some argument => exact .bind (ih.evaluate _ _) fun value => .leave value
  | _ => exact .fail _

theorem executeLoop_succ (ih : Agreement fuel) (test : Node) (body : List Node) (scope : ScopeId)
    (v : Value) :
    Follows Completion.ending (Evaluator.executeLoop (fuel + 1) test body scope (.normal v))
      (Abrupt.executeLoop (fuel + 1) test body scope) := by
  unfold Evaluator.executeLoop Abrupt.executeLoop
  refine .bind (ih.evaluate _ _) fun again => ?_
  split
  · exact .next (ih.executeBlock _ _) (fun w => ih.executeLoop _ _ _ w) fun w => rfl
  · exact .pure rfl

end Agreement

theorem Agreement.zero : Agreement 0 where
  evaluate _ _ := by unfold Evaluator.evaluate Abrupt.evaluate; exact .lift _
  evaluateAll _ _ := by unfold Evaluator.evaluateAll Abrupt.evaluateAll; exact .lift _
  callClosure _ _ := by unfold Evaluator.callClosure Abrupt.callClosure; exact .lift _
  executeBlock _ _ := by unfold Evaluator.executeBlock Abrupt.executeBlock; exact .exhausted
  executeAll _ _ _ := by unfold Evaluator.executeAll Abrupt.executeAll; exact .exhausted
  execute _ _ := by unfold Evaluator.execute Abrupt.execute; exact .exhausted
  executeLoop _ _ _ _ := by unfold Evaluator.executeLoop Abrupt.executeLoop; exact .exhausted

theorem agreement (fuel : Nat) : Agreement fuel := by
  induction fuel with
  | zero => exact .zero
  | succ fuel ih =>
    exact ⟨ih.evaluate_succ, ih.evaluateAll_succ, ih.callClosure_succ, ih.executeBlock_succ,
      ih.executeAll_succ, ih.execute_succ, ih.executeLoop_succ⟩

/-! ## Runs -/

theorem execute_function_normal (fuel : Nat) (name : Json) (params : List Json) (body : List Node)
    (scope : ScopeId) (m m' : Machine) (v : Value) :
    Evaluator.execute fuel (.function name params body) scope m ≠ (.value (.returned v), m') := by
  cases fuel with
  | zero =>
    unfold Evaluator.execute
    intro h
    cases h
  | succ fuel =>
    unfold Evaluator.execute Evaluator.declareFunction
    simp only [Eval.bind_run]
    intro h
    split at h
    · split at h
      · cases h
      · cases h
      · cases h
    · cases h
    · cases h

theorem hoist_follows (fuel : Nat) (nodes : List Node) :
    Follows .value (Session.hoist fuel nodes) (Abrupt.hoist fuel nodes) := by
  induction nodes with
  | nil => exact .pure rfl
  | cons node nodes ih =>
    unfold Session.hoist Abrupt.hoist
    cases node with
    | function name params body =>
      exact .passed ((agreement fuel).execute _ _) (execute_function_normal fuel name params body _)
        ih
    | _ => exact ih

theorem runWith_follows (fuel : Nat) (p : Program) :
    Follows .value (Session.runWith fuel p) (Abrupt.runWith fuel p) := by
  unfold Session.runWith Abrupt.runWith Session.runBody Abrupt.runBody
  refine .bind (.lift _) fun _ => .bind ?_ fun _ => .bind (.lift _) fun _ => .pure rfl
  refine .bind (hoist_follows fuel _) fun _ => .bind (.lift _) fun main => ?_
  cases main with
  | none => exact .lift _
  | some main => exact .bind (.lift _) fun _ => .note _ ((agreement fuel).callClosure _ _)

end ScriptLang
