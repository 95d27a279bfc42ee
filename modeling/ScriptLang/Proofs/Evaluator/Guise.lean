import ScriptLang.Proofs.Evaluator.Invariant

/-!
# Machines in guise

Two runs of one program may go side by side though their machines differ in verbosity, sink and log:
the evaluator looks at none of them but where it prints a line or notes a step. A guise changes a
machine in these, and the run on the machine in guise is the one that knows no bounds. The run on
the machine itself may stop at a line or at a step where the other one goes on; up to there they are
the same.

Results:
* `Guise.Suits.logic`: the logic of computations that go side by side with themselves in guise;
* `Guise.Suits.runFor`: so do runs.
-/
namespace ScriptLang

variable {α β : Type}

/-- Another look of a machine. As long as two runs are together, sink and output are as `Together`
says; where they part, the machine itself stops with the fault `fault`, and its output and the
output of the other run are as `After` says from then on. -/
structure Guise where
  verbose : Bool → Bool
  sink : Sink → Sink
  log : StepLog → StepLog
  forget : ∀ l id, log (StepLog.forget l id) = (log l).forget id
  index : ∀ l, (log l).last.map (·.index) = l.last.map (·.index)
  Together : Sink → Array String → Prop
  fault : Fault
  After : Array String → Array String → Prop
  after_mono : ∀ {a b c}, After a b → b.toList <+: c.toList → After a c

namespace Guise

variable {g : Guise} {I : Machine → Prop} {n : Nat}

/-- The machine in guise. -/
def of (g : Guise) (m : Machine) : Machine :=
  { m with verbose := g.verbose m.verbose, sink := g.sink m.sink, log := g.log m.log }

/-- How a computation ends on a machine and how it ends on the machine in guise. -/
inductive Agrees (g : Guise) : Outcome α × Machine → Outcome α × Machine → Prop
  | same {o m} : g.Together m.sink m.output → Agrees g (o, m) (o, g.of m)
  | parted {m o₂ m₂} : g.After m.output m₂.output → Agrees g (.fault g.fault, m) (o₂, m₂)

/-- The computation looks at nothing that the guise changes, and does not print. -/
def Ignores (g : Guise) (x : Eval α) : Prop := ∀ m,
  x (g.of m) = ((x m).1, g.of (x m).2) ∧ (x m).2.sink = m.sink ∧ (x m).2.output = m.output

namespace Ignores

theorem agrees {x : Eval α} (hx : g.Ignores x) {m : Machine} (ht : g.Together m.sink m.output) :
    g.Agrees (x m) (x (g.of m)) := by
  obtain ⟨heq, hsink, houtput⟩ := hx m
  rw [heq]
  exact .same (by rwa [hsink, houtput])

theorem pure (a : α) : g.Ignores (Pure.pure a) := fun _ => ⟨rfl, rfl, rfl⟩

theorem exhausted : g.Ignores (Eval.exhausted : Eval α) := fun _ => ⟨rfl, rfl, rfl⟩

theorem fail (f : Fault) : g.Ignores (Eval.fail f : Eval α) := fun _ => ⟨rfl, rfl, rfl⟩

theorem ofExcept (r : Except Fault α) : g.Ignores (Eval.ofExcept r) := by
  cases r with
  | ok a => exact pure a
  | error f => exact fail f

theorem newScope (scope : ScopeId) : g.Ignores (Eval.newScope scope) := fun _ => ⟨rfl, rfl, rfl⟩

theorem lookup (scope : ScopeId) (x : Json) : g.Ignores (Eval.lookup scope x) := by
  intro m
  unfold Eval.lookup of
  dsimp only
  split <;> exact ⟨rfl, rfl, rfl⟩

theorem declare (scope : ScopeId) (x : Json) (v : Value) : g.Ignores (Eval.declare scope x v) := by
  intro m
  unfold of
  rw [Eval.declare_run, Eval.declare_run]
  dsimp only
  split <;> exact ⟨rfl, rfl, rfl⟩

theorem assign (scope : ScopeId) (x : Json) (v : Value) : g.Ignores (Eval.assign scope x v) := by
  intro m
  unfold of
  rw [Eval.assign_run, Eval.assign_run]
  dsimp only
  split <;> exact ⟨rfl, rfl, rfl⟩

theorem main : g.Ignores (Eval.read fun m => Session.mainOf m.scopes) := fun _ => ⟨rfl, rfl, rfl⟩

theorem popFrame : g.Ignores Eval.popFrame := fun _ => ⟨rfl, rfl, rfl⟩

theorem forgetFrame (id : FrameId) : g.Ignores (Eval.forgetFrame id) := fun m =>
  ⟨congrArg (fun log => (Outcome.value (), { g.of m with log := log })) (g.forget m.log id).symm,
    rfl, rfl⟩

theorem bind {x : Eval α} {k : α → Eval β} (hx : g.Ignores x) (hk : ∀ a, g.Ignores (k a)) :
    g.Ignores (x >>= k) := by
  intro m
  obtain ⟨heq, hsink, houtput⟩ := hx m
  rw [Eval.bind_run, Eval.bind_run, heq]
  rcases hrun : x m with ⟨o, m₁⟩
  rw [hrun] at hsink houtput
  cases o with
  | value a =>
    obtain ⟨heq₁, hsink₁, houtput₁⟩ := hk a m₁
    exact ⟨heq₁, hsink₁.trans hsink, houtput₁.trans houtput⟩
  | fault f => exact ⟨rfl, hsink, houtput⟩
  | outOfFuel => exact ⟨rfl, hsink, houtput⟩

/-- What the computation does last prints nothing. -/
theorem output_bind {x : Eval α} {k : α → Eval β} (hk : ∀ a, g.Ignores (k a)) (m : Machine) :
    ((x >>= k) m).2.output = (x m).2.output := by
  rw [Eval.bind_run]
  rcases x m with ⟨o, m₁⟩
  cases o with
  | value a => exact (hk a m₁).2.2
  | fault f => rfl
  | outOfFuel => rfl

end Ignores

theorem Agrees.bind {x : Eval α} {k : α → Eval β} (hk : ∀ a, g.Ignores (k a)) {m m₂ : Machine}
    (hx : g.Agrees (x m) (x m₂)) : g.Agrees ((x >>= k) m) ((x >>= k) m₂) := by
  rw [Eval.bind_run, Eval.bind_run]
  generalize x m = r at hx
  generalize x m₂ = r₂ at hx
  cases hx with
  | @same o m₁ ht =>
    cases o with
    | value a => exact (hk a).agrees ht
    | fault f => exact .same ht
    | outOfFuel => exact .same ht
  | @parted m₁ o₂ m₂ hafter =>
    cases o₂ with
    | value a => exact .parted (by rw [((hk a) m₂).2.2]; exact hafter)
    | fault f => exact .parted hafter
    | outOfFuel => exact .parted hafter

/-- Wherever the invariant holds of the machine in guise, the computation goes side by side with
itself in guise. What it has printed stays. -/
structure Paired (g : Guise) (I : Machine → Prop) (n : Nat) (x : Eval α) : Prop where
  prints : ∀ m, n ≤ m.scopes.size → I m → m.output.toList <+: (x m).2.output.toList
  agrees : ∀ m, n ≤ m.scopes.size → I (g.of m) → g.Together m.sink m.output →
    g.Agrees (x m) (x (g.of m))

namespace Paired

theorem ignored {x : Eval α} (hx : g.Ignores x) : g.Paired I n x where
  prints m _ _ := (hx m).2.2 ▸ List.prefix_rfl
  agrees _ _ _ ht := hx.agrees ht

theorem bind {P : Nat → α → Prop} {x : Eval α} {k : α → Eval β} (hkept : Maintains I n P x)
    (hx : g.Paired I n x) (hk : ∀ n' a, n ≤ n' → P n' a → g.Paired I n' (k a)) :
    g.Paired I n (x >>= k) where
  prints m hn hI := by
    have hfirst := hx.prints m hn hI
    have hm₁ := hkept m hn hI
    rw [Eval.bind_run]
    rcases hrun : x m with ⟨o, m₁⟩
    rw [hrun] at hfirst hm₁
    cases o with
    | value a =>
      have hrest := hk _ a (Nat.le_trans hn hm₁.grows) (hm₁.value a rfl)
      exact hfirst.trans (hrest.prints m₁ (Nat.le_refl _) hm₁.invariant)
    | fault f => exact hfirst
    | outOfFuel => exact hfirst
  agrees m hn hI ht := by
    have hfirst := hx.agrees m hn hI ht
    have hm₁ := hkept (g.of m) hn hI
    rw [Eval.bind_run, Eval.bind_run]
    generalize x m = r at hfirst
    generalize x (g.of m) = r₂ at hfirst hm₁
    cases hfirst with
    | @same o m₁ ht =>
      cases o with
      | value a =>
        have hrest := hk _ a (Nat.le_trans hn hm₁.grows) (hm₁.value a rfl)
        exact hrest.agrees m₁ (Nat.le_refl _) hm₁.invariant ht
      | fault f => exact .same ht
      | outOfFuel => exact .same ht
    | @parted m₁ o₂ m₂ hafter =>
      -- the run in guise goes on, and may print more
      cases o₂ with
      | value a =>
        have hrest := hk _ a (Nat.le_trans hn hm₁.grows) (hm₁.value a rfl)
        exact .parted (g.after_mono hafter (hrest.prints m₂ (Nat.le_refl _) hm₁.invariant))
      | fault f => exact .parted hafter
      | outOfFuel => exact .parted hafter

end Paired

/-- The invariant is that of a logic; where it holds, printing and steps go side by side. -/
structure Suits (g : Guise) {code : Code} (L : Logic code) (I : Machine → Prop) : Prop where
  keeps : L.Keeps I
  print : ∀ line m, I (g.of m) → g.Together m.sink m.output →
    g.Agrees (Eval.print line m) (Eval.print line (g.of m))
  step : ∀ {n scope} rule {call}, L.Sees n scope →
    (∀ x args, call = some (x, args) → ∀ v ∈ args, L.Holds n v) →
    ∀ m, n ≤ m.scopes.size → I (g.of m) → g.Together m.sink m.output →
      g.Agrees (Eval.step rule scope call m) (Eval.step rule scope call (g.of m))

namespace Suits

variable {code : Code} {L : Logic code} {scope : ScopeId}

theorem step_paired (h : g.Suits L I) (rule : Json) {call : Option (Json × List Value)}
    (hs : L.Sees n scope) (hargs : ∀ x args, call = some (x, args) → ∀ v ∈ args, L.Holds n v) :
    g.Paired I n (Eval.step rule scope call) where
  prints m _ _ := by
    unfold Eval.step
    split
    · exact List.prefix_rfl
    · split
      · split <;> exact List.prefix_rfl
      · exact List.prefix_rfl
  agrees := h.step rule hs hargs

theorem callBuiltin (h : g.Suits L I) (args : List Value) :
    g.Paired I n (Evaluator.callBuiltin args) := by
  have hbuiltin : Evaluator.callBuiltin args = match Eval.texts args with
      | .error b => Eval.fail (.internal b)
      | .ok words => do
        Eval.print (" ".intercalate words)
        return .null := by
    unfold Evaluator.callBuiltin
    cases Eval.texts args <;> rfl
  rw [hbuiltin]
  cases Eval.texts args with
  | error b => exact .ignored (.fail _)
  | ok words =>
    have htail (u : Unit) : g.Ignores (Pure.pure Value.null) := .pure _
    refine ⟨fun m _ _ => ?_, fun m _ hI ht => (h.print _ m hI ht).bind htail⟩
    rw [Ignores.output_bind htail, Eval.print]
    split
    · exact List.prefix_rfl
    · exact ⟨[" ".intercalate words], by simp⟩

/-- What a call does after its body. -/
theorem leaving_ignores (id : FrameId) (c : Completion) : g.Ignores (do
    Eval.popFrame
    Eval.forgetFrame id
    return c.result) :=
  .bind .popFrame fun _ => .bind (.forgetFrame _) fun _ => .pure _

theorem invoke (h : g.Suits L I) (x : Json) {body : Eval Completion} (hs : L.Owns n scope)
    (hbody : g.Paired I n body) :
    g.Paired I n (do
      let frame ← Eval.pushFrame x scope
      let completion ← body
      Eval.popFrame
      Eval.forgetFrame frame
      return completion.result) where
  prints m hn hI := by
    have hI₁ := h.keeps.pushFrame x (L.owns_mono hn hs) hI
    have hprints := hbody.prints (Eval.pushFrame x scope m).2 hn hI₁
    rwa [← Ignores.output_bind (leaving_ignores (g := g) m.framesMade)] at hprints
  agrees m hn hI ht :=
    have hs' : L.Owns (g.of m).scopes.size scope := L.owns_mono hn hs
    have hI₁ := h.keeps.pushFrame x hs' hI
    (hbody.agrees (Eval.pushFrame x scope m).2 hn hI₁ ht).bind (leaving_ignores _)

/-- The logic of computations that go side by side with themselves in guise. -/
def logic (h : g.Suits L I) : Logic code where
  Sees := L.Sees
  Owns := L.Owns
  Holds := L.Holds
  Allows := L.Allows
  Meets n Q x := L.Meets n Q x ∧ g.Paired I n x
  sees_mono := L.sees_mono
  owns_mono := L.owns_mono
  holds_mono := L.holds_mono
  sees := L.sees
  holds_null := L.holds_null
  holds_literal := L.holds_literal
  holds_function := L.holds_function
  of_closure := L.of_closure
  allows_stray := L.allows_stray
  allows_unlinked := L.allows_unlinked
  allows_notAFunction := L.allows_notAFunction
  allows_mainMissing := L.allows_mainMissing
  pure ha := ⟨L.pure ha, .ignored (.pure _)⟩
  bind hx hk := ⟨L.bind hx.1 fun n' a hle ha => (hk n' a hle ha).1,
    .bind (h.keeps.meets hx.1) hx.2 fun n' a hle ha => (hk n' a hle ha).2⟩
  exhausted := ⟨L.exhausted, .ignored .exhausted⟩
  fail hf := ⟨L.fail hf, .ignored (.fail _)⟩
  newScope hs := ⟨L.newScope hs, .ignored (.newScope _)⟩
  lookup hs hx := ⟨L.lookup hs hx, .ignored (.lookup _ _)⟩
  declare hs hx hv := ⟨L.declare hs hx hv, .ignored (.declare _ _ _)⟩
  assign hs hx hv := ⟨L.assign hs hx hv, .ignored (.assign _ _ _)⟩
  apply hop hl hr := ⟨L.apply hop hl hr, .ignored (.ofExcept _)⟩
  step rule _ hs hargs := ⟨L.step rule hs hargs, h.step_paired rule hs hargs⟩
  callBuiltin hargs := ⟨L.callBuiltin hargs, h.callBuiltin _⟩
  invoke x _ hs hbody := ⟨L.invoke x hs fun n' hle => (hbody n' hle).1,
    h.invoke x hs (hbody _ (Nat.le_refl _)).2⟩
  main := ⟨L.main, .ignored .main⟩

variable {p : Program} {m : Machine}

/-- A run goes side by side with the run in guise. -/
theorem runWith (h : g.Suits L I) (fuel : Nat) (hp : Session.Entered L I p (g.of m))
    (ht : g.Together m.sink m.output) :
    g.Agrees (Session.runWith fuel p m) (Session.runWith fuel p (g.of m)) := by
  have hbody := (h.logic.runBody fuel hp.owns hp.statements).2.agrees (Session.start m)
    (Nat.le_refl _) hp.invariant ht
  exact hbody.bind fun v => .bind .popFrame fun _ => .pure v

theorem runFor (h : g.Suits L I) (fuel : Nat) (hp : Session.Entered L I p (g.of m))
    (ht : g.Together m.sink m.output) :
    let run := Session.runFor fuel p m
    let other := Session.runFor fuel p (g.of m)
    (other = (run.1, g.of run.2) ∧ g.Together run.2.sink run.2.output) ∨
      ((∃ step, run.1 = .fault g.fault step) ∧ g.After run.2.output other.2.output) := by
  have hrun := h.runWith fuel hp ht
  unfold Session.runFor
  generalize Session.runWith fuel p m = r at hrun
  generalize Session.runWith fuel p (g.of m) = r₂ at hrun
  cases hrun with
  | @same o m₁ ht =>
    refine .inl ?_
    cases o with
    | value v => exact ⟨rfl, ht⟩
    | fault f => exact ⟨by dsimp only [of]; rw [g.index], ht⟩
    | outOfFuel => exact ⟨rfl, ht⟩
  | @parted m₁ o₂ m₂ hafter =>
    refine .inr ⟨⟨_, rfl⟩, ?_⟩
    cases o₂ <;> exact hafter

end Suits

end Guise

end ScriptLang
