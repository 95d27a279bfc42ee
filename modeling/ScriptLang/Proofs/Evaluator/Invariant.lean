import ScriptLang.Proofs.Evaluator.Activity

/-!
# Invariants of a run

A logic may be about an invariant of the machine: a computation that meets its conditions, whenever it
is started where the invariant holds, leaves it so. Then the invariant holds whenever the evaluator
starts on anything, and what it starts on fits the conditions of the logic.

Results:
* `Starts.maintained`, `Starts.fits`: the parts of an activity that fits a logic fit it too;
* `Session.Happens.fits`: so do all activities of a run.
-/
namespace ScriptLang

variable {α β : Type}

/-! ## Computations that keep an invariant -/

/-- What a computation with the outcome `o` has done on the machine `m`: the scopes have only become
more, the invariant holds again, and a value is as `Q` says for the number of scopes in the end. -/
structure Maintained (I : Machine → Prop) (Q : Nat → α → Prop) (m : Machine) (o : Outcome α)
    (m' : Machine) : Prop where
  grows : m.scopes.size ≤ m'.scopes.size
  invariant : I m'
  value : ∀ a, o = .value a → Q m'.scopes.size a

namespace Maintained

variable {I : Machine → Prop} {P : Nat → α → Prop} {Q : Nat → β → Prop} {m m₁ m₂ : Machine}

/-- One computation after another. -/
theorem append {a : α} {o : Outcome β} (h₁ : Maintained I P m (.value a) m₁)
    (h₂ : Maintained I Q m₁ o m₂) : Maintained I Q m o m₂ :=
  ⟨Nat.le_trans h₁.grows h₂.grows, h₂.invariant, h₂.value⟩

/-- Something else is said of the value. -/
theorem cast {o : Outcome α} {o' : Outcome β} (h : Maintained I P m o m₁)
    (hQ : ∀ b, Q m₁.scopes.size b) : Maintained I Q m o' m₁ :=
  ⟨h.grows, h.invariant, fun b _ => hQ b⟩

end Maintained

/-- Wherever there are `n` scopes or more, the computation maintains the invariant. -/
def Maintains (I : Machine → Prop) (n : Nat) (Q : Nat → α → Prop) (x : Eval α) : Prop :=
  ∀ m, n ≤ m.scopes.size → I m → Maintained I Q m (x m).1 (x m).2

namespace Maintains

variable {I : Machine → Prop} {n : Nat} {P : Nat → α → Prop} {Q : Nat → β → Prop}

theorem pure {a : α} (h : ∀ n', n ≤ n' → P n' a) : Maintains I n P (Pure.pure a) :=
  fun m hn hI => ⟨Nat.le_refl _, hI, by rintro _ ⟨⟩; exact h _ hn⟩

theorem exhausted : Maintains I n P Eval.exhausted :=
  fun m _ hI => ⟨Nat.le_refl _, hI, by rintro _ ⟨⟩⟩

theorem fail (f : Fault) : Maintains I n P (Eval.fail f) :=
  fun m _ hI => ⟨Nat.le_refl _, hI, by rintro _ ⟨⟩⟩

theorem ofExcept {r : Except Fault α} (h : ∀ a, r = .ok a → ∀ n', n ≤ n' → P n' a) :
    Maintains I n P (Eval.ofExcept r) := by
  cases r with
  | error f => exact fail f
  | ok a => exact pure (h a rfl)

theorem bind {x : Eval α} {k : α → Eval β} (hx : Maintains I n P x)
    (hk : ∀ n' a, n ≤ n' → P n' a → Maintains I n' Q (k a)) : Maintains I n Q (x >>= k) := by
  intro m hn hI
  have hfirst := hx m hn hI
  rw [Eval.bind_run]
  rcases hrun : x m with ⟨o, m₁⟩
  rw [hrun] at hfirst
  cases o with
  | value a =>
    exact hfirst.append (hk _ a (Nat.le_trans hn hfirst.grows) (hfirst.value a rfl) m₁
      (Nat.le_refl _) hfirst.invariant)
  | fault f => exact ⟨hfirst.grows, hfirst.invariant, by rintro _ ⟨⟩⟩
  | outOfFuel => exact ⟨hfirst.grows, hfirst.invariant, by rintro _ ⟨⟩⟩

/-- A body in a frame of its own, which entering and leaving frames does not touch. -/
theorem invoke {P : Nat → Completion → Prop} {Q : Nat → Value → Prop} {x : Json} {scope : ScopeId}
    {body : Eval Completion} (hpush : ∀ m, I m → I (Eval.pushFrame x scope m).2)
    (hpop : ∀ m, I m → I { m with stack := m.stack.tail })
    (hforget : ∀ m id, I m → I { m with log := m.log.forget id }) (hbody : Maintains I n P body)
    (hresult : ∀ n c, P n c → Q n c.result) :
    Maintains I n Q (do
      let frame ← Eval.pushFrame x scope
      let completion ← body
      Eval.popFrame
      Eval.forgetFrame frame
      return completion.result) := by
  intro m hn hI
  have hdone := hbody (Eval.pushFrame x scope m).2 hn (hpush m hI)
  rw [Eval.bind_run]
  show Maintained I Q m ((body >>= _) (Eval.pushFrame x scope m).2).1
    ((body >>= _) (Eval.pushFrame x scope m).2).2
  rw [Eval.bind_run]
  rcases hrun : body (Eval.pushFrame x scope m).2 with ⟨o, m₁⟩
  rw [hrun] at hdone
  cases o with
  | value c =>
    refine ⟨hdone.grows, hforget _ _ (hpop m₁ hdone.invariant), ?_⟩
    rintro _ ⟨⟩
    exact hresult _ c (hdone.value c rfl)
  | fault f => exact ⟨hdone.grows, hdone.invariant, by rintro _ ⟨⟩⟩
  | outOfFuel => exact ⟨hdone.grows, hdone.invariant, by rintro _ ⟨⟩⟩

end Maintains

/-! ## Logics of invariants -/

/-- The logic is about computations that maintain the invariant, which making a frame does not touch
either. -/
structure Logic.Keeps {code : Code} (L : Logic code) (I : Machine → Prop) : Prop where
  meets : ∀ {α : Type} {n : Nat} {Q : Nat → α → Prop} {x : Eval α}, L.Meets n Q x →
    Maintains I n Q x
  pushFrame : ∀ {m : Machine} {scope : ScopeId} (x : Json), L.Owns m.scopes.size scope → I m →
    I (Eval.pushFrame x scope m).2

variable {code : Code} {L : Logic code} {I : Machine → Prop} {n fuel : Nat}

theorem Logic.Keeps.run (hL : L.Keeps I) {Q : Nat → α → Prop} {x : Eval α} {m m' : Machine}
    {o : Outcome α} (hx : L.Meets m.scopes.size Q x) (hI : I m) (h : x m = (o, m')) :
    Maintained I Q m o m' := by
  have hrun := hL.meets hx m (Nat.le_refl _) hI
  rw [h] at hrun
  exact hrun

/-- With `n` scopes the task is as the logic asks of what is run. -/
def Task.Fits (L : Logic code) (n : Nat) : Task → Prop
  | evaluate node scope => L.Sees n scope ∧ code.Expression node
  | evaluateAll nodes scope => L.Sees n scope ∧ ∀ node ∈ nodes, code.Expression node
  | call function args => L.Holds n (.closure function) ∧ ∀ v ∈ args, L.Holds n v
  | block nodes scope => L.Sees n scope ∧ ∀ node ∈ nodes, code.Statement node
  | executeAll nodes scope before =>
    L.Owns n scope ∧ (∀ node ∈ nodes, code.Statement node) ∧ L.Holds n before.value
  | execute node scope => L.Owns n scope ∧ code.Statement node
  | loop test body scope before =>
    L.Sees n scope ∧ code.Expression test ∧ (∀ node ∈ body, code.Statement node) ∧
      L.Holds n before.value

theorem Task.Fits.meets {task : Task} (h : task.Fits L n) :
    L.Meets n (fun n vs => ∀ v ∈ vs, L.Holds n v) (task.run fuel) := by
  have alone {v : Value} {n : Nat} (hv : L.Holds n v) (n' : Nat) (hle : n ≤ n') :
      ∀ w ∈ [v], L.Holds n' w := by
    simpa using L.holds_mono hle hv
  have evaluates := L.evaluates fuel
  cases task with
  | evaluate node scope =>
    exact L.bind (evaluates.evaluate h.1 h.2) fun _ _ _ hv => L.pure (alone hv)
  | evaluateAll nodes scope => exact evaluates.evaluateAll h.1 h.2
  | call function args =>
    exact L.bind (evaluates.callClosure h.1 h.2) fun _ _ _ hv => L.pure (alone hv)
  | block nodes scope =>
    exact L.bind (evaluates.executeBlock h.1 h.2) fun _ _ _ hc => L.pure (alone hc)
  | executeAll nodes scope before =>
    exact L.bind (evaluates.executeAll h.1 h.2.1 h.2.2) fun _ _ _ hc => L.pure (alone hc)
  | execute node scope =>
    exact L.bind (evaluates.execute h.1 h.2) fun _ _ _ hc => L.pure (alone hc)
  | loop test body scope before =>
    exact L.bind (evaluates.executeLoop h.1 h.2.1 h.2.2.1 h.2.2.2) fun _ _ _ hc =>
      L.pure (alone hc)

theorem Task.Fits.passed {task : Task} (h : task.Fits L n) : ∀ v ∈ task.passed, L.Holds n v := by
  cases task with
  | call function args => exact h.2
  | executeAll nodes scope before => simpa [Task.passed] using h.2.2
  | loop test body scope before => simpa [Task.passed] using h.2.2.2
  | _ => simp [Task.passed]

theorem Task.Fits.ofStatement {scope : ScopeId} {node : Node} {task : Task}
    (hs : L.Sees n scope) (hnode : code.Statement node)
    (h : Task.ofStatement? scope node = some task) : task.Fits L n := by
  cases node with
  | expression value =>
    cases h
    exact ⟨hs, code.evaluation hnode⟩
  | declare x value =>
    cases h
    exact ⟨hs, (code.declaration hnode).2⟩
  | block body =>
    cases h
    exact ⟨hs, code.block hnode⟩
  | branch test consequent alternate =>
    cases h
    exact ⟨hs, (code.branch hnode).1⟩
  | loop test body =>
    cases h
    exact ⟨hs, (code.loop hnode).1, (code.loop hnode).2, L.holds_null⟩
  | ret argument =>
    cases argument with
    | none => cases h
    | some argument =>
      cases h
      exact ⟨hs, code.ret hnode⟩
  | _ => cases h

/-! ## Activities -/

/-- The invariant holds when the activity starts, and its task is as the logic asks. -/
structure Activity.Fits (L : Logic code) (I : Machine → Prop) (a : Activity) : Prop where
  invariant : I a.before
  task : a.task.Fits L a.before.scopes.size

theorem Activity.Fits.maintained (hL : L.Keeps I) {a : Activity} (h : a.Fits L I) :
    Maintained I (fun n vs => ∀ v ∈ vs, L.Holds n v) a.before a.run.1 a.run.2 :=
  hL.run h.task.meets h.invariant rfl

section Parts

variable {scope : ScopeId} {m m₁ m₂ m₃ : Machine} {args : List Node} {vs : List Value}

/-- A call that has evaluated its arguments and logged its step. -/
theorem Activity.Fits.called (hL : L.Keeps I) {x rule : Json} {callee : Value}
    (ha : Activity.Fits L I ⟨fuel + 1, .evaluate (.call x args) scope, m⟩)
    (hcallee : Eval.lookup scope x m = (.value callee, m₁))
    (hargs : Evaluator.evaluateAll fuel args scope m₁ = (.value vs, m₂))
    (hstep : Eval.step rule scope (some (x, vs)) m₂ = (.value (), m₃)) :
    Maintained I (fun n _ => L.Holds n callee ∧ ∀ v ∈ vs, L.Holds n v) m (.value ()) m₃ := by
  obtain ⟨hI, hs, hcall⟩ := ha
  obtain ⟨hx, hnodes⟩ := code.call hcall
  have hc := hL.run (L.lookup hs hx) hI hcallee
  replace hs := L.sees_mono hc.grows hs
  have hvs := hL.run ((L.evaluates _).evaluateAll hs hnodes) hc.invariant hargs
  have hnoted := hL.run (L.step _ (L.sees_mono hvs.grows hs)
    (by rintro _ _ ⟨⟩; exact hvs.value _ rfl)) hvs.invariant hstep
  refine ((hc.append hvs).append hnoted).cast fun _ => ⟨?_, fun v hv => ?_⟩
  · exact L.holds_mono (Nat.le_trans hvs.grows hnoted.grows) (hc.value _ rfl)
  · exact L.holds_mono hnoted.grows (hvs.value _ rfl v hv)

/-- A call in the scope that it has made, with some of its parameters bound. -/
theorem Activity.Fits.bound (hL : L.Keeps I) {function : Closure} {params : List Json}
    (ha : Activity.Fits L I ⟨fuel + 1, .call function vs, m⟩)
    (hscope : Eval.newScope function.scope m = (.value scope, m₁))
    (hsub : params ⊆ function.params)
    (hparams : Evaluator.bindParams scope params vs m₁ = (.value (), m₂)) :
    Maintained I (fun n _ => L.Owns n scope) m (.value ()) m₂ := by
  obtain ⟨hI, hfunction, hvs⟩ := ha
  obtain ⟨hs, hnames, -⟩ := L.of_closure hfunction
  have hnew := hL.run (L.newScope hs) hI hscope
  have howns := hnew.value _ rfl
  have hbound := hL.run (Logic.bindParams howns (fun x hx => hnames x (hsub hx))
    fun v hv => L.holds_mono hnew.grows (hvs v hv)) hnew.invariant hparams
  exact (hnew.append hbound).cast fun _ => L.owns_mono hbound.grows howns

/-- A statement that has logged its step. -/
theorem Activity.Fits.noted (hL : L.Keeps I) {node : Node}
    (ha : Activity.Fits L I ⟨fuel + 1, .execute node scope, m⟩)
    (hstep : Eval.step (.str node.kindName) scope none m = (.value (), m₁)) :
    Maintained I (fun n _ => L.Owns n scope) m (.value ()) m₁ := by
  have hnoted := hL.run (L.step _ (L.sees ha.task.1) (by simp)) ha.invariant hstep
  exact hnoted.cast fun _ => L.owns_mono hnoted.grows ha.task.1

end Parts

/-- What an activity that fits a logic starts fits it too, and has no fewer scopes to start with. -/
theorem Starts.maintained (hL : L.Keeps I) {a b : Activity} (h : Starts a b) (ha : a.Fits L I) :
    Maintained I (fun n _ => b.task.Fits L n) a.before (.value ()) b.before := by
  have htask := ha.task
  have still (hfits : b.task.Fits L a.before.scopes.size) (hbefore : b.before = a.before) :
      Maintained I (fun n _ => b.task.Fits L n) a.before (.value ()) b.before := by
    rw [hbefore]
    exact ⟨Nat.le_refl _, ha.invariant, fun _ _ => hfits⟩
  cases h with
  | assigned hop => exact still ⟨htask.1, (code.assignment htask.2 hop).2.2⟩ rfl
  | left hop => exact still ⟨htask.1, (code.operation htask.2 hop).1⟩ rfl
  | right hop hleft =>
    obtain ⟨hl, -, hr⟩ := code.operation htask.2 hop
    have hv := hL.run ((L.evaluates _).evaluate htask.1 hl) ha.invariant hleft
    exact hv.cast fun _ => ⟨L.sees_mono hv.grows htask.1, hr⟩
  | arguments hcallee =>
    have hc := hL.run (L.lookup htask.1 (code.call htask.2).1) ha.invariant hcallee
    exact hc.cast fun _ => ⟨L.sees_mono hc.grows htask.1, (code.call htask.2).2⟩
  | call hcallee hargs hstep => exact ha.called hL hcallee hargs hstep
  | first => exact still ⟨htask.1, htask.2 _ List.mem_cons_self⟩ rfl
  | rest hfirst =>
    have hv := hL.run ((L.evaluates _).evaluate htask.1 (htask.2 _ List.mem_cons_self))
      ha.invariant hfirst
    exact hv.cast fun _ => ⟨L.sees_mono hv.grows htask.1,
      fun node hnode => htask.2 node (List.mem_cons_of_mem _ hnode)⟩
  | body hscope hparams hframe =>
    have hbound := ha.bound hL hscope (List.Subset.refl _) hparams
    have howns := hbound.value _ rfl
    cases hframe
    exact ⟨hbound.grows, hL.pushFrame _ howns hbound.invariant,
      fun _ _ => ⟨L.sees howns, (L.of_closure htask.1).2.2⟩⟩
  | inside hinner =>
    have hnew := hL.run (L.newScope htask.1) ha.invariant hinner
    exact hnew.cast fun _ => ⟨hnew.value _ rfl, htask.2, L.holds_null⟩
  | statement => exact still ⟨htask.1, htask.2.1 _ List.mem_cons_self⟩ rfl
  | next hfirst =>
    have hc := hL.run ((L.evaluates _).execute htask.1 (htask.2.1 _ List.mem_cons_self))
      ha.invariant hfirst
    exact hc.cast fun _ => ⟨L.owns_mono hc.grows htask.1,
      fun node hnode => htask.2.1 node (List.mem_cons_of_mem _ hnode), hc.value _ rfl⟩
  | opening hstep hopens =>
    have hnoted := ha.noted hL hstep
    exact hnoted.cast fun _ => .ofStatement (L.sees (hnoted.value _ rfl)) htask.2 hopens
  | consequent hstep htest htrue =>
    obtain ⟨htestCode, hconsequent, -⟩ := code.branch htask.2
    have hnoted := ha.noted hL hstep
    have hs := L.sees (hnoted.value _ rfl)
    have hv := hL.run ((L.evaluates _).evaluate hs htestCode) hnoted.invariant htest
    exact (hnoted.append hv).cast fun _ => ⟨L.sees_mono hv.grows hs, hconsequent⟩
  | alternate hstep htest hfalse =>
    obtain ⟨htestCode, -, halternate⟩ := code.branch htask.2
    have hnoted := ha.noted hL hstep
    have hs := L.sees (hnoted.value _ rfl)
    have hv := hL.run ((L.evaluates _).evaluate hs htestCode) hnoted.invariant htest
    exact (hnoted.append hv).cast fun _ => ⟨L.sees_mono hv.grows hs, halternate _ rfl⟩
  | test => exact still ⟨htask.1, htask.2.1⟩ rfl
  | round htest htrue =>
    have hv := hL.run ((L.evaluates _).evaluate htask.1 htask.2.1) ha.invariant htest
    exact hv.cast fun _ => ⟨L.sees_mono hv.grows htask.1, htask.2.2.1⟩
  | again htest htrue hround =>
    obtain ⟨hs, htestCode, hbody, -⟩ := htask
    have hv := hL.run ((L.evaluates _).evaluate hs htestCode) ha.invariant htest
    have hs' := L.sees_mono hv.grows hs
    have hc := hL.run ((L.evaluates _).executeBlock hs' hbody) hv.invariant hround
    exact (hv.append hc).cast fun _ =>
      ⟨L.sees_mono hc.grows hs', htestCode, hbody, hc.value _ rfl⟩

/-- What an activity that fits a logic starts fits it too. -/
theorem Starts.fits (hL : L.Keeps I) {a b : Activity} (h : Starts a b) (ha : a.Fits L I) :
    b.Fits L I :=
  have hb := h.maintained hL ha
  ⟨hb.invariant, hb.value _ rfl⟩

namespace Session

variable {p : Program} {m : Machine}

/-- What there has to be for a run to keep to a logic: the invariant holds when it starts, the run
owns the global scope, and the statements are as the logic asks. -/
structure Admits (L : Logic code) (I : Machine → Prop) (p : Program) (m : Machine) : Prop where
  invariant : I m
  owns : L.Owns m.scopes.size Machine.globalScope
  statements : ∀ node ∈ p.statements, code.Statement node

theorem Admits.start (h : Admits L I p m) (hL : L.Keeps I) : I (start m) :=
  hL.pushFrame _ h.owns h.invariant

/-- The same of a run in its bottom frame, where the invariant may hold though it did not before. -/
structure Entered (L : Logic code) (I : Machine → Prop) (p : Program) (m : Machine) : Prop where
  invariant : I (start m)
  owns : L.Owns m.scopes.size Machine.globalScope
  statements : ∀ node ∈ p.statements, code.Statement node

theorem Admits.entered (h : Admits L I p m) (hL : L.Keeps I) : Entered L I p m :=
  ⟨h.start hL, h.owns, h.statements⟩

theorem Entered.hoisted (h : Entered L I p m) (hL : L.Keeps I) {nodes : List Node} {m₁ : Machine}
    (hnodes : ∀ node ∈ nodes, node ∈ p.statements)
    (hhoist : hoist fuel nodes (Session.start m) = (.value (), m₁)) :
    Maintained I (fun _ _ => True) (Session.start m) (.value ()) m₁ :=
  hL.run (L.hoist fuel h.owns fun node hnode => h.statements node (hnodes node hnode))
    h.invariant hhoist

/-- All activities of a run fit the logic. -/
theorem Happens.fits_entered (hL : L.Keeps I) (h : Entered L I p m) {a : Activity}
    (ha : Happens fuel p m a) : a.Fits L I := by
  induction ha with
  | @hoisted before x params body after m₁ hp hhoist =>
    have hm₁ := h.hoisted hL (by simp +contextual [hp]) hhoist
    exact ⟨hm₁.invariant, L.owns_mono hm₁.grows h.owns, h.statements _ (by simp [hp])⟩
  | @main m₁ main m₂ hhoist hmain hstep =>
    have hm₁ := h.hoisted hL (fun _ hnode => hnode) hhoist
    have howns := L.owns_mono hm₁.grows h.owns
    have hread := hL.run L.main hm₁.invariant
      (show (Eval.read fun m => mainOf m.scopes) m₁ = (.value (some main), m₁) by rw [← hmain]; rfl)
    have hnoted := hL.run (L.step _ (L.sees howns) (by rintro _ _ ⟨⟩; simp)) hm₁.invariant hstep
    exact ⟨hnoted.invariant, L.holds_mono hnoted.grows (hread.value _ rfl main rfl), by simp⟩
  | part _ hstarts ih => exact hstarts.fits hL ih

theorem Happens.fits (hL : L.Keeps I) (h : Admits L I p m) {a : Activity}
    (ha : Happens fuel p m a) : a.Fits L I :=
  ha.fits_entered hL (h.entered hL)

/-- The invariant holds in all states that a run comes by. -/
theorem Visits.invariant (hL : L.Keeps I) (h : Admits L I p m) {m' : Machine}
    (hv : Visits fuel p m m') : I m' := by
  cases hv with
  | start => exact h.start hL
  | hoisted hhoist => exact ((h.entered hL).hoisted hL (fun _ hnode => hnode) hhoist).invariant
  | before ha => exact (ha.fits hL h).invariant
  | after ha => exact ((ha.fits hL h).maintained hL).invariant

end Session

end ScriptLang
