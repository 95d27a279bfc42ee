import ScriptLang.Evaluator
import ScriptLang.Proofs.Evaluator.Region
import ScriptLang.Proofs.Evaluator.Unwinding
import ScriptLang.Proofs.Operator

/-!
# Computations confined to a region

A confined computation keeps a region closed, leaves alone what is outside, and goes the same way
whatever is outside. Primitive computations are confined because names are looked up along chains that
stay in the region, and sequencing keeps computations confined: the region only grows, so a value that
it held before it holds from then on.

Results:
* `Confined.bind` and a lemma for each primitive computation;
* `confinement`: the evaluator is confined to every closed region that has its scope.
-/
namespace ScriptLang

variable {α β : Type}

/-! ## Confined computations -/

/-- What a computation with the outcome `o` does to a region. -/
structure Region.Effect (R : Region) (Q : Nat → α → Prop) (m : Machine) (o : Outcome α)
    (m' : Machine) : Prop where
  grows : m.scopes.size ≤ m'.scopes.size
  closed : R.Closed m'.scopes
  value : ∀ a, o = .value a → Q m'.scopes.size a
  outside : ∀ id < R.first, ¬ R.base id → m'.scopes.get id = m.scopes.get id

/-- In every state with at least `n` scopes where the region is closed, the computation keeps to the
region. Its values are as `Q` says for the number of scopes in the end. -/
structure Confined (R : Region) (n : Nat) (Q : Nat → α → Prop) (x : Eval α) : Prop where
  effect : ∀ m, n ≤ m.scopes.size → R.Closed m.scopes → R.Effect Q m (x m).1 (x m).2
  agrees : ∀ m h₂, n ≤ m.scopes.size → R.Closed m.scopes →
    m.scopes.Agrees (R.Has m.scopes.size) h₂ →
    ∃ h₂', x { m with scopes := h₂ } = ((x m).1, { (x m).2 with scopes := h₂' }) ∧
      (x m).2.scopes.Agrees (R.Has (x m).2.scopes.size) h₂'

/-- The computation neither reads nor changes scopes. -/
def Eval.Blind (x : Eval α) : Prop :=
  ∀ m h₂, x { m with scopes := h₂ } = ((x m).1, { (x m).2 with scopes := h₂ })

theorem Eval.Blind.scopes {x : Eval α} (h : Eval.Blind x) (m : Machine) :
    (x m).2.scopes = m.scopes :=
  congrArg (·.2.scopes) (h m m.scopes)

namespace Region

variable {R : Region} {Q : Nat → α → Prop} {m m₁ m₂ : Machine}

/-- A change of anything but scopes. -/
theorem Effect.still (hc : R.Closed m.scopes) (hs : m₁.scopes = m.scopes) {o : Outcome α}
    (hv : ∀ a, o = .value a → Q m.scopes.size a) : R.Effect Q m o m₁ where
  grows := Nat.le_of_eq (congrArg Scopes.size hs.symm)
  closed := hs.symm ▸ hc
  value a ha := hs.symm ▸ hv a ha
  outside id _ _ := by rw [hs]

/-- One computation after another. -/
theorem Effect.append {P : Nat → α → Prop} {Q : Nat → β → Prop} {a : α} {o : Outcome β}
    (h₁ : R.Effect P m (.value a) m₁) (h₂ : R.Effect Q m₁ o m₂) : R.Effect Q m o m₂ where
  grows := Nat.le_trans h₁.grows h₂.grows
  closed := h₂.closed
  value := h₂.value
  outside id hid hbase := (h₂.outside id hid hbase).trans (h₁.outside id hid hbase)

/-- A computation that ends without a value says nothing about values. -/
theorem Effect.cast {P : Nat → α → Prop} {Q : Nat → β → Prop} {o : Outcome α} {o' : Outcome β}
    (h : R.Effect P m o m₁) (ho : ∀ b, o' ≠ .value b) : R.Effect Q m o' m₁ where
  grows := h.grows
  closed := h.closed
  value b hb := absurd hb (ho b)
  outside := h.outside

/-- Changing a scope of the region. -/
theorem Effect.modify {n : Nat} {id : ScopeId} {f : Scope → Scope} {o : Outcome α}
    (hid : R.Has n id) (hc : R.Closed (m.scopes.modify id f))
    (hv : ∀ a, o = .value a → Q m.scopes.size a) :
    R.Effect Q m o { m with scopes := m.scopes.modify id f } where
  grows := Nat.le_of_eq (Scopes.size_modify ..).symm
  closed := hc
  value a ha := (Scopes.size_modify m.scopes id f).symm ▸ hv a ha
  outside s hs hbase := by
    have hne : s ≠ id := by
      rintro rfl
      exact hid.elim hbase fun h => Nat.not_lt_of_le h.1 hs
    exact (Scopes.get_modify ..).trans (if_neg fun h => hne h.1)

variable {n n' : Nat}

/-- A return of the completion is of a value that the region holds. -/
def Completes (R : Region) (n : Nat) : Completion → Prop
  | .normal _ => True
  | .returned v => R.Holds n v

theorem Completes.mono {c : Completion} (hc : R.Completes n c) (hle : n ≤ n') :
    R.Completes n' c := by
  cases c with
  | normal v => trivial
  | returned v => exact Holds.mono hc hle

theorem Completes.result {c : Completion} (hc : R.Completes n c) : R.Holds n c.result := by
  cases c with
  | normal v => trivial
  | returned v => exact hc

end Region

namespace Confined

variable {R : Region} {n : Nat} {Q : Nat → α → Prop}

theorem bind {P : Nat → α → Prop} {Q : Nat → β → Prop} {x : Eval α} {k : α → Eval β}
    (h : Confined R n P x) (hk : ∀ n' a, n ≤ n' → P n' a → Confined R n' Q (k a)) :
    Confined R n Q (x >>= k) where
  effect m hn hc := by
    have hx := h.effect m hn hc
    rw [Eval.bind_run]
    rcases hr : x m with ⟨o, m₁⟩
    rw [hr] at hx
    cases o with
    | value a =>
      have hk := hk m₁.scopes.size a (Nat.le_trans hn hx.grows) (hx.value a rfl)
      exact hx.append (hk.effect m₁ (Nat.le_refl _) hx.closed)
    | fault f => exact hx.cast (by simp)
    | outOfFuel => exact hx.cast (by simp)
  agrees m h₂ hn hc ha := by
    have hx := h.effect m hn hc
    obtain ⟨h₂', heq, ha'⟩ := h.agrees m h₂ hn hc ha
    rw [Eval.bind_run, Eval.bind_run, heq]
    rcases hr : x m with ⟨o, m₁⟩
    rw [hr] at hx ha'
    cases o with
    | value a =>
      have hk := hk m₁.scopes.size a (Nat.le_trans hn hx.grows) (hx.value a rfl)
      exact hk.agrees m₁ h₂' (Nat.le_refl _) hx.closed ha'
    | fault f => exact ⟨h₂', rfl, ha'⟩
    | outOfFuel => exact ⟨h₂', rfl, ha'⟩

theorem blind {x : Eval α} (h : Eval.Blind x)
    (hv : ∀ m n' a, n ≤ n' → (x m).1 = .value a → Q n' a) : Confined R n Q x where
  effect m hn hc := .still hc (h.scopes m) fun a ha => hv m _ a hn ha
  agrees m h₂ hn hc ha := ⟨h₂, h m h₂, by rw [h.scopes m]; exact ha⟩

theorem pure {a : α} (ha : ∀ n', n ≤ n' → Q n' a) : Confined R n Q (Pure.pure a) :=
  blind (fun _ _ => rfl) fun _ n' _ hle h => by cases h; exact ha n' hle

theorem fail (f : Fault) : Confined R n Q (Eval.fail f) :=
  blind (fun _ _ => rfl) fun _ _ _ _ h => by cases h

theorem exhausted : Confined R n Q Eval.exhausted :=
  blind (fun _ _ => rfl) fun _ _ _ _ h => by cases h

theorem ofExcept {r : Except Fault α} (h : ∀ n' a, n ≤ n' → r = .ok a → Q n' a) :
    Confined R n Q (Eval.ofExcept r) := by
  cases r with
  | ok a => exact .pure fun n' hle => h n' a hle rfl
  | error f => exact .fail f

theorem ofBreakdown (r : Except Breakdown α) :
    Confined R n (fun _ _ => True) (Eval.ofBreakdown r) := by
  cases r with
  | ok a => exact .pure fun _ _ => trivial
  | error b => exact .fail (.internal b)

theorem print (line : String) : Confined R n (fun _ _ => True) (Eval.print line) := by
  refine blind (fun m h₂ => ?_) fun _ _ _ _ _ => trivial
  unfold Eval.print
  dsimp only
  split <;> rfl

theorem pushFrame (name : Json) (scope : ScopeId) :
    Confined R n (fun _ _ => True) (Eval.pushFrame name scope) :=
  blind (fun _ _ => rfl) fun _ _ _ _ _ => trivial

theorem popFrame : Confined R n (fun _ _ => True) Eval.popFrame :=
  blind (fun _ _ => rfl) fun _ _ _ _ _ => trivial

theorem forgetFrame (frame : FrameId) : Confined R n (fun _ _ => True) (Eval.forgetFrame frame) :=
  blind (fun _ _ => rfl) fun _ _ _ _ _ => trivial

variable {scope : ScopeId}

/-- The scope that is made is in the region. -/
theorem newScope (hs : R.Has n scope) : Confined R n R.Has (Eval.newScope scope) where
  effect m hn hc := by
    have hlt : m.scopes.size < (m.scopes.push (some scope)).size := by simp
    exact {
      grows := Nat.le_of_lt hlt
      closed := hc.push (hs.mono hn)
      value := by
        intro id hid
        cases hid
        exact .inr ⟨hc.first, hlt⟩
      outside := fun id hid _ => (Scopes.get_push ..).trans
        (if_neg (Nat.ne_of_lt (Nat.lt_of_lt_of_le hid hc.first))) }
  agrees m h₂ _ _ ha := by
    refine ⟨h₂.push (some scope), ?_, ha.push _⟩
    unfold Eval.newScope
    dsimp only
    rw [ha.size]

theorem lookup (hs : R.Has n scope) (name : Json) :
    Confined R n R.Holds (Eval.lookup scope name) where
  effect m hn hc := by
    unfold Eval.lookup
    cases hl : m.scopes.lookup scope name with
    | ok v =>
      refine .still hc rfl fun w hw => ?_
      cases hw
      exact hc.lookup (hs.mono hn) hl
    | error f => exact .still hc rfl (by simp)
  agrees m h₂ hn hc ha := by
    refine ⟨h₂, ?_, ?_⟩ <;> unfold Eval.lookup
    · dsimp only
      rw [ha.lookup_eq hc (hs.mono hn)]
      cases m.scopes.lookup scope name <;> rfl
    · cases m.scopes.lookup scope name <;> exact ha

theorem declare (hs : R.Has n scope) (name : Json) {v : Value} (hv : R.Holds n v) :
    Confined R n (fun _ _ => True) (Eval.declare scope name v) where
  effect m hn hc := by
    rw [Eval.declare_run]
    cases m.scopes.freeKey scope name with
    | ok key => exact .modify hs (hc.add scope name (hv.mono hn)) fun _ _ => trivial
    | error f => exact .still hc rfl (by simp)
  agrees m h₂ hn hc ha := by
    rw [Eval.declare_run, Eval.declare_run]
    rw [ha.freeKey_eq (hs.mono hn)]
    cases m.scopes.freeKey scope name with
    | ok key => exact ⟨_, rfl, ha.modify _⟩
    | error f => exact ⟨h₂, rfl, ha⟩

theorem assign (hs : R.Has n scope) (name : Json) {v : Value} (hv : R.Holds n v) :
    Confined R n (fun _ _ => True) (Eval.assign scope name v) where
  effect m hn hc := by
    rw [Eval.assign_run]
    cases hb : m.scopes.boundKey scope name with
    | ok place =>
      obtain ⟨owner, key⟩ := place
      have howner := hc.owner (hs.mono hn) (m.scopes.boundKey_eq_ok.mp hb).2
      exact .modify howner (hc.set owner key (hv.mono hn)) fun _ _ => trivial
    | error f => exact .still hc rfl (by simp)
  agrees m h₂ hn hc ha := by
    rw [Eval.assign_run, Eval.assign_run]
    rw [ha.boundKey_eq hc (hs.mono hn)]
    cases m.scopes.boundKey scope name with
    | ok place => exact ⟨_, rfl, ha.modify _⟩
    | error f => exact ⟨h₂, rfl, ha⟩

/-- What a step notes of the bindings is about a scope of the region. -/
theorem step (hs : R.Has n scope) (rule : Json) (call : Option (Json × List Value)) :
    Confined R n (fun _ _ => True) (Eval.step rule scope call) where
  effect m hn hc := by
    refine .still hc ?_ fun _ _ => trivial
    unfold Eval.step
    split
    · rfl
    · split
      · split <;> rfl
      · rfl
  agrees m h₂ hn hc ha := by
    refine ⟨h₂, ?_, ?_⟩ <;> unfold Eval.step
    · dsimp only
      rw [ha.notes_eq (hs.mono hn)]
      split
      · rfl
      · split
        · split <;> rfl
        · rfl
    · split
      · exact ha
      · split
        · split <;> exact ha
        · exact ha

theorem bindParams (hs : R.Has n scope) (params : List Json) {args : List Value}
    (hargs : ∀ v ∈ args, R.Holds n v) :
    Confined R n (fun _ _ => True) (Evaluator.bindParams scope params args) := by
  induction params generalizing n args with
  | nil => exact .pure fun _ _ => trivial
  | cons param params ih =>
    have hfirst : R.Holds n (args.headD .null) := by
      cases args with
      | nil => trivial
      | cons v args => exact hargs v List.mem_cons_self
    refine .bind (.declare hs param hfirst) fun n' _ hle _ => ih (hs.mono hle) fun v hv => ?_
    exact (hargs v (List.mem_of_mem_tail hv)).mono hle

theorem callBuiltin (args : List Value) : Confined R n R.Holds (Evaluator.callBuiltin args) :=
  .bind (.ofBreakdown _) fun _ _ _ _ => .bind (.print _) fun _ _ _ _ => .pure fun _ _ => trivial

theorem declareFunction (hs : R.Has n scope) (name : Json) (params : List Json) (body : List Node) :
    Confined R n R.Completes (Evaluator.declareFunction name params body scope) := by
  have hf : R.Holds n (.closure ⟨name, params, body, scope⟩) := hs
  exact .bind (.declare hs name hf) fun _ _ _ _ => .pure fun _ _ => trivial

end Confined

/-! ## The evaluator -/

/-- With some fuel the evaluator is confined to every region that has its scope. -/
structure Confinement (R : Region) (fuel : Nat) : Prop where
  evaluate : ∀ n node scope, R.Has n scope →
    Confined R n R.Holds (Evaluator.evaluate fuel node scope)
  evaluateAll : ∀ n nodes scope, R.Has n scope →
    Confined R n (fun n vs => ∀ v ∈ vs, R.Holds n v) (Evaluator.evaluateAll fuel nodes scope)
  callClosure : ∀ n function args, R.Has n function.scope → (∀ v ∈ args, R.Holds n v) →
    Confined R n R.Holds (Evaluator.callClosure fuel function args)
  executeBlock : ∀ n nodes scope, R.Has n scope →
    Confined R n R.Completes (Evaluator.executeBlock fuel nodes scope)
  executeAll : ∀ n nodes scope before, R.Has n scope → R.Completes n before →
    Confined R n R.Completes (Evaluator.executeAll fuel nodes scope before)
  execute : ∀ n node scope, R.Has n scope →
    Confined R n R.Completes (Evaluator.execute fuel node scope)
  executeLoop : ∀ n test body scope before, R.Has n scope → R.Completes n before →
    Confined R n R.Completes (Evaluator.executeLoop fuel test body scope before)

namespace Confinement

variable {R : Region} {fuel n : Nat} {scope : ScopeId}

theorem zero : Confinement R 0 where
  evaluate _ _ _ _ := by unfold Evaluator.evaluate; exact .exhausted
  evaluateAll _ _ _ _ := by unfold Evaluator.evaluateAll; exact .exhausted
  callClosure _ _ _ _ _ := by unfold Evaluator.callClosure; exact .exhausted
  executeBlock _ _ _ _ := by unfold Evaluator.executeBlock; exact .exhausted
  executeAll _ _ _ _ _ _ := by unfold Evaluator.executeAll; exact .exhausted
  execute _ _ _ _ := by unfold Evaluator.execute; exact .exhausted
  executeLoop _ _ _ _ _ _ _ := by unfold Evaluator.executeLoop; exact .exhausted

theorem evaluate_succ (ih : Confinement R fuel) (node : Node) (hs : R.Has n scope) :
    Confined R n R.Holds (Evaluator.evaluate (fuel + 1) node scope) := by
  unfold Evaluator.evaluate
  cases node with
  | literal kind value => exact .pure fun _ _ => trivial
  | identifier name => exact .lookup hs name
  | binary left operator right =>
    dsimp only
    cases Operator.ofDocument operator with
    | assign =>
      cases left with
      | identifier name =>
        refine .bind (ih.evaluate _ _ _ hs) fun n' value hle hv => ?_
        exact .bind (.assign (hs.mono hle) name hv) fun _ _ hle' _ =>
          .pure fun _ hle'' => hv.mono (Nat.le_trans hle' hle'')
      | _ => exact .fail _
    | _ =>
      refine .bind (ih.evaluate _ _ _ hs) fun n' l hle _ => ?_
      exact .bind (ih.evaluate _ _ _ (hs.mono hle)) fun _ r _ _ =>
        .ofExcept fun _ v _ hv => .data (Operator.apply_data _ _ _ v hv)
  | call name args =>
    refine .bind (.lookup hs name) fun n' callee hle hcallee => ?_
    refine .bind (ih.evaluateAll _ _ _ (hs.mono hle)) fun n'' args hle' hargs => ?_
    -- the function was looked up before its arguments, which may have made scopes since
    have hs'' := hs.mono (Nat.le_trans hle hle')
    cases callee with
    | builtin builtinName home => exact .bind (.step hs'' _ _) fun _ _ _ _ => .callBuiltin _
    | closure function =>
      refine .bind (.step hs'' _ _) fun _ _ hle'' _ => ?_
      exact ih.callClosure _ function args
        (Region.Has.mono hcallee (Nat.le_trans hle' hle'')) fun v hv => (hargs v hv).mono hle''
    | _ => exact .fail _
  | _ => exact .fail _

theorem evaluateAll_succ (ih : Confinement R fuel) (nodes : List Node) (hs : R.Has n scope) :
    Confined R n (fun n vs => ∀ v ∈ vs, R.Holds n v)
      (Evaluator.evaluateAll (fuel + 1) nodes scope) := by
  unfold Evaluator.evaluateAll
  cases nodes with
  | nil => exact .pure fun _ _ => by simp
  | cons node nodes =>
    refine .bind (ih.evaluate _ _ _ hs) fun n' first hle hfirst => ?_
    refine .bind (ih.evaluateAll _ _ _ (hs.mono hle)) fun n'' rest hle' hrest => ?_
    refine .pure fun m hle'' => List.forall_mem_cons.mpr ⟨?_, fun v hv => (hrest v hv).mono hle''⟩
    exact hfirst.mono (Nat.le_trans hle' hle'')

theorem callClosure_succ (ih : Confinement R fuel) (function : Closure) (args : List Value)
    (hf : R.Has n function.scope) (hargs : ∀ v ∈ args, R.Holds n v) :
    Confined R n R.Holds (Evaluator.callClosure (fuel + 1) function args) := by
  unfold Evaluator.callClosure
  refine .bind (.newScope hf) fun n' scope hle hs => ?_
  refine .bind (.bindParams hs _ fun v hv => (hargs v hv).mono hle) fun _ _ hle' _ => ?_
  refine .bind (.pushFrame _ _) fun _ frame hle'' _ => ?_
  have hs' := hs.mono (Nat.le_trans hle' hle'')
  refine .bind (ih.executeBlock _ _ _ hs') fun _ completion _ hc => ?_
  refine .bind .popFrame fun _ _ hpop _ => .bind (.forgetFrame _) fun _ _ hforget _ => ?_
  exact .pure fun _ hle => hc.result.mono (Nat.le_trans hpop (Nat.le_trans hforget hle))

theorem executeBlock_succ (ih : Confinement R fuel) (nodes : List Node) (hs : R.Has n scope) :
    Confined R n R.Completes (Evaluator.executeBlock (fuel + 1) nodes scope) := by
  unfold Evaluator.executeBlock
  exact .bind (.newScope hs) fun _ _ _ hinner => ih.executeAll _ _ _ _ hinner trivial

theorem executeAll_succ (ih : Confinement R fuel) (nodes : List Node) (before : Completion)
    (hs : R.Has n scope) (hb : R.Completes n before) :
    Confined R n R.Completes (Evaluator.executeAll (fuel + 1) nodes scope before) := by
  unfold Evaluator.executeAll
  cases nodes with
  | nil => exact .pure fun _ hle => hb.mono hle
  | cons node nodes =>
    refine .bind (ih.execute _ _ _ hs) fun n' c hle hc => ?_
    cases c with
    | returned v => exact .pure fun _ hle' => hc.mono hle'
    | normal v => exact ih.executeAll _ _ _ _ (hs.mono hle) trivial

theorem execute_succ (ih : Confinement R fuel) (node : Node) (hs : R.Has n scope) :
    Confined R n R.Completes (Evaluator.execute (fuel + 1) node scope) := by
  unfold Evaluator.execute
  refine .bind (.step hs _ _) fun n' _ hle _ => ?_
  replace hs : R.Has n' scope := hs.mono hle
  cases node with
  | expression value =>
    exact .bind (ih.evaluate _ _ _ hs) fun _ _ _ _ => .pure fun _ _ => trivial
  | declare name value =>
    refine .bind (ih.evaluate _ _ _ hs) fun _ value hle hv => ?_
    exact .bind (.declare (hs.mono hle) name hv) fun _ _ _ _ => .pure fun _ _ => trivial
  | block body => exact ih.executeBlock _ _ _ hs
  | branch test consequent alternate =>
    refine .bind (ih.evaluate _ _ _ hs) fun _ chosen hle _ => ?_
    split
    · exact ih.executeBlock _ _ _ (hs.mono hle)
    · cases alternate with
      | none => exact .pure fun _ _ => trivial
      | some alternate => exact ih.executeBlock _ _ _ (hs.mono hle)
  | loop test body => exact ih.executeLoop _ _ _ _ _ hs trivial
  | function name params body => exact .declareFunction hs name params body
  | ret argument =>
    cases argument with
    | none => exact .pure fun _ _ => trivial
    | some argument =>
      exact .bind (ih.evaluate _ _ _ hs) fun _ value _ hv => .pure fun _ hle => hv.mono hle
  | _ => exact .fail _

theorem executeLoop_succ (ih : Confinement R fuel) (test : Node) (body : List Node)
    (before : Completion) (hs : R.Has n scope) (hb : R.Completes n before) :
    Confined R n R.Completes (Evaluator.executeLoop (fuel + 1) test body scope before) := by
  unfold Evaluator.executeLoop
  refine .bind (ih.evaluate _ _ _ hs) fun n' again hle _ => ?_
  split
  · refine .bind (ih.executeBlock _ _ _ (hs.mono hle)) fun _ c hle' hc => ?_
    cases c with
    | returned v => exact .pure fun _ hle => hc.mono hle
    | normal v => exact ih.executeLoop _ _ _ _ _ (hs.mono (Nat.le_trans hle hle')) trivial
  · exact .pure fun _ hle' => hb.mono (Nat.le_trans hle hle')

end Confinement

theorem confinement (R : Region) (fuel : Nat) : Confinement R fuel := by
  induction fuel with
  | zero => exact .zero
  | succ fuel ih =>
    exact {
      evaluate := fun _ node _ => ih.evaluate_succ node
      evaluateAll := fun _ nodes _ => ih.evaluateAll_succ nodes
      callClosure := fun _ => ih.callClosure_succ
      executeBlock := fun _ nodes _ => ih.executeBlock_succ nodes
      executeAll := fun _ nodes _ => ih.executeAll_succ nodes
      execute := fun _ node _ => ih.execute_succ node
      executeLoop := fun _ test body _ => ih.executeLoop_succ test body }

end ScriptLang
