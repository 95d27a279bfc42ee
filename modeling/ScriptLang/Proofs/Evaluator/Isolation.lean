import ScriptLang.Proofs.Evaluator.Confined
import ScriptLang.Session

/-!
# Calls are lexically isolated

A call sees the scopes that can be reached from the function and its arguments, and those that it
makes itself. It neither reads nor changes any other, and what it returns leads to no other. So the
locals of a caller are out of its sight unless they have been captured.

The scopes that can be reached are the least set that has those of the function and of the functions
among the arguments and that no way leads out of, so they are the base of a closed region, to which
the evaluator is confined.

Results:
* `Reach.least`: the scopes that can be reached are in every such set;
* `callClosure_isolated`: what a call can change, return and depend on.
-/
namespace ScriptLang

/-- The scopes that can be reached from a function and some arguments. -/
inductive Reach (h : Scopes) (function : Closure) (args : List Value) : ScopeId → Prop where
  | function : Reach h function args function.scope
  | argument {c : Closure} (hc : .closure c ∈ args) : Reach h function args c.scope
  | parent {id p : ScopeId} (hid : Reach h function args id) (hp : (h.get id).parent = some p) :
    Reach h function args p
  | bound {id : ScopeId} {name : Json} {c : Closure} (hid : Reach h function args id)
    (hc : (name, .closure c) ∈ (h.get id).bindings) : Reach h function args c.scope

/-- They are in every set that has the scopes of the function and of the arguments and that no way
leads out of. -/
theorem Reach.least {h : Scopes} {function : Closure} {args : List Value} {S : ScopeId → Prop}
    (hfunction : S function.scope) (hargs : ∀ v ∈ args, v.ClosesIn S)
    (hparent : ∀ id, S id → ∀ p ∈ (h.get id).parent, S p)
    (hbound : ∀ id, S id → ∀ b ∈ (h.get id).bindings, b.2.ClosesIn S) {id : ScopeId}
    (hid : Reach h function args id) : S id := by
  induction hid with
  | function => exact hfunction
  | argument hc => exact hargs _ hc
  | parent _ hp ih => exact hparent _ ih _ hp
  | bound _ hc ih => exact hbound _ ih _ hc

/-- In this state the computation leaves the scopes alone that are there and not in the set, and with
other scopes in place of those it does the same. A function that it gives closes over a scope of the
set or one that it has made. -/
structure Isolated (S : ScopeId → Prop) (x : Eval Value) (m : Machine) : Prop where
  unchanged : ∀ id < m.scopes.size, ¬ S id → (x m).2.scopes.get id = m.scopes.get id
  returned : ∀ c, (x m).1 = .value (.closure c) →
    S c.scope ∨ m.scopes.size ≤ c.scope ∧ c.scope < (x m).2.scopes.size
  unread : ∀ h₂, m.scopes.Agrees S h₂ →
    ∃ h₂', x { m with scopes := h₂ } = ((x m).1, { (x m).2 with scopes := h₂' }) ∧
      (x m).2.scopes.Agrees (fun id => S id ∨ m.scopes.size ≤ id) h₂'

/-- What is confined to a closed region is isolated. -/
theorem Confined.isolated {R : Region} {x : Eval Value} {m : Machine}
    (h : Confined R m.scopes.size R.Holds x) (hfirst : R.first = m.scopes.size)
    (hc : R.Closed m.scopes) : Isolated R.base x m where
  unchanged := hfirst ▸ (h.effect m (Nat.le_refl _) hc).outside
  returned c hret := hfirst ▸ (h.effect m (Nat.le_refl _) hc).value _ hret
  unread h₂ ha := by
    have ha' : m.scopes.Agrees (R.Has m.scopes.size) h₂ := {
      size := ha.size
      get := fun id hid => ha.get id <| hid.resolve_right fun hid =>
        Nat.not_lt_of_le (hfirst ▸ hid.1) hid.2 }
    obtain ⟨h₂', heq, hagrees⟩ := h.agrees m h₂ (Nat.le_refl _) hc ha'
    refine ⟨h₂', heq, hagrees.size, fun id hid => ?_⟩
    rcases Nat.lt_or_ge id (x m).2.scopes.size with hlt | hge
    · exact hagrees.get id (hid.imp_right fun hle => ⟨hfirst ▸ hle, hlt⟩)
    · rw [Scopes.get_of_size_le _ hge, Scopes.get_of_size_le _ (hagrees.size ▸ hge)]

/-- The scopes that a call can reach, and those that it makes. -/
def callRegion (h : Scopes) (function : Closure) (args : List Value) : Region where
  base := Reach h function args
  first := h.size

variable {h : Scopes} {function : Closure} {args : List Value}

theorem has_callRegion {id : ScopeId} :
    (callRegion h function args).Has h.size id ↔ Reach h function args id := by
  refine ⟨fun hid => hid.resolve_right fun hid => ?_, .inl⟩
  exact Nat.not_lt_of_le hid.1 hid.2

theorem closed_callRegion : (callRegion h function args).Closed h where
  first := Nat.le_refl _
  parent id p hid hp := has_callRegion.mpr (.parent (has_callRegion.mp hid) hp)
  bound id hid b hb := by
    obtain ⟨name, v⟩ := b
    cases v with
    | closure c => exact has_callRegion.mpr (.bound (has_callRegion.mp hid) hb)
    | _ => trivial

/-- A call, whatever becomes of it, neither reads nor changes any scope that it cannot reach, and does
not get at one through what it returns. -/
theorem callClosure_isolated (fuel : Nat) (function : Closure) (args : List Value) (m : Machine) :
    Isolated (Reach m.scopes function args) (Evaluator.callClosure fuel function args) m := by
  have hargs : ∀ v ∈ args, (callRegion m.scopes function args).Holds m.scopes.size v := by
    intro v hv
    cases v with
    | closure c => exact has_callRegion.mpr (.argument hv)
    | _ => trivial
  have hcall := (confinement (callRegion m.scopes function args) fuel).callClosure
    m.scopes.size function args (has_callRegion.mpr .function) hargs
  exact hcall.isolated rfl closed_callRegion

/-- `main` keeps a secret, and binds a function that counts its calls to the global name `slot`. -/
def counting : Program where
  statements :=
    [.function (.str "slot") [] [],
      .function (.str "make") []
        [.declare (.str "count") (.literal .number (.int 0)),
          .function (.str "next") [] next,
          .expression (.binary (.identifier (.str "slot")) (.str "=") (.identifier (.str "next")))],
      .function (.str "main") []
        [.declare (.str "secret") (.literal .number (.int 7)),
          .expression (.call (.str "make") [])]]
where
  /-- The body of the function that counts its calls. -/
  next : List Node :=
    [.expression (.binary (.identifier (.str "count")) (.str "=")
        (.binary (.identifier (.str "count")) (.str "+") (.literal .number (.int 1)))),
      .ret (some (.identifier (.str "count")))]

def counted : Machine := ((Machine.fresh false none).run counting).2

/-- What `slot` is bound to in the end. -/
def counter : Closure := ⟨.str "next", [], counting.next, 4⟩

theorem not_reach_secret : ¬ Reach counted.scopes counter [] 2 := by
  intro hid
  have hmem : 2 ∈ [0, 3, 4] := Reach.least (S := (· ∈ [0, 3, 4])) (by decide) (by decide)
    (by decide +kernel) (by decide +kernel) hid
  exact absurd hmem (by decide)

/-- The counter counts in the scope of `make`, and leaves alone the secret of `main`, which may be
anything. -/
theorem counter_isolated :
    (counted.scopes.get 0).value? (.text "slot") = some (.closure counter) ∧
    (counted.scopes.get 2).names = [.str "secret"] ∧
    (Evaluator.callClosure 20 counter [] counted).2.scopes.get 4 ≠ counted.scopes.get 4 ∧
    (Evaluator.callClosure 20 counter [] counted).2.scopes.get 2 = counted.scopes.get 2 ∧
    ∀ v, ∃ h₂', Evaluator.callClosure 20 counter []
        { counted with scopes := counted.scopes.modify 2 (·.set (.text "secret") v) } =
      ((Evaluator.callClosure 20 counter [] counted).1,
        { (Evaluator.callClosure 20 counter [] counted).2 with scopes := h₂' }) := by
  have hcall := callClosure_isolated 20 counter [] counted
  refine ⟨by decide +kernel, by decide +kernel, by decide +kernel,
    hcall.unchanged 2 (by decide +kernel) not_reach_secret, fun v => ?_⟩
  have ha : counted.scopes.Agrees (Reach counted.scopes counter [])
      (counted.scopes.modify 2 (·.set (.text "secret") v)) := {
    size := Scopes.size_modify ..
    get := fun id hid => by
      rw [Scopes.get_modify, if_neg]
      rintro ⟨rfl, -⟩
      exact not_reach_secret hid }
  obtain ⟨h₂', heq, -⟩ := hcall.unread _ ha
  exact ⟨h₂', heq⟩

end ScriptLang
