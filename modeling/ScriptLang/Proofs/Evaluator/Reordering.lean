import ScriptLang.Proofs.Evaluator.Confined
import ScriptLang.Proofs.Evaluator.Logic
import ScriptLang.Proofs.Grammar.Image
import ScriptLang.Proofs.Session

/-!
# The order of top-level functions

A run declares the functions of a program one after another and passes over everything else at the top
level. If no two of them have one name, their order shows only in the order of the bindings of the
global scope. A session that is not verbose never shows that order, so two programs with the same
functions run alike.

Scopes are alike if they differ in nothing but the order of bindings. Computations keep scopes alike,
which makes a logic, so the evaluator goes the same way from scopes that are alike.

Results:
* `unordered`: the logic of computations that do not depend on the order of bindings;
* `hoist_eq`: what the declaration of the top-level functions does to a machine;
* `run_reordered`: programs with the same functions, in any order, run alike.
-/
namespace ScriptLang

variable {α β : Type}

/-! ## Scopes that are alike -/

/-- The scopes differ in nothing but the order of their bindings. -/
structure Scopes.Alike (h h₂ : Scopes) : Prop where
  size : h₂.size = h.size
  parent : ∀ id, (h₂.get id).parent = (h.get id).parent
  value : ∀ id key, (h₂.get id).value? key = (h.get id).value? key

namespace Scopes.Alike

variable {h h₂ h₃ : Scopes}

theorem refl (h : Scopes) : h.Alike h where
  size := rfl
  parent _ := rfl
  value _ _ := rfl

theorem trans (ha : h.Alike h₂) (hb : h₂.Alike h₃) : h.Alike h₃ where
  size := hb.size.trans ha.size
  parent id := (hb.parent id).trans (ha.parent id)
  value id key := (hb.value id key).trans (ha.value id key)

theorem push (ha : h.Alike h₂) (parent : Option ScopeId) :
    (h.push parent).Alike (h₂.push parent) where
  size := by rw [size_push, size_push, ha.size]
  parent id := by
    rw [get_push, get_push, ha.size]
    split
    · rfl
    · exact ha.parent id
  value id key := by
    rw [get_push, get_push, ha.size]
    split
    · rfl
    · exact ha.value id key

theorem modify (ha : h.Alike h₂) (target : ScopeId) {f : Scope → Scope}
    (hp : ∀ s, (f s).parent = s.parent)
    (hv : ∀ s s₂ : Scope, (∀ key, s₂.value? key = s.value? key) →
      ∀ key, (f s₂).value? key = (f s).value? key) :
    (h.modify target f).Alike (h₂.modify target f) where
  size := by rw [size_modify, size_modify, ha.size]
  parent id := by
    rw [get_modify, get_modify, ha.size]
    split
    · rw [hp, hp, ha.parent id]
    · exact ha.parent id
  value id key := by
    rw [get_modify, get_modify, ha.size]
    split
    · exact hv _ _ (ha.value id) key
    · exact ha.value id key

theorem add (ha : h.Alike h₂) (id : ScopeId) (name : Json) (value : Value) :
    (h.modify id (·.add name value)).Alike (h₂.modify id (·.add name value)) :=
  ha.modify id (fun _ => rfl) fun s s₂ heq key => by
    rw [Scope.value?_add, Scope.value?_add, heq]

theorem set (ha : h.Alike h₂) (id : ScopeId) (key : Json.Key) (value : Value) :
    (h.modify id (·.set key value)).Alike (h₂.modify id (·.set key value)) :=
  ha.modify id (fun _ => rfl) fun s s₂ heq k => by
    rw [Scope.value?_set, Scope.value?_set, heq]

theorem owns (ha : h.Alike h₂) (id : ScopeId) (key : Json.Key) :
    (h₂.get id).owns key = (h.get id).owns key := by
  rw [Scope.owns_eq, Scope.owns_eq, ha.value]

theorem chainFrom (ha : h.Alike h₂) (fuel : Nat) (id : ScopeId) :
    h₂.chainFrom fuel id = h.chainFrom fuel id := by
  induction fuel generalizing id with
  | zero => rfl
  | succ fuel ih =>
    unfold Scopes.chainFrom
    rw [ha.parent id]
    split
    · rw [ih]
    · rfl

theorem owner (ha : h.Alike h₂) (id : ScopeId) (key : Json.Key) :
    h₂.owner? id key = h.owner? id key := by
  unfold Scopes.owner? Scopes.chain
  rw [ha.chainFrom]
  exact congrArg (List.find? · _) (funext fun s => ha.owns s key)

theorem lookup (ha : h.Alike h₂) (id : ScopeId) (name : Json) :
    h₂.lookup id name = h.lookup id name := by
  unfold Scopes.lookup
  simp only [ha.owner, ha.value]

theorem freeKey (ha : h.Alike h₂) (id : ScopeId) (name : Json) :
    h₂.freeKey id name = h.freeKey id name := by
  unfold Scopes.freeKey
  simp only [ha.owns]

theorem boundKey (ha : h.Alike h₂) (id : ScopeId) (name : Json) :
    h₂.boundKey id name = h.boundKey id name := by
  unfold Scopes.boundKey
  simp only [ha.owner]

end Scopes.Alike

/-! ## Computations that do not depend on the order of bindings -/

/-- On machines that are not verbose the computation goes the same way from scopes that are alike, and
leaves scopes that are alike. -/
structure Unordered (n : Nat) (Q : Nat → α → Prop) (x : Eval α) : Prop where
  quiet : ∀ m, m.verbose = false → (x m).2.verbose = false
  agrees : ∀ m h₂, m.verbose = false → m.scopes.Alike h₂ →
    ∃ h₂', x { m with scopes := h₂ } = ((x m).1, { (x m).2 with scopes := h₂' }) ∧
      (x m).2.scopes.Alike h₂'
  value : ∀ m n' a, n ≤ n' → (x m).1 = .value a → Q n' a

namespace Unordered

variable {n : Nat} {Q : Nat → α → Prop}

theorem blind {x : Eval α} (h : Eval.Blind x)
    (hquiet : ∀ m, m.verbose = false → (x m).2.verbose = false)
    (hv : ∀ m n' a, n ≤ n' → (x m).1 = .value a → Q n' a) : Unordered n Q x where
  quiet := hquiet
  agrees m h₂ _ ha := ⟨h₂, h m h₂, by rw [h.scopes m]; exact ha⟩
  value := hv

theorem pure {a : α} (ha : ∀ n', n ≤ n' → Q n' a) : Unordered n Q (Pure.pure a) :=
  blind (fun _ _ => rfl) (fun _ hm => hm) fun _ n' _ hle h => by cases h; exact ha n' hle

theorem fail (f : Fault) : Unordered n Q (Eval.fail f) :=
  blind (fun _ _ => rfl) (fun _ hm => hm) fun _ _ _ _ h => by cases h

theorem exhausted : Unordered n Q Eval.exhausted :=
  blind (fun _ _ => rfl) (fun _ hm => hm) fun _ _ _ _ h => by cases h

theorem bind {P : Nat → α → Prop} {Q : Nat → β → Prop} {x : Eval α} {k : α → Eval β}
    (h : Unordered n P x) (hk : ∀ n' a, n ≤ n' → P n' a → Unordered n' Q (k a)) :
    Unordered n Q (x >>= k) where
  quiet m hm := by
    have hquiet := h.quiet m hm
    have hvalue := h.value m n
    rw [Eval.bind_run]
    generalize x m = r at hquiet hvalue ⊢
    obtain ⟨o, m₁⟩ := r
    cases o with
    | value a => exact (hk n a (Nat.le_refl _) (hvalue a (Nat.le_refl _) rfl)).quiet m₁ hquiet
    | fault f => exact hquiet
    | outOfFuel => exact hquiet
  agrees m h₂ hm ha := by
    have hquiet := h.quiet m hm
    have hvalue := h.value m n
    obtain ⟨h₂', heq, ha'⟩ := h.agrees m h₂ hm ha
    rw [Eval.bind_run, Eval.bind_run, heq]
    generalize x m = r at hquiet hvalue ha' ⊢
    obtain ⟨o, m₁⟩ := r
    cases o with
    | value a =>
      exact (hk n a (Nat.le_refl _) (hvalue a (Nat.le_refl _) rfl)).agrees m₁ h₂' hquiet ha'
    | fault f => exact ⟨h₂', rfl, ha'⟩
    | outOfFuel => exact ⟨h₂', rfl, ha'⟩
  value m n' b hle hb := by
    have hvalue := h.value m n'
    rw [Eval.bind_run] at hb
    generalize x m = r at hvalue hb
    obtain ⟨o, m₁⟩ := r
    cases o with
    | value a =>
      exact (hk n' a hle (hvalue a hle rfl)).value m₁ n' b (Nat.le_refl _) hb
    | fault f => cases hb
    | outOfFuel => cases hb

variable {scope : ScopeId}

theorem newScope : Unordered n (fun _ _ => True) (Eval.newScope scope) where
  quiet _ hm := hm
  agrees m h₂ _ ha := by
    refine ⟨h₂.push (some scope), ?_, ha.push _⟩
    unfold Eval.newScope
    dsimp only
    rw [ha.size]
  value _ _ _ _ _ := trivial

theorem lookup (name : Json) : Unordered n (fun _ _ => True) (Eval.lookup scope name) where
  quiet m hm := by
    unfold Eval.lookup
    split <;> exact hm
  agrees m h₂ _ ha := by
    unfold Eval.lookup
    dsimp only
    rw [ha.lookup]
    split <;> exact ⟨h₂, rfl, ha⟩
  value _ _ _ _ _ := trivial

theorem declare (name : Json) (v : Value) :
    Unordered n (fun _ _ => True) (Eval.declare scope name v) where
  quiet m hm := by
    rw [Eval.declare_run]
    split <;> exact hm
  agrees m h₂ _ ha := by
    rw [Eval.declare_run, Eval.declare_run]
    rw [ha.freeKey]
    split
    · exact ⟨_, rfl, ha.add scope name v⟩
    · exact ⟨h₂, rfl, ha⟩
  value _ _ _ _ _ := trivial

theorem assign (name : Json) (v : Value) :
    Unordered n (fun _ _ => True) (Eval.assign scope name v) where
  quiet m hm := by
    rw [Eval.assign_run]
    split <;> exact hm
  agrees m h₂ _ ha := by
    rw [Eval.assign_run, Eval.assign_run]
    rw [ha.boundKey]
    split
    · next owner key _ => exact ⟨_, rfl, ha.set owner key v⟩
    · exact ⟨h₂, rfl, ha⟩
  value _ _ _ _ _ := trivial

theorem ofExcept (r : Except Fault α) : Unordered n (fun _ _ => True) (Eval.ofExcept r) := by
  cases r with
  | ok a => exact .pure fun _ _ => trivial
  | error f => exact .fail f

theorem ofBreakdown (r : Except Breakdown α) :
    Unordered n (fun _ _ => True) (Eval.ofBreakdown r) := by
  cases r with
  | ok a => exact .pure fun _ _ => trivial
  | error b => exact .fail (.internal b)

theorem print (line : String) : Unordered n (fun _ _ => True) (Eval.print line) := by
  refine blind (fun m h₂ => ?_) (fun m hm => ?_) fun _ _ _ _ _ => trivial
  · unfold Eval.print
    dsimp only
    split <;> rfl
  · unfold Eval.print
    split <;> exact hm

/-- Only a verbose machine looks at the bindings in a step. -/
theorem step (rule : Json) (call : Option (Json × List Value)) :
    Unordered n (fun _ _ => True) (Eval.step rule scope call) where
  quiet m hm := by
    unfold Eval.step
    split
    · exact hm
    · rw [if_neg (by simp [hm])]
      exact hm
  agrees m h₂ hm ha := by
    unfold Eval.step
    dsimp only
    split
    · exact ⟨h₂, rfl, ha⟩
    · rw [if_neg (by simp [hm]), if_neg (by simp [hm])]
      exact ⟨h₂, rfl, ha⟩
  value _ _ _ _ _ := trivial

theorem pushFrame (name : Json) : Unordered n (fun _ _ => True) (Eval.pushFrame name scope) :=
  blind (fun _ _ => rfl) (fun _ hm => hm) fun _ _ _ _ _ => trivial

theorem popFrame : Unordered n (fun _ _ => True) Eval.popFrame :=
  blind (fun _ _ => rfl) (fun _ hm => hm) fun _ _ _ _ _ => trivial

theorem forgetFrame (frame : FrameId) :
    Unordered n (fun _ _ => True) (Eval.forgetFrame frame) :=
  blind (fun _ _ => rfl) (fun _ hm => hm) fun _ _ _ _ _ => trivial

theorem main {Q : Nat → Option Closure → Prop} (hv : ∀ n c, Q n c) :
    Unordered n Q (Eval.read fun m => Session.mainOf m.scopes) where
  quiet _ hm := hm
  agrees m h₂ _ ha := by
    refine ⟨h₂, ?_, ha⟩
    unfold Eval.read Session.mainOf
    dsimp only
    rw [ha.value]
  value _ _ _ _ _ := hv _ _

end Unordered

/-- The logic of computations that do not depend on the order of bindings. It knows nothing of values
and asks nothing of the code. -/
def unordered : Logic Code.any where
  Sees _ _ := True
  Owns _ _ := True
  Holds _ _ := True
  Allows _ := True
  Meets := Unordered
  sees_mono _ _ := trivial
  owns_mono _ _ := trivial
  holds_mono _ _ := trivial
  sees _ := trivial
  holds_null := trivial
  holds_literal _ := trivial
  holds_function _ _ := trivial
  of_closure _ := ⟨trivial, fun _ _ => trivial, fun _ _ => trivial⟩
  allows_stray _ := trivial
  allows_unlinked _ := trivial
  allows_notAFunction _ := trivial
  allows_mainMissing := trivial
  pure := .pure
  bind := .bind
  exhausted := .exhausted
  fail _ := .fail _
  newScope _ := .newScope
  lookup _ _ := .lookup _
  declare _ _ _ := .declare _ _
  assign _ _ _ := .assign _ _
  apply _ _ _ := .ofExcept _
  step _ _ _ _ := .step _ _
  callBuiltin _ :=
    .bind (.ofBreakdown _) fun _ _ _ _ => .bind (.print _) fun _ _ _ _ => .pure fun _ _ => trivial
  invoke _ _ _ hbody :=
    .bind (.pushFrame _) fun _ _ hle _ => .bind (hbody _ hle) fun _ _ _ _ =>
      .bind .popFrame fun _ _ _ _ => .bind (.forgetFrame _) fun _ _ _ _ => .pure fun _ _ => trivial
  main := .main fun _ _ _ _ => trivial

/-! ## Declaring the top-level functions -/

def Scopes.bindAll (h : Scopes) (bs : List (Json × Value)) : Scopes :=
  bs.foldl (fun h b => h.modify Machine.globalScope (·.add b.1 b.2)) h

/-- No two of the bindings are of one name. -/
def Distinct (bs : List (Json × Value)) : Prop := bs.Pairwise fun a b => a.1.key? ≠ b.1.key?

namespace Scopes.Alike

variable {h h₂ : Scopes}

theorem bindAll (ha : h.Alike h₂) (bs : List (Json × Value)) :
    (h.bindAll bs).Alike (h₂.bindAll bs) := by
  induction bs generalizing h h₂ with
  | nil => exact ha
  | cons b bs ih => exact ih (ha.add _ b.1 b.2)

/-- Two names that differ can be bound in any order. -/
theorem add_swap (h : Scopes) (id : ScopeId) {a b : Json × Value} (hab : a.1.key? ≠ b.1.key?) :
    ((h.modify id (·.add a.1 a.2)).modify id (·.add b.1 b.2)).Alike
      ((h.modify id (·.add b.1 b.2)).modify id (·.add a.1 a.2)) where
  size := by simp only [size_modify]
  parent s := by
    simp only [get_modify, size_modify]
    split <;> rfl
  value s key := by
    simp only [get_modify, size_modify]
    split
    · rw [Scope.value?_add, Scope.value?_add, Scope.value?_add, Scope.value?_add, Option.or_assoc,
        Option.or_assoc]
      congr 1
      by_cases ha : a.1.key? = some key
      · rw [if_pos ha, if_neg fun hb => hab (ha.trans hb.symm)]
        rfl
      · rw [if_neg ha]
        split <;> rfl
    · rfl

theorem bindAll_perm {bs cs : List (Json × Value)} (hp : bs.Perm cs) (hd : Distinct bs)
    (ha : h.Alike h₂) : (h.bindAll bs).Alike (h₂.bindAll cs) := by
  induction hp generalizing h h₂ with
  | nil => exact ha
  | cons b _ ih => exact ih (List.pairwise_cons.mp hd).2 (ha.add _ b.1 b.2)
  | swap a b bs =>
    have hba := (List.pairwise_cons.mp hd).1 a List.mem_cons_self
    exact bindAll (((ha.add _ b.1 b.2).add _ a.1 a.2).trans (add_swap h₂ _ hba)) bs
  | trans hp _ ih ih' =>
    have hd' := (hp.pairwise_iff fun h => h.symm).mp hd
    exact (ih hd (refl h)).trans (ih' hd' ha)

end Scopes.Alike

/-- What the global scope binds for a top-level function. -/
def Node.binding? : Node → Option (Json × Value)
  | .function x params body => some (x, .closure ⟨x, params, body, Machine.globalScope⟩)
  | _ => none

namespace Session

/-- The machine after a frame has bound some functions in the global scope. -/
def declareAll (frame : FrameId) (bs : List (Json × Value)) (m : Machine) : Machine :=
  { m with
    scopes := m.scopes.bindAll bs
    log := (fun log => log.record frame (.str "FunctionDeclaration") none none)^[bs.length] m.log }

/-- The global scope binds none of the names, each of which is a string. -/
def Unbound (h : Scopes) (bs : List (Json × Value)) : Prop :=
  ∀ b ∈ bs, ∃ s, b.1 = .str s ∧ (h.get Machine.globalScope).value? (.text s) = none

theorem Unbound.add {h : Scopes} {b : Json × Value} {bs : List (Json × Value)}
    (hu : Unbound h bs) (hd : ∀ c ∈ bs, b.1.key? ≠ c.1.key?) :
    Unbound (h.modify Machine.globalScope (·.add b.1 b.2)) bs := by
  intro c hc
  obtain ⟨s, hs, hv⟩ := hu c hc
  refine ⟨s, hs, ?_⟩
  rw [Scopes.get_modify]
  split
  · have hne : b.1.key? ≠ some (.text s) := fun hb => hd c hc (by rw [hb, hs]; rfl)
    rw [Scope.value?_add, hv, if_neg hne]
    rfl
  · exact hv

/-- The declaration of one function. -/
theorem execute_function {fuel : Nat} {m : Machine} {frame : Frame} {below : List Frame}
    (hm : m.verbose = false) (hstack : m.stack = frame :: below) {s : String} {params : List Json}
    {body : List Node}
    (hs : (m.scopes.get Machine.globalScope).value? (.text s) = none) :
    Evaluator.execute (fuel + 1) (.function (.str s) params body) Machine.globalScope m =
      (.value (.normal (.closure ⟨.str s, params, body, Machine.globalScope⟩)),
        declareAll frame.id [(.str s, .closure ⟨.str s, params, body, Machine.globalScope⟩)] m) := by
  have hfree : m.scopes.freeKey Machine.globalScope (.str s) = .ok (.text s) := by
    unfold Scopes.freeKey
    simp [Scopes.keyOf, Json.key?, Scope.owns_eq, hs, bind, Except.bind, pure, Except.pure]
  unfold Evaluator.execute Evaluator.declareFunction
  rw [Node.kindName, Eval.bind_run, Eval.step_quiet hm hstack]
  dsimp only
  rw [Eval.bind_run, Eval.declare_run]
  simp only [hfree]
  rfl

/-- Declaring the functions among some statements takes one step for each and binds them in order. -/
theorem hoist_eq {fuel : Nat} (nodes : List Node) {m : Machine} {frame : Frame}
    {below : List Frame} (hm : m.verbose = false) (hstack : m.stack = frame :: below)
    (hu : Unbound m.scopes (nodes.filterMap Node.binding?))
    (hd : Distinct (nodes.filterMap Node.binding?)) :
    hoist (fuel + 1) nodes m =
      (.value (), declareAll frame.id (nodes.filterMap Node.binding?) m) := by
  induction nodes generalizing m with
  | nil => rfl
  | cons node nodes ih =>
    unfold hoist
    cases node with
    | function x params body =>
      have hcons : (Node.function x params body :: nodes).filterMap Node.binding? =
          (x, .closure ⟨x, params, body, Machine.globalScope⟩) :: nodes.filterMap Node.binding? :=
        rfl
      rw [hcons] at hu hd ⊢
      obtain ⟨hfirst, hrest⟩ := List.pairwise_cons.mp hd
      obtain ⟨⟨s, rfl, hs⟩, hunbound⟩ := List.forall_mem_cons.mp hu
      have hnext := @ih (declareAll frame.id [(.str s, _)] m) hm hstack
        (Unbound.add hunbound hfirst) hrest
      dsimp only
      rw [Eval.bind_run, execute_function hm hstack hs]
      dsimp only
      rw [hnext]
      rfl
    | _ => exact ih hm hstack hu hd

/-- With other statements that declare the same functions, the body of a run goes the same way. -/
theorem runBody_reordered {fuel : Nat} {p q : Program} {m : Machine} {frame : Frame}
    {below : List Frame} (hm : m.verbose = false) (hstack : m.stack = frame :: below)
    (hu : Unbound m.scopes (p.statements.filterMap Node.binding?))
    (hd : Distinct (p.statements.filterMap Node.binding?))
    (hpq : (p.statements.filterMap Node.binding?).Perm (q.statements.filterMap Node.binding?)) :
    ∃ h₂, runBody (fuel + 1) q m =
      ((runBody (fuel + 1) p m).1, { (runBody (fuel + 1) p m).2 with scopes := h₂ }) := by
  have hu' : Unbound m.scopes (q.statements.filterMap Node.binding?) :=
    fun b hb => hu b (hpq.mem_iff.mpr hb)
  have hd' : Distinct (q.statements.filterMap Node.binding?) :=
    (hpq.pairwise_iff fun h => h.symm).mp hd
  have halike := Scopes.Alike.bindAll_perm hpq hd (.refl m.scopes)
  have hstates : declareAll frame.id (q.statements.filterMap Node.binding?) m =
      { declareAll frame.id (p.statements.filterMap Node.binding?) m with
        scopes := m.scopes.bindAll (q.statements.filterMap Node.binding?) } := by
    unfold declareAll
    rw [hpq.length_eq]
  obtain ⟨h₂, heq, -⟩ := (unordered.runMain (n := 0) (fuel + 1) trivial).agrees
    (declareAll frame.id (p.statements.filterMap Node.binding?) m) _ hm halike
  refine ⟨h₂, ?_⟩
  unfold runBody
  rw [Eval.bind_run, Eval.bind_run, hoist_eq _ hm hstack hu hd, hoist_eq _ hm hstack hu' hd']
  dsimp only
  rw [hstates]
  exact heq

end Session

def Node.isFunction : Node → Bool
  | .function .. => true
  | _ => false

def Program.functions (p : Program) : List Node := p.statements.filter Node.isFunction

def Program.functionNames (p : Program) : List Json :=
  (p.statements.filterMap Node.binding?).map (·.1)

theorem Program.bindings_functions (p : Program) :
    p.functions.filterMap Node.binding? = p.statements.filterMap Node.binding? := by
  rw [functions, List.filterMap_filter]
  refine congrArg (List.filterMap · _) (funext fun node => ?_)
  cases node <;> rfl

/-- The functions of a program from a source text are named by strings. -/
theorem Program.WellFormed.functionNames {numbers : Json → Prop} {p : Program}
    (hp : p.WellFormed numbers) : ∀ x ∈ p.functionNames, ∃ s : String, x = .str s := by
  intro x hx
  obtain ⟨b, hb, rfl⟩ := List.mem_map.mp hx
  obtain ⟨node, hnode, hbinding⟩ := List.mem_filterMap.mp hb
  cases hp node hnode with
  | function => cases hbinding; exact ⟨_, rfl⟩
  | _ => cases hbinding

/-- A program from a source text, whose top-level functions have names of their own and not that of the
builtin, runs like every program that has the same top-level functions, in whatever order and among
whatever other statements: the results and faults are the same, and so are the output, the steps and
the frames. -/
theorem run_reordered {source : String} {tokens : TokenStream} {p q : Program}
    (hsource : TokenStream.ofSource source = .ok tokens)
    (hparse : Program.ofStream tokens = .ok p) (hnames : p.functionNames.Nodup)
    (hprint : .str Machine.printName ∉ p.functionNames) (hpq : p.functions.Perm q.functions)
    (sinkLimit : Option Nat) :
    let before := (Machine.fresh false sinkLimit).run p
    let after := (Machine.fresh false sinkLimit).run q
    after.1 = before.1 ∧ after.2.output = before.2.output ∧ after.2.log = before.2.log ∧
      after.2.framesMade = before.2.framesMade ∧ after.2.stack = before.2.stack := by
  have hstrings := (Grammar.wellFormed_ofStream hsource hparse).functionNames
  have hbindings : (p.statements.filterMap Node.binding?).Perm
      (q.statements.filterMap Node.binding?) := by
    rw [← p.bindings_functions, ← q.bindings_functions]
    exact hpq.filterMap _
  have hd : Distinct (p.statements.filterMap Node.binding?) := by
    refine (List.pairwise_map.mp hnames).imp_of_mem fun ha hb hne hkey => hne ?_
    obtain ⟨s, hs⟩ := hstrings _ (List.mem_map_of_mem ha)
    obtain ⟨t, ht⟩ := hstrings _ (List.mem_map_of_mem hb)
    rw [hs, ht] at hkey ⊢
    cases hkey
    rfl
  have hu : Session.Unbound (Session.start (.fresh false sinkLimit)).scopes
      (p.statements.filterMap Node.binding?) := by
    intro b hb
    have hmem := List.mem_map_of_mem (f := (·.1)) hb
    obtain ⟨s, hs⟩ := hstrings _ hmem
    have hne : s ≠ Machine.printName := fun heq => hprint (heq ▸ hs ▸ hmem)
    refine ⟨s, hs, ?_⟩
    show Scope.value? ⟨none, [(.str Machine.printName, _)]⟩ (.text s) = none
    simp [Scope.value?, Scope.isNamed, Json.key?, hne.symm]
  obtain ⟨fuel, hfuel⟩ : ∃ fuel, Evaluator.fuel = fuel + 1 :=
    Nat.exists_eq_succ_of_ne_zero (Nat.ne_of_gt (Nat.pow_pos (by decide)))
  have hbody : ∃ h₂, Session.runBody (fuel + 1) q (Session.start (.fresh false sinkLimit)) = _ :=
    Session.runBody_reordered rfl rfl hu hd hbindings
  obtain ⟨h₂, heq⟩ := hbody
  unfold Machine.run
  rw [hfuel, Session.runWith_eq, Session.runWith_eq, heq]
  generalize Session.runBody (fuel + 1) p _ = r
  obtain ⟨o, m⟩ := r
  cases o <;> exact ⟨rfl, rfl, rfl, rfl, rfl⟩

/-- `main` calls a function that is declared after it. -/
def calling : Program where
  statements :=
    [.function (.str "main") [] [.ret (some (.call (.str "f") []))],
      .function (.str "f") [] [.ret (some (.identifier (.str "f")))]]

/-- With the functions in the other order and a statement between them, `main` returns the same
function after as many steps. -/
theorem calling_reordered :
    let q : Program := ⟨calling.statements.reverse.intersperse (.ret none)⟩
    let f : Value := .closure ⟨.str "f", [], [.ret (some (.identifier (.str "f")))], 0⟩
    ((Machine.fresh false none).run q).1 = .value f ∧
      ((Machine.fresh false none).run q).2.log.next = 6 := by
  intro q f
  have hsource : TokenStream.ofSource "func main(){return f();}func f(){return f;}" =
      .ok ⟨[⟨.funcWord, "func", ⟨1, 1⟩⟩, ⟨.identifier, "main", ⟨1, 6⟩⟩, ⟨.leftParen, "(", ⟨1, 10⟩⟩,
        ⟨.rightParen, ")", ⟨1, 11⟩⟩, ⟨.leftBrace, "\x7b", ⟨1, 12⟩⟩, ⟨.returnWord, "return", ⟨1, 13⟩⟩,
        ⟨.identifier, "f", ⟨1, 20⟩⟩, ⟨.leftParen, "(", ⟨1, 21⟩⟩, ⟨.rightParen, ")", ⟨1, 22⟩⟩,
        ⟨.semicolon, ";", ⟨1, 23⟩⟩, ⟨.rightBrace, "\x7d", ⟨1, 24⟩⟩, ⟨.funcWord, "func", ⟨1, 25⟩⟩,
        ⟨.identifier, "f", ⟨1, 30⟩⟩, ⟨.leftParen, "(", ⟨1, 31⟩⟩, ⟨.rightParen, ")", ⟨1, 32⟩⟩,
        ⟨.leftBrace, "\x7b", ⟨1, 33⟩⟩, ⟨.returnWord, "return", ⟨1, 34⟩⟩,
        ⟨.identifier, "f", ⟨1, 41⟩⟩, ⟨.semicolon, ";", ⟨1, 42⟩⟩, ⟨.rightBrace, "\x7d", ⟨1, 43⟩⟩],
        ⟨.endOfInput, "EOF", ⟨1, 44⟩⟩⟩ := by decide
  have hperm : calling.functions.Perm q.functions := List.Perm.swap _ _ []
  obtain ⟨hresult, -, hlog, -⟩ :=
    run_reordered (p := calling) hsource rfl (by decide) (by decide) hperm none
  have hvalue : (match ((Machine.fresh false none).run calling).1 with
      | .value v => some v
      | _ => none) = some f := by decide +kernel
  have hnext : ((Machine.fresh false none).run calling).2.log.next = 6 := by decide +kernel
  refine ⟨hresult.trans ?_, (congrArg StepLog.next hlog).trans hnext⟩
  generalize ((Machine.fresh false none).run calling).1 = r at hvalue
  cases r with
  | value v => exact congrArg RunResult.value (Option.some.inj hvalue)
  | fault f last => cases hvalue
  | outOfFuel => cases hvalue

end ScriptLang
