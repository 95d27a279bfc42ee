import ScriptLang.Proofs.Evaluator.Faults
import ScriptLang.Proofs.Evaluator.Framing
import ScriptLang.Proofs.Evaluator.Isolation
import ScriptLang.Proofs.Reached
import ScriptLang.Proofs.Scope.Grounded

/-!
# The scopes of a session are one tree

Blocks, rounds of loops and calls make scopes, a call one inside the scope that its function was
declared in, which may be left for long. But a function is a value only after its scope was made, and
scopes are never taken away, so whatever a session runs, the new scope is inside one that exists. So
the scopes stay a tree around the global one in every machine that a session comes by, after runs that
failed as well: searching for a name ends, and it finds `print` from everywhere.

Results:
* `grounding`, `grounding_pervades`: the logic of scopes that are one tree;
* `Session.reached_grounded`: what holds of the scopes, the values and the faults of a session.
-/
namespace ScriptLang

open Machine (globalScope printName)

/-! ## The invariant -/

/-- The scopes are one tree, and the lines go into the sink. -/
structure Machine.IsGrounded (sink : Sink) (m : Machine) : Prop where
  into : m.sink = sink
  scopes : m.scopes.Grounded

namespace Machine.IsGrounded

variable {α : Type} {sink : Sink} {n : Nat} {scope : ScopeId} {v : Value}

/-- A computation that touches neither the scopes nor the sink. -/
theorem aside {x : Eval α} (hx : ∀ m, (x m).2.sink = m.sink ∧ (x m).2.scopes = m.scopes) :
    Maintains (Machine.IsGrounded sink) n (fun _ _ => True) x := by
  intro m _ hm
  obtain ⟨hsink, hscopes⟩ := hx m
  exact ⟨Nat.le_of_eq (congrArg Scopes.size hscopes.symm),
    ⟨hsink.trans hm.into, hscopes ▸ hm.scopes⟩, fun _ _ => trivial⟩

theorem unscoped {x : Eval α} (hx : x.Unscoped) :
    Maintains (Machine.IsGrounded sink) n (fun _ _ => True) x :=
  aside fun m => ⟨(hx m).2.1, (hx m).2.2.1⟩

theorem newScope (hs : scope < n) :
    Maintains (Machine.IsGrounded sink) n (fun n id => id < n) (Eval.newScope scope) := by
  intro m hn hm
  refine ⟨by simp [Eval.newScope], ⟨hm.into, hm.scopes.push (Nat.lt_of_lt_of_le hs hn)⟩, ?_⟩
  rintro _ ⟨⟩
  simp [Eval.newScope]

theorem lookup (scope : ScopeId) (x : Json) :
    Maintains (Machine.IsGrounded sink) n (fun n v => v.IsGrounded n) (Eval.lookup scope x) := by
  intro m _ hm
  unfold Eval.lookup
  split
  · next v hv =>
    refine ⟨Nat.le_refl _, hm, ?_⟩
    rintro _ ⟨⟩
    exact hm.scopes.lookup hv
  · exact ⟨Nat.le_refl _, hm, by rintro _ ⟨⟩⟩

theorem declare (scope : ScopeId) (x : Json) (hv : v.IsGrounded n) :
    Maintains (Machine.IsGrounded sink) n (fun _ _ => True) (Eval.declare scope x v) := by
  intro m hn hm
  rw [Eval.declare_run]
  split
  · exact ⟨by simp, ⟨hm.into, hm.scopes.add (hv.mono hn)⟩, fun _ _ => trivial⟩
  · exact ⟨Nat.le_refl _, hm, fun _ _ => trivial⟩

theorem assign (scope : ScopeId) (x : Json) (hv : v.IsGrounded n) :
    Maintains (Machine.IsGrounded sink) n (fun _ _ => True) (Eval.assign scope x v) := by
  intro m hn hm
  rw [Eval.assign_run]
  split
  · exact ⟨by simp, ⟨hm.into, hm.scopes.set (hv.mono hn)⟩, fun _ _ => trivial⟩
  · exact ⟨Nat.le_refl _, hm, fun _ _ => trivial⟩

theorem callBuiltin (args : List Value) :
    Maintains (Machine.IsGrounded sink) n (fun n v => v.IsGrounded n)
      (Evaluator.callBuiltin args) := by
  refine .bind (aside fun m => ?_) fun _ words _ _ =>
    .bind (unscoped (.print _)) fun _ _ _ _ => .pure fun _ _ => .data .null
  cases Eval.texts args <;> exact ⟨rfl, rfl⟩

theorem main : Maintains (Machine.IsGrounded sink) n
    (fun n c => ∀ main, c = some main → (Value.closure main).IsGrounded n)
    (Eval.read fun m => Session.mainOf m.scopes) := by
  refine fun m _ hm => ⟨Nat.le_refl _, hm, ?_⟩
  rintro _ ⟨⟩ main hmain
  dsimp only [Session.mainOf] at hmain
  split at hmain
  · next c hc =>
    cases hmain
    obtain ⟨entry, hfind, hentry⟩ := Option.map_eq_some_iff.mp hc
    exact hentry ▸ hm.scopes.bound globalScope entry (List.mem_of_find?_eq_some hfind)
  · cases hmain

end Machine.IsGrounded

/-- The logic of scopes that are one tree. Any scope that exists may be seen and declared in, and a
function is known by its scope. -/
def grounding (sink : Sink) : Logic Code.any where
  Sees n scope := scope < n
  Owns n scope := scope < n
  Holds n v := v.IsGrounded n
  Allows _ := True
  Meets n Q x := Maintains (Machine.IsGrounded sink) n Q x
  sees_mono hle hs := Nat.lt_of_lt_of_le hs hle
  owns_mono hle hs := Nat.lt_of_lt_of_le hs hle
  holds_mono hle hv := hv.mono hle
  sees hs := hs
  holds_null := .data .null
  holds_literal _ := .data _
  holds_function hs _ := .closure hs
  of_closure hc := by
    cases hc with
    | closure hscope => exact ⟨hscope, (Code.any_closure _).2⟩
  allows_stray _ := trivial
  allows_unlinked _ := trivial
  allows_notAFunction _ := trivial
  allows_mainMissing := trivial
  pure hq := .pure hq
  bind hx hk := .bind hx hk
  exhausted := .exhausted
  fail _ := .fail _
  newScope hs := Machine.IsGrounded.newScope hs
  lookup _ _ := Machine.IsGrounded.lookup _ _
  declare _ _ hv := Machine.IsGrounded.declare _ _ hv
  assign _ _ hv := Machine.IsGrounded.assign _ _ hv
  apply _ _ _ := .ofExcept fun v hv _ _ => by
    obtain ⟨j, rfl⟩ := Operator.apply_data _ _ _ v hv
    exact .data j
  step _ _ _ _ := Machine.IsGrounded.unscoped (.step _ _ _)
  callBuiltin _ := Machine.IsGrounded.callBuiltin _
  invoke _ _ _ hbody :=
    .invoke (fun _ hm => ⟨hm.into, hm.scopes⟩) (fun _ hm => ⟨hm.into, hm.scopes⟩)
      (fun _ _ hm => ⟨hm.into, hm.scopes⟩) (hbody _ (Nat.le_refl _)) fun _ c hc => by
        cases c with
        | normal v => exact .data .null
        | returned v => exact hc
  main := Machine.IsGrounded.main

theorem grounding_pervades (sink : Sink) :
    (grounding sink).Pervades (Machine.IsGrounded sink) where
  meets h := h
  pushFrame _ _ hm := ⟨hm.into, hm.scopes⟩
  popFrame hm := ⟨hm.into, hm.scopes⟩
  owns hm := hm.scopes.exists_global

/-! ## Faults for a name that is not bound -/

namespace Eval

variable {scope : ScopeId} {m : Machine}

theorem lookup_builtin (hm : m.scopes.Grounded) (hs : scope < m.scopes.size) :
    ∃ v, lookup scope (.str printName) m = (.value v, m) := by
  obtain ⟨v, hv⟩ := hm.lookup_builtin hs
  exact ⟨v, by rw [lookup, hv]⟩

theorem assign_builtin (hm : m.scopes.Grounded) (hs : scope < m.scopes.size) (v : Value) :
    ∃ m', assign scope (.str printName) v m = (.value (), m') := by
  obtain ⟨owner, howner⟩ := hm.boundKey_builtin hs
  exact ⟨_, by rw [assign_run, howner]⟩

end Eval

/-- The sink never stops a run as if `print` were not bound. -/
def Sink.Honest (sink : Sink) : Prop :=
  ∀ taken line f, sink.refusal? taken line = some f → f.unbound? ≠ some (.str printName)

/-- No activity finds that `print` is not bound. -/
theorem Breaks.unbound_ne {sink : Sink} {a : Activity} {f : Fault} {m' : Machine}
    (h : Breaks a f m') (hsink : sink.Honest)
    (ha : a.Fits (grounding sink) (Machine.IsGrounded sink)) :
    f.unbound? ≠ some (.str printName) := by
  have hL := (grounding_pervades sink).toKeeps
  obtain hordinary | hmisses | hrefused := h.sorted
  · rw [hordinary.bound]
    rintro ⟨⟩
  · cases hmisses with
    | read hlookup =>
      rintro ⟨⟩
      obtain ⟨v, hv⟩ := Eval.lookup_builtin ha.invariant.scopes ha.task.1
      cases hv.symm.trans hlookup
    | assigned hright hassign =>
      rintro ⟨⟩
      have hv := hL.run (((grounding sink).evaluates _).evaluate ha.task.1 trivial) ha.invariant
        hright
      obtain ⟨m₂, hassigned⟩ := Eval.assign_builtin hv.invariant.scopes
        (Nat.lt_of_lt_of_le ha.task.1 hv.grows) _
      cases hassigned.symm.trans hassign
  · cases hrefused with
    | intro hcallee hargs hstep _ hline =>
      rw [(ha.called hL hcallee hargs hstep).invariant.into] at hline
      exact hsink _ _ _ hline

/-! ## Sessions -/

namespace Session

open Scopes

/-- The scopes are a tree around the global scope, in which all chains and all searches end, and
`print` can be read and assigned to from everywhere. -/
structure Rooted (m : Machine) : Prop where
  grounded : m.scopes.Grounded
  wellFounded : WellFounded fun parent id => m.scopes.IsParent id parent
  chain : ∀ id < m.scopes.size, m.scopes.OnChain id globalScope
  search : ∀ id < m.scopes.size, ∀ key result,
    m.scopes.SearchEnds key id result ↔ result = m.scopes.owner? id key
  read : ∀ id < m.scopes.size, ∃ v, Eval.lookup id (.str printName) m = (.value v, m)
  assigned : ∀ id < m.scopes.size, ∀ v, ∃ m', Eval.assign id (.str printName) v m = (.value (), m')

theorem Rooted.of_grounded {m : Machine} (hm : m.scopes.Grounded) : Rooted m where
  grounded := hm
  wellFounded := Subrelation.wf (hm.descending _ _) Nat.lt_wfRel.wf
  chain _ hid := hm.onChain hid
  search _ _ _ _ := hm.descending.searchEnds_iff
  read _ hid := Eval.lookup_builtin hm hid
  assigned _ hid := Eval.assign_builtin hm hid

end Session

/-- The scope that a task is run in, or inside of which a call makes its own. -/
def Task.scope : Task → ScopeId
  | evaluate _ scope | evaluateAll _ scope | block _ scope | executeAll _ scope _ => scope
  | execute _ scope | loop _ _ scope _ => scope
  | call function _ => function.scope

theorem Task.Fits.scope_lt {sink : Sink} {n : Nat} {task : Task}
    (h : task.Fits (grounding sink) n) : task.scope < n := by
  cases task with
  | call function args => exact ((grounding sink).of_closure h.1).1
  | _ => exact h.1

namespace Session

/-- Whatever runs a session has, of whatever programs and into whatever sink, and whether they fail or
not: in every machine that it comes by, the scopes are one tree around the global scope, so that
searching for a name ends, and finds `print`; every activity is in a scope that exists; and every
function that is bound or in hand was declared in a scope that exists. No run stops because `print` is
not bound, unless the sink says so. -/
theorem reached_grounded (sink : Sink) (verbose : Bool) :
    (∀ m, Reached (.freshInto sink verbose) m → Rooted m) ∧
    (∀ programs p a, Happens Evaluator.fuel p (runs (.freshInto sink verbose) programs) a →
      a.task.scope < a.before.scopes.size ∧
      ∀ m v, a.InHand m v →
        Reached (.freshInto sink verbose) m ∧ v.IsGrounded m.scopes.size) ∧
    (sink.Honest → ∀ programs p f step,
      ((runs (.freshInto sink verbose) programs).run p).1 = .fault f step →
        f.unbound? ≠ some (.str printName)) := by
  have hL := grounding_pervades sink
  have hfirst : (Machine.freshInto sink verbose).IsGrounded sink := ⟨rfl, .fresh sink verbose⟩
  refine ⟨fun m hm => .of_grounded (hm.invariant hL hfirst).scopes, fun programs p a ha => ?_,
    fun hsink programs p f step hrun => ?_⟩
  · have hfits := ha.fits_any hL hfirst
    exact ⟨hfits.task.scope_lt, fun m v hv => ⟨.inside ha hv.comesBy, hv.holds hL hfits⟩⟩
  · cases (stops_of_runFor hrun).1 with
    | inside ha hbreak => exact hbreak.unbound_ne hsink (ha.fits_any hL hfirst)
    | mainMissing _ _ => rintro ⟨⟩
    | calling _ hstep =>
      rw [(Eval.step_ordinary hstep).bound]
      rintro ⟨⟩

/-- After a run that binds a function over a scope of its own to `slot`, and one that fails. -/
theorem reached_grounded_counting :
    let first := Machine.freshInto .unlimited false
    let m := runs first [counting, astray]
    let slot : Closure := ⟨.str "slot", [], [], globalScope⟩
    let hoisting : Activity :=
      ⟨Evaluator.fuel, .execute (.function (.str "slot") [] []) globalScope, start first⟩
    Reached first m ∧ (m.scopes.get globalScope).value? (.text "slot") = some (.closure counter) ∧
      counter.scope < m.scopes.size ∧ m.scopes.OnChain counter.scope globalScope ∧
      (∃ v, Eval.lookup counter.scope (.str printName) m = (.value v, m)) ∧
      Happens Evaluator.fuel counting first hoisting ∧
      (∃ m', hoisting.InHand m' (.closure slot) ∧
        (Value.closure slot).IsGrounded m'.scopes.size) ∧
      Sink.unlimited.Honest ∧
      ∃ f step, (first.run astray).1 = .fault f step ∧ f = .undeclared (.str "x") ∧
        f.unbound? ≠ some (.str printName) := by
  intro first m slot hoisting
  obtain ⟨hrooted, hactivities, hfaults⟩ := reached_grounded .unlimited false
  have hm : Reached first m := .ran _
  have hscope : counter.scope < m.scopes.size := by decide +kernel
  have hslot : (m.scopes.get globalScope).value? (.text "slot") = some (.closure counter) := by
    decide +kernel
  have hhoisting : Happens Evaluator.fuel counting first hoisting :=
    .hoisted (show counting.statements = [] ++ .function (.str "slot") [] [] :: _ from rfl) rfl
  obtain ⟨m', hgives⟩ : ∃ m', hoisting.run = (.value [.closure slot], m') := by
    have hfuel : Evaluator.fuel = (Evaluator.fuel - 1) + 1 := rfl
    dsimp only [Activity.run, hoisting]
    rw [hfuel, Task.run, Evaluator.execute]
    exact ⟨_, rfl⟩
  have hv : hoisting.InHand m' (.closure slot) := .returned hgives (List.mem_singleton_self _)
  have hsink : Sink.unlimited.Honest := by rintro _ _ _ ⟨⟩
  have hfails : (first.run astray).1 = .fault (.undeclared (.str "x")) (some 5) :=
    RunResult.fault?_eq_some.mp (by decide +kernel)
  exact ⟨hm, hslot, hscope, (hrooted m hm).chain _ hscope, (hrooted m hm).read _ hscope, hhoisting,
    ⟨m', hv, ((hactivities [] counting hoisting hhoisting).2 m' _ hv).2⟩, hsink,
    _, _, hfails, rfl, hfaults hsink [] astray _ _ hfails⟩

end Session

end ScriptLang
