import ScriptLang.Proofs.Evaluator.Invariant
import ScriptLang.Proofs.Scope

/-!
# What stays as it is

A computation declares names only in scopes that it owns: the one of a statement that it executes,
and those that it makes. What it does not own keeps its names, in their order, whatever values they
get. No computation changes the verbosity of a machine or its sink, and each is run in a frame, in
which it is again when it ends with a value.

Results:
* `Machine.Framed`: a machine in a frame whose first scopes have the names that they had;
* `framing`, `framing_keeps`: the logic of this invariant, for any code;
* `Session.Happens.standing`: whatever a run does it does in a frame.
-/
namespace ScriptLang

variable {α β : Type}

/-- The machine is in a frame, and may have become of `like` without a declaration in any of the
first `k` scopes. -/
structure Machine.Framed (like : Machine) (k : Nat) (m : Machine) : Prop where
  verbose : m.verbose = like.verbose
  sink : m.sink = like.sink
  exist : k ≤ m.scopes.size
  names : ∀ id < k, (m.scopes.get id).names = (like.scopes.get id).names
  standing : m.stack ≠ []

namespace Machine.Framed

variable {like m m' : Machine} {k : Nat}

theorem refl (hk : k ≤ m.scopes.size) (hstack : m.stack ≠ []) : Framed m k m :=
  ⟨rfl, rfl, hk, fun _ _ => rfl, hstack⟩

/-- A change of the scopes alone that leaves the names of the first ones. -/
theorem rescoped {h : Scopes} (hm : Framed like k m) (hsize : m.scopes.size ≤ h.size)
    (hnames : ∀ id < k, (h.get id).names = (m.scopes.get id).names) :
    Framed like k { m with scopes := h } where
  verbose := hm.verbose
  sink := hm.sink
  exist := Nat.le_trans hm.exist hsize
  names id hid := (hnames id hid).trans (hm.names id hid)
  standing := hm.standing

/-- A change of the stack alone, or of what is no part of the invariant. -/
theorem restacked (hm : Framed like k m) (hverbose : m'.verbose = m.verbose)
    (hsink : m'.sink = m.sink) (hscopes : m'.scopes = m.scopes) (hstack : m'.stack ≠ []) :
    Framed like k m' where
  verbose := hverbose.trans hm.verbose
  sink := hsink.trans hm.sink
  exist := hscopes ▸ hm.exist
  names := hscopes ▸ hm.names
  standing := hstack

end Machine.Framed

/-- Nothing but the output and the log of a machine is touched. -/
def Eval.Unscoped (x : Eval α) : Prop := ∀ m, (x m).2.verbose = m.verbose ∧
  (x m).2.sink = m.sink ∧ (x m).2.scopes = m.scopes ∧ (x m).2.stack = m.stack

namespace Eval.Unscoped

theorem lookup (scope : ScopeId) (x : Json) : Unscoped (Eval.lookup scope x) := by
  intro m
  unfold Eval.lookup
  split <;> exact ⟨rfl, rfl, rfl, rfl⟩

theorem ofExcept (r : Except Fault α) : Unscoped (Eval.ofExcept r) := by
  intro m
  cases r <;> exact ⟨rfl, rfl, rfl, rfl⟩

theorem step (rule : Json) (scope : ScopeId) (call : Option (Json × List Value)) :
    Unscoped (Eval.step rule scope call) := by
  intro m
  unfold Eval.step
  split
  · exact ⟨rfl, rfl, rfl, rfl⟩
  · split
    · split <;> exact ⟨rfl, rfl, rfl, rfl⟩
    · exact ⟨rfl, rfl, rfl, rfl⟩

theorem bind {x : Eval α} {k : α → Eval β} (hx : Unscoped x) (hk : ∀ a, Unscoped (k a)) :
    Unscoped (x >>= k) := by
  intro m
  obtain ⟨hverbose, hsink, hscopes, hstack⟩ := hx m
  rw [Eval.bind_run]
  rcases hrun : x m with ⟨o, m₁⟩
  rw [hrun] at hverbose hsink hscopes hstack
  cases o with
  | value a =>
    obtain ⟨hverbose₁, hsink₁, hscopes₁, hstack₁⟩ := hk a m₁
    exact ⟨hverbose₁.trans hverbose, hsink₁.trans hsink, hscopes₁.trans hscopes,
      hstack₁.trans hstack⟩
  | fault f => exact ⟨hverbose, hsink, hscopes, hstack⟩
  | outOfFuel => exact ⟨hverbose, hsink, hscopes, hstack⟩

theorem print (line : String) : Unscoped (Eval.print line) := by
  intro m
  unfold Eval.print
  split <;> exact ⟨rfl, rfl, rfl, rfl⟩

theorem callBuiltin (args : List Value) : Unscoped (Evaluator.callBuiltin args) := by
  refine bind (fun m => ?_) fun words => bind (print _) fun _ _ => ⟨rfl, rfl, rfl, rfl⟩
  cases Eval.texts args <;> exact ⟨rfl, rfl, rfl, rfl⟩

end Eval.Unscoped

/-- The computation maintains the invariant, and a value leaves it in the frame in which it was. -/
structure Framing (like : Machine) (k n : Nat) (Q : Nat → α → Prop) (x : Eval α) : Prop where
  maintains : Maintains (Machine.Framed like k) n Q x
  stack : ∀ m a m', n ≤ m.scopes.size → Machine.Framed like k m → x m = (.value a, m') →
    m'.stack = m.stack

namespace Framing

variable {like : Machine} {k n : Nat}

theorem unscoped {x : Eval α} (h : Eval.Unscoped x) : Framing like k n (fun _ _ => True) x where
  maintains m _ hm := by
    obtain ⟨hverbose, hsink, hscopes, hstack⟩ := h m
    exact ⟨Nat.le_of_eq (congrArg Scopes.size hscopes.symm),
      hm.restacked hverbose hsink hscopes (hstack ▸ hm.standing), fun _ _ => trivial⟩
  stack m a m' _ _ hrun := by
    have hstack := (h m).2.2.2
    rwa [hrun] at hstack

theorem pure {Q : Nat → α → Prop} {a : α} (ha : ∀ n', n ≤ n' → Q n' a) :
    Framing like k n Q (Pure.pure a) where
  maintains := .pure ha
  stack _ _ _ _ _ hrun := by
    cases hrun
    rfl

theorem exhausted {Q : Nat → α → Prop} : Framing like k n Q Eval.exhausted where
  maintains := .exhausted
  stack _ _ _ _ _ hrun := by cases hrun

theorem fail {Q : Nat → α → Prop} (f : Fault) : Framing like k n Q (Eval.fail f) where
  maintains := .fail f
  stack _ _ _ _ _ hrun := by cases hrun

theorem bind {P : Nat → α → Prop} {Q : Nat → β → Prop} {x : Eval α} {g : α → Eval β}
    (hx : Framing like k n P x) (hg : ∀ n' a, n ≤ n' → P n' a → Framing like k n' Q (g a)) :
    Framing like k n Q (x >>= g) where
  maintains := .bind hx.maintains fun n' a hle ha => (hg n' a hle ha).maintains
  stack m b m' hn hm hrun := by
    obtain ⟨a, m₁, hfirst, hrest⟩ := Eval.bind_value hrun
    have hm₁ := hx.maintains m hn hm
    rw [hfirst] at hm₁
    have hg₁ := hg _ a (Nat.le_trans hn hm₁.grows) (hm₁.value a rfl)
    rw [hg₁.stack m₁ b m' (Nat.le_refl _) hm₁.invariant hrest, hx.stack m a m₁ hn hm hfirst]

/-- What is made comes after the first scopes. -/
theorem newScope (parent : ScopeId) :
    Framing like k n (fun _ id => k ≤ id) (Eval.newScope parent) where
  maintains m _ hm := by
    have hgrows : m.scopes.size ≤ (m.scopes.push (some parent)).size := by simp
    refine ⟨hgrows, hm.rescoped hgrows fun id hid => ?_, ?_⟩
    · rw [Scopes.get_push, if_neg (Nat.ne_of_lt (Nat.lt_of_lt_of_le hid hm.exist))]
    · rintro _ ⟨⟩
      exact hm.exist
  stack _ _ _ _ _ hrun := by
    cases hrun
    rfl

theorem declare {scope : ScopeId} (hs : k ≤ scope) (x : Json) (v : Value) :
    Framing like k n (fun _ _ => True) (Eval.declare scope x v) where
  maintains m _ hm := by
    rw [Eval.declare_run]
    split
    · refine ⟨by simp, hm.rescoped (by simp) fun id hid => ?_, fun _ _ => trivial⟩
      have hne : id ≠ scope := Nat.ne_of_lt (Nat.lt_of_lt_of_le hid hs)
      rw [Scopes.get_modify, if_neg fun h => hne h.1]
    · exact ⟨Nat.le_refl _, hm, fun _ _ => trivial⟩
  stack m a m' _ _ hrun := by
    have hstack := (Eval.Quiet.declare scope x v m).1
    rwa [hrun] at hstack

theorem assign (scope : ScopeId) (x : Json) (v : Value) :
    Framing like k n (fun _ _ => True) (Eval.assign scope x v) where
  maintains m _ hm := by
    rw [Eval.assign_run]
    split
    · refine ⟨by simp, hm.rescoped (by simp) fun id _ => ?_, fun _ _ => trivial⟩
      exact Scopes.names_get_set ..
    · exact ⟨Nat.le_refl _, hm, fun _ _ => trivial⟩
  stack m a m' _ _ hrun := by
    have hstack := (Eval.Quiet.assign scope x v m).1
    rwa [hrun] at hstack

/-- A call leaves its frame as soon as its body has ended. -/
theorem invoke (x : Json) (scope : ScopeId) {P : Nat → Completion → Prop} {body : Eval Completion}
    (hbody : Framing like k n P body) :
    Framing like k n (fun _ _ => True) (do
      let frame ← Eval.pushFrame x scope
      let completion ← body
      Eval.popFrame
      Eval.forgetFrame frame
      return completion.result) := by
  have entered {m : Machine} (hm : Machine.Framed like k m) :
      Machine.Framed like k (Eval.pushFrame x scope m).2 :=
    hm.restacked rfl rfl rfl (List.cons_ne_nil _ _)
  refine ⟨fun m hn hm => ?_, fun m v m' hn hm hrun => ?_⟩
  · have hkept := hbody.maintains (Eval.pushFrame x scope m).2 hn (entered hm)
    have hstack := hbody.stack (Eval.pushFrame x scope m).2
    rw [Eval.bind_run]
    show Maintained _ _ m ((body >>= _) (Eval.pushFrame x scope m).2).1
      ((body >>= _) (Eval.pushFrame x scope m).2).2
    rw [Eval.bind_run]
    rcases hrun : body (Eval.pushFrame x scope m).2 with ⟨o, m₁⟩
    rw [hrun] at hkept hstack
    cases o with
    | value c =>
      have hpopped : m₁.stack.tail = m.stack :=
        congrArg List.tail (hstack c m₁ hn (entered hm) rfl)
      have hstanding : m₁.stack.tail ≠ [] := hpopped ▸ hm.standing
      exact ⟨hkept.grows, hkept.invariant.restacked rfl rfl rfl hstanding, fun _ _ => trivial⟩
    | fault f => exact ⟨hkept.grows, hkept.invariant, fun _ _ => trivial⟩
    | outOfFuel => exact ⟨hkept.grows, hkept.invariant, fun _ _ => trivial⟩
  · obtain ⟨frame, m₁, hpush, hrest⟩ := Eval.bind_value hrun
    cases hpush
    obtain ⟨c, m₂, hdone, hleft⟩ := Eval.bind_value hrest
    have hstack := hbody.stack (Eval.pushFrame x scope m).2 c m₂ hn (entered hm) hdone
    cases hleft
    exact congrArg List.tail hstack

end Framing

/-- The logic of the invariant. It asks nothing of the code and knows nothing of values. -/
def framing (like : Machine) (k : Nat) : Logic Code.any where
  Sees _ _ := True
  Owns _ scope := k ≤ scope
  Holds _ _ := True
  Allows _ := True
  Meets n Q x := Framing like k n Q x
  sees_mono _ _ := trivial
  owns_mono _ hs := hs
  holds_mono _ _ := trivial
  sees _ := trivial
  holds_null := trivial
  holds_literal _ := trivial
  holds_function _ _ := trivial
  of_closure _ := Code.any_closure _
  allows_stray _ := trivial
  allows_unlinked _ := trivial
  allows_notAFunction _ := trivial
  allows_mainMissing := trivial
  pure h := .pure h
  bind hx hg := .bind hx hg
  exhausted := .exhausted
  fail _ := .fail _
  newScope _ := .newScope _
  lookup _ _ := .unscoped (.lookup _ _)
  declare hs _ _ := .declare hs _ _
  assign _ _ _ := .assign _ _ _
  apply _ _ _ := .unscoped (.ofExcept _)
  step _ _ _ _ := .unscoped (.step _ _ _)
  callBuiltin _ := .unscoped (.callBuiltin _)
  invoke x _ _ hbody := .invoke x _ (hbody _ (Nat.le_refl _))
  main :=
    { maintains := fun _ _ hm => ⟨Nat.le_refl _, hm, fun _ _ _ _ => trivial⟩
      stack := fun _ _ _ _ _ hrun => by cases hrun; rfl }

theorem framing_keeps {like : Machine} {k : Nat} :
    (framing like k).Keeps (Machine.Framed like k) where
  meets h := Framing.maintains h
  pushFrame _ _ hm := hm.restacked rfl rfl rfl (List.cons_ne_nil _ _)

/-- A run enters a frame, whatever the machine was. -/
theorem framing_entered (p : Program) (m : Machine) :
    Session.Entered (framing (Session.start m) 0) (Machine.Framed (Session.start m) 0) p m :=
  ⟨.refl (Nat.zero_le _) (List.cons_ne_nil _ _), Nat.zero_le Machine.globalScope,
    fun _ _ => trivial⟩

/-- Whatever a run does it does in a frame. -/
theorem Session.Happens.standing {fuel : Nat} {p : Program} {m : Machine} {a : Activity}
    (ha : Happens fuel p m a) : a.before.stack ≠ [] :=
  (ha.fits_entered framing_keeps (framing_entered p m)).invariant.standing

end ScriptLang
