import ScriptLang.Proofs.Evaluator.Trace
import ScriptLang.Proofs.Scope
import ScriptLang.Proofs.StepLog

/-!
# Frames left on the call stack

A computation that ends with a value leaves the call stack as it found it. One that fails leaves the
frames of the calls it was in, and each of them has gone on since the call below it.

The invariant of a computation is `Within`, about the frame it is run in. A call logs a step of its
caller before it makes a frame, and what the log has of the caller does not change until it returns.
Every statement starts with a step, so a frame that is left behind has one: the first step of a block
cannot fail, because the scope of the block is still empty.

Results:
* `Within`: what a computation does to the call stack and to the log;
* `keeping`: the evaluator keeps to its frame, with every fuel.
-/
namespace ScriptLang

open Evaluator (callRule)

variable {α β : Type}

/-! ## What a computation does to the call stack -/

/-- How a computation ends, but for its value. -/
inductive OutcomeKind where
  | value
  | fault
  | outOfFuel

def Outcome.kind : Outcome α → OutcomeKind
  | .value _ => .value
  | .fault _ => .fault
  | .outOfFuel => .outOfFuel

/-- The frame `f` runs on top of the frames `rest`. -/
structure InFrame (m : Machine) (f : Frame) (rest : List Frame) : Prop where
  stack : m.stack = f :: rest
  made : f.id < m.framesMade
  sound : m.log.Sound

/-- What happens in the frame `f` between two states: it leaves the frames `above` on this one, the
innermost first, and what the log has of frames made before does not change. -/
structure Within (f : Frame) (rest : List Frame) (m : Machine) (above : List Frame) (x : OutcomeKind)
    (m' : Machine) : Prop where
  stack : m'.stack = above ++ f :: rest
  value : x = .value → above = []
  trail : x = .fault → (above ++ [f]).Pairwise m'.log.Called
  frames : m.framesMade ≤ m'.framesMade
  sound : m'.log.Sound
  others : ∀ id < m.framesMade, id ≠ f.id → m'.log.latestOf id = m.log.latestOf id
  own : ∀ s, m.log.latestOf f.id = some s → m'.log.LoggedSince s.index f.id

/-- Whatever frame the computation is run in, it keeps to it. -/
def Keeps (x : Eval α) : Prop :=
  ∀ m f rest, InFrame m f rest → ∃ above, Within f rest m above (x m).1.kind (x m).2

namespace Within

variable {f : Frame} {rest above : List Frame} {m m₁ m₂ : Machine} {x : OutcomeKind}

/-- A change of scopes and output only. -/
theorem still (hm : InFrame m f rest) (h₁ : m₁.stack = m.stack)
    (h₂ : m₁.framesMade = m.framesMade) (h₃ : m₁.log = m.log) : Within f rest m [] x m₁ where
  stack := h₁.trans hm.stack
  value _ := rfl
  trail _ := List.pairwise_singleton _ _
  frames := Nat.le_of_eq h₂.symm
  sound := h₃ ▸ hm.sound
  others id _ _ := by rw [h₃]
  own s h := ⟨s, h₃ ▸ h, Nat.le_refl _⟩

/-- The frame still runs after a value. -/
theorem inFrame (h : Within f rest m [] .value m₁) (hm : InFrame m f rest) :
    InFrame m₁ f rest where
  stack := h.stack
  made := Nat.lt_of_lt_of_le hm.made h.frames
  sound := h.sound

/-- One computation after another. -/
theorem append (h₁ : Within f rest m [] .value m₁) (h₂ : Within f rest m₁ above x m₂) :
    Within f rest m above x m₂ where
  stack := h₂.stack
  value := h₂.value
  trail := h₂.trail
  frames := Nat.le_trans h₁.frames h₂.frames
  sound := h₂.sound
  others id hid hne := by
    rw [h₂.others id (Nat.lt_of_lt_of_le hid h₁.frames) hne, h₁.others id hid hne]
  own s h := by
    obtain ⟨t, ht, hst⟩ := h₁.own s h
    obtain ⟨u, hu, htu⟩ := h₂.own t ht
    exact ⟨u, hu, Nat.le_trans hst htu⟩

theorem loggedSince {n : Nat} (h : Within f rest m above x m₁)
    (hn : m.log.LoggedSince n f.id) : m₁.log.LoggedSince n f.id := by
  obtain ⟨s, hs, hns⟩ := hn
  obtain ⟨t, ht, hst⟩ := h.own s hs
  exact ⟨t, ht, Nat.le_trans hns hst⟩

/-- The state right after the frame `f` has logged a step. -/
theorem logged (hm : InFrame m f rest) (rule : Json) (detail : Option CallDetail)
    (snapshot : Option Snapshot) :
    Within f rest m [] x { m with log := m.log.record f.id rule detail snapshot } where
  stack := hm.stack
  value _ := rfl
  trail _ := List.pairwise_singleton _ _
  frames := Nat.le_refl _
  sound := hm.sound.record _ _ _ _
  others id _ hne := by
    show (m.log.record _ _ _ _).latestOf id = _
    rw [StepLog.latestOf_record, if_neg hne]
  own s h := by
    refine ⟨⟨m.log.next, f.id, rule, detail, snapshot⟩, ?_, Nat.le_of_lt (hm.sound.latestOf h)⟩
    show (m.log.record _ _ _ _).latestOf f.id = _
    rw [StepLog.latestOf_record, if_pos rfl]

section Call

variable {name : Json} {scope : ScopeId}

def callee (name : Json) (scope : ScopeId) (m : Machine) : Frame := ⟨name, scope, m.framesMade⟩

def enter (name : Json) (scope : ScopeId) (m : Machine) : Machine :=
  { m with stack := callee name scope m :: m.stack, framesMade := m.framesMade + 1 }

theorem inFrame_enter (hm : InFrame m f rest) (name : Json) (scope : ScopeId) :
    InFrame (enter name scope m) (callee name scope m) (f :: rest) where
  stack := congrArg (_ :: ·) hm.stack
  made := Nat.lt_succ_self _
  sound := hm.sound

/-- What the log has of a frame does not change while it waits for a call. -/
theorem waiting (hm : InFrame m f rest)
    (h : Within (callee name scope m) (f :: rest) (enter name scope m) above x m₁) :
    m₁.log.latestOf f.id = m.log.latestOf f.id :=
  h.others f.id (Nat.lt_succ_of_lt hm.made) (Nat.ne_of_lt hm.made)

/-- A call that ends with a value. -/
theorem ended (hm : InFrame m f rest)
    (h : Within (callee name scope m) (f :: rest) (enter name scope m) above .value m₁) :
    Within f rest m [] .value
      { m₁ with stack := m₁.stack.tail, log := m₁.log.forget m.framesMade } where
  stack := by
    show m₁.stack.tail = _
    rw [h.stack, h.value rfl]
    rfl
  value _ := rfl
  trail hx := by cases hx
  frames := Nat.le_of_succ_le h.frames
  sound := h.sound.forget _
  others id hid hne := by
    show (m₁.log.forget _).latestOf id = _
    rw [StepLog.latestOf_forget _ (Nat.ne_of_lt hid)]
    exact h.others id (Nat.lt_succ_of_lt hid) (Nat.ne_of_lt hid)
  own s hs := by
    refine ⟨s, ?_, Nat.le_refl _⟩
    show (m₁.log.forget _).latestOf f.id = _
    rw [StepLog.latestOf_forget _ (Nat.ne_of_lt hm.made), h.waiting hm, hs]

/-- A call that comes to no end leaves its frame behind. -/
theorem broken (hm : InFrame m f rest)
    (hcall : ∃ s, m.log.latestOf f.id = some s ∧ s.rule = callRule)
    (h : Within (callee name scope m) (f :: rest) (enter name scope m) above x m₁)
    (hx : x ≠ .value) (hg : x = .fault → m₁.log.LoggedSince m.log.next m.framesMade) :
    Within f rest m (above ++ [callee name scope m]) x m₁ where
  stack := by rw [h.stack, List.append_assoc]; rfl
  value hr := absurd hr hx
  trail hfail := by
    obtain ⟨s, hs, hrule⟩ := hcall
    obtain ⟨t, ht, hnt⟩ := hg hfail
    have hst : s.index < t.index := Nat.lt_of_lt_of_le (hm.sound.latestOf hs) hnt
    have hs' : m₁.log.latestOf f.id = some s := (h.waiting hm).trans hs
    have habove := h.trail hfail
    refine List.pairwise_append.mpr ⟨habove, List.pairwise_singleton _ _, fun g hg k hk => ?_⟩
    rw [List.mem_singleton.mp hk]
    rcases List.mem_append.mp hg with hg | hg
    · obtain ⟨later, earlier, hlater, hearlier, -, hlt⟩ :=
        (List.pairwise_append.mp habove).2.2 g hg _ (List.mem_singleton_self _)
      cases ht.symm.trans hearlier
      exact ⟨later, s, hlater, hs', hrule, Nat.lt_trans hst hlt⟩
    · rw [List.mem_singleton.mp hg]
      exact ⟨t, s, ht, hs', hrule, hst⟩
  frames := Nat.le_of_succ_le h.frames
  sound := h.sound
  others id hid _ := h.others id (Nat.lt_succ_of_lt hid) (Nat.ne_of_lt hid)
  own s hs := ⟨s, (h.waiting hm).trans hs, Nat.le_refl _⟩

end Call

end Within

/-- The step of a statement in a scope that binds nothing yet cannot fail: there is nothing to be
shown of it. -/
theorem Eval.step_of_empty {m : Machine} {f : Frame} {rest : List Frame} (hs : m.stack = f :: rest)
    (rule : Json) {scope : ScopeId} (hempty : (m.scopes.get scope).bindings = []) :
    ∃ detail snapshot, Eval.step rule scope none m =
      (.value (), { m with log := m.log.record f.id rule detail snapshot }) := by
  rw [Eval.step, hs]
  dsimp only
  split
  · have hnotes : Eval.notes m.scopes scope none = .ok (none, some []) := by
      rw [Eval.notes, Scopes.snapshot, hempty]
      rfl
    rw [hnotes]
    exact ⟨_, _, rfl⟩
  · exact ⟨_, _, rfl⟩

/-- In a frame whose latest step is a call, the computation keeps to the frame. -/
def KeepsCalling (x : Eval α) : Prop :=
  ∀ m f rest, InFrame m f rest → (∃ s, m.log.latestOf f.id = some s ∧ s.rule = callRule) →
    ∃ above, Within f rest m above (x m).1.kind (x m).2

/-- In such states the computation comes to such an end only after a step of its frame. -/
def LogsFirst (P : Machine → Prop) (ends : OutcomeKind → Prop) (x : Eval α) : Prop :=
  ∀ m f rest, InFrame m f rest → P m → ends (x m).1.kind →
    (x m).2.log.LoggedSince m.log.next f.id

namespace Keeps

theorem quiet {x : Eval α} (h : Eval.Quiet x) : Keeps x := by
  intro m f rest hm
  obtain ⟨h₁, h₂, h₃⟩ := h m
  exact ⟨[], .still hm h₁ h₂ h₃⟩

theorem bind {x : Eval α} {k : α → Eval β} (h : Keeps x) (hk : ∀ a, Keeps (k a)) :
    Keeps (x >>= k) := by
  intro m f rest hm
  obtain ⟨above, hx⟩ := h m f rest hm
  rw [Eval.bind_run]
  rcases hr : x m with ⟨o, m₁⟩
  rw [hr] at hx
  cases o with
  | value a =>
    cases hx.value rfl
    obtain ⟨above, hk⟩ := hk a m₁ f rest (hx.inFrame hm)
    exact ⟨above, hx.append hk⟩
  | fault e => exact ⟨above, hx⟩
  | outOfFuel => exact ⟨above, hx⟩

theorem step (rule : Json) (scope : ScopeId) (call : Option (Json × List Value)) :
    Keeps (Eval.step rule scope call) := by
  intro m f rest hm
  rcases Eval.step_cases hm.stack rule scope call with ⟨detail, snapshot, h⟩ | ⟨e, h⟩
  · rw [h]
    exact ⟨[], .logged hm _ _ _⟩
  · rw [h]
    exact ⟨[], .still hm rfl rfl rfl⟩

/-- The step of a call, and then the call. -/
theorem call {x : Eval α} (h : KeepsCalling x) (scope : ScopeId)
    (call : Option (Json × List Value)) :
    Keeps (Eval.step callRule scope call >>= fun _ => x) := by
  intro m f rest hm
  rw [Eval.bind_run]
  rcases Eval.step_cases hm.stack callRule scope call with ⟨detail, snapshot, hstep⟩ | ⟨e, hstep⟩
  · rw [hstep]
    have hone : Within f rest m [] .value _ := .logged hm callRule detail snapshot
    obtain ⟨above, hx⟩ := h _ f rest (hone.inFrame hm)
      ⟨_, (StepLog.latestOf_record ..).trans (if_pos rfl), rfl⟩
    exact ⟨above, hone.append hx⟩
  · rw [hstep]
    exact ⟨[], .still hm rfl rfl rfl⟩

end Keeps

namespace KeepsCalling

theorem exhausted : KeepsCalling (Eval.exhausted : Eval α) :=
  fun _ _ _ hm _ => ⟨[], .still hm rfl rfl rfl⟩

theorem quiet_bind {x : Eval α} {k : α → Eval β} (h : Eval.Quiet x)
    (hk : ∀ a, KeepsCalling (k a)) : KeepsCalling (x >>= k) := by
  intro m f rest hm hcall
  obtain ⟨h₁, h₂, h₃⟩ := h m
  rw [Eval.bind_run]
  rcases hr : x m with ⟨o, m₁⟩
  rw [hr] at h₁ h₂ h₃
  have hx {e : OutcomeKind} : Within f rest m [] e m₁ := .still hm h₁ h₂ h₃
  cases o with
  | value a =>
    obtain ⟨above, hk⟩ := hk a m₁ f rest (hx.inFrame hm) (h₃ ▸ hcall)
    exact ⟨above, hx.append hk⟩
  | fault e => exact ⟨[], hx⟩
  | outOfFuel => exact ⟨[], hx⟩

/-- A body in a frame of its own. -/
theorem invoke {body : Eval Completion} (h : Keeps body)
    (hlogs : LogsFirst (fun _ => True) (· = .fault) body) (name : Json)
    (scope : ScopeId) :
    KeepsCalling (do
      let frame ← Eval.pushFrame name scope
      let completion ← body
      Eval.popFrame
      Eval.forgetFrame frame
      return completion.result) := by
  intro m f rest hm hcall
  have hin := Within.inFrame_enter hm name scope
  obtain ⟨above, hb⟩ := h _ _ _ hin
  have hlog := hlogs _ _ _ hin trivial
  have entering : Eval.pushFrame name scope m = (.value m.framesMade, Within.enter name scope m) :=
    rfl
  rw [Eval.bind_run, entering]
  dsimp only
  rw [Eval.bind_run]
  rcases hr : body (Within.enter name scope m) with ⟨o, m₁⟩
  rw [hr] at hb hlog
  cases o with
  | value c => exact ⟨[], hb.ended hm⟩
  | fault e => exact ⟨_, hb.broken hm hcall (by simp [Outcome.kind]) hlog⟩
  | outOfFuel =>
    exact ⟨_, hb.broken hm hcall (by simp [Outcome.kind]) fun hx => by cases hx⟩

end KeepsCalling

/-! ## The evaluator -/

/-- With some fuel the evaluator keeps to its frame, and what fails has logged a step. -/
structure Keeping (fuel : Nat) : Prop where
  evaluate : ∀ node scope, Keeps (Evaluator.evaluate fuel node scope)
  evaluateAll : ∀ nodes scope, Keeps (Evaluator.evaluateAll fuel nodes scope)
  callClosure : ∀ function args, KeepsCalling (Evaluator.callClosure fuel function args)
  executeBlock : ∀ nodes scope, Keeps (Evaluator.executeBlock fuel nodes scope)
  executeAll : ∀ nodes scope before, Keeps (Evaluator.executeAll fuel nodes scope before)
  execute : ∀ node scope, Keeps (Evaluator.execute fuel node scope)
  executeLoop : ∀ test body scope before,
    Keeps (Evaluator.executeLoop fuel test body scope before)
  executeBlock_logs : ∀ nodes scope,
    LogsFirst (fun _ => True) (· = .fault) (Evaluator.executeBlock fuel nodes scope)
  executeAll_logs : ∀ nodes scope before, LogsFirst (fun m => (m.scopes.get scope).bindings = [])
    (· = .fault) (Evaluator.executeAll fuel nodes scope before)
  execute_logs : ∀ node scope, LogsFirst (fun m => (m.scopes.get scope).bindings = [])
    (· ≠ .outOfFuel) (Evaluator.execute fuel node scope)

namespace Keeping

variable {fuel : Nat}

theorem zero : Keeping 0 where
  evaluate _ _ := by unfold Evaluator.evaluate; exact .quiet .exhausted
  evaluateAll _ _ := by unfold Evaluator.evaluateAll; exact .quiet .exhausted
  callClosure _ _ := by unfold Evaluator.callClosure; exact .exhausted
  executeBlock _ _ := by unfold Evaluator.executeBlock; exact .quiet .exhausted
  executeAll _ _ _ := by unfold Evaluator.executeAll; exact .quiet .exhausted
  execute _ _ := by unfold Evaluator.execute; exact .quiet .exhausted
  executeLoop _ _ _ _ := by unfold Evaluator.executeLoop; exact .quiet .exhausted
  executeBlock_logs _ _ _ _ _ _ _ h := by unfold Evaluator.executeBlock at h; cases h
  executeAll_logs _ _ _ _ _ _ _ _ h := by unfold Evaluator.executeAll at h; cases h
  execute_logs _ _ _ _ _ _ _ h := by unfold Evaluator.execute at h; exact absurd rfl h

theorem evaluate_succ (ih : Keeping fuel) (node : Node) (scope : ScopeId) :
    Keeps (Evaluator.evaluate (fuel + 1) node scope) := by
  unfold Evaluator.evaluate
  cases node with
  | literal kind value => exact .quiet (.pure _)
  | identifier name => exact .quiet (.lookup _ _)
  | binary left operator right =>
    dsimp only
    cases Operator.ofDocument operator with
    | assign =>
      cases left with
      | identifier name =>
        exact .bind (ih.evaluate _ _) fun value =>
          .bind (.quiet (.assign _ _ _)) fun _ => .quiet (.pure _)
      | _ => exact .quiet (.fail _)
    | _ =>
      exact .bind (ih.evaluate _ _) fun l =>
        .bind (ih.evaluate _ _) fun r => .quiet (.ofExcept _)
  | call name args =>
    refine .bind (.quiet (.lookup _ _)) fun callee => .bind (ih.evaluateAll _ _) fun args => ?_
    cases callee with
    | builtin builtinName home => exact .bind (.step _ _ _) fun _ => .quiet (.callBuiltin _)
    | closure function => exact .call (ih.callClosure _ _) _ _
    | _ => exact .quiet (.fail _)
  | _ => exact .quiet (.fail _)

theorem evaluateAll_succ (ih : Keeping fuel) (nodes : List Node) (scope : ScopeId) :
    Keeps (Evaluator.evaluateAll (fuel + 1) nodes scope) := by
  unfold Evaluator.evaluateAll
  cases nodes with
  | nil => exact .quiet (.pure _)
  | cons node nodes =>
    exact .bind (ih.evaluate _ _) fun first =>
      .bind (ih.evaluateAll _ _) fun rest => .quiet (.pure _)

theorem callClosure_succ (ih : Keeping fuel) (function : Closure) (args : List Value) :
    KeepsCalling (Evaluator.callClosure (fuel + 1) function args) := by
  unfold Evaluator.callClosure
  refine .quiet_bind (.newScope _) fun scope => .quiet_bind (.bindParams _ _ _) fun _ => ?_
  exact .invoke (ih.executeBlock _ _) (ih.executeBlock_logs _ _) _ _

theorem executeBlock_succ (ih : Keeping fuel) (nodes : List Node) (scope : ScopeId) :
    Keeps (Evaluator.executeBlock (fuel + 1) nodes scope) := by
  unfold Evaluator.executeBlock
  exact .bind (.quiet (.newScope _)) fun inner => ih.executeAll _ _ _

theorem executeAll_succ (ih : Keeping fuel) (nodes : List Node) (scope : ScopeId)
    (before : Completion) : Keeps (Evaluator.executeAll (fuel + 1) nodes scope before) := by
  unfold Evaluator.executeAll
  cases nodes with
  | nil => exact .quiet (.pure _)
  | cons node nodes =>
    refine .bind (ih.execute _ _) fun c => ?_
    cases c with
    | returned v => exact .quiet (.pure _)
    | normal v => exact ih.executeAll _ _ _

/-- A statement is a step of its own and then something that keeps to the frame. -/
theorem execute_eq (ih : Keeping fuel) (node : Node) (scope : ScopeId) :
    ∃ k, Keeps k ∧ Evaluator.execute (fuel + 1) node scope =
      (Eval.step (.str node.kindName) scope none >>= fun _ => k) := by
  unfold Evaluator.execute
  refine ⟨_, ?_, rfl⟩
  cases node with
  | expression value => exact .bind (ih.evaluate _ _) fun _ => .quiet (.pure _)
  | declare name value =>
    exact .bind (ih.evaluate _ _) fun value =>
      .bind (.quiet (.declare _ _ _)) fun _ => .quiet (.pure _)
  | block body => exact ih.executeBlock _ _
  | branch test consequent alternate =>
    refine .bind (ih.evaluate _ _) fun chosen => ?_
    split
    · exact ih.executeBlock _ _
    · cases alternate with
      | none => exact .quiet (.pure _)
      | some alternate => exact ih.executeBlock _ _
  | loop test body => exact ih.executeLoop _ _ _ _
  | function name params body =>
    exact .bind (.quiet (.declare _ _ _)) fun _ => .quiet (.pure _)
  | ret argument =>
    cases argument with
    | none => exact .quiet (.pure _)
    | some argument => exact .bind (ih.evaluate _ _) fun value => .quiet (.pure _)
  | _ => exact .quiet (.fail _)

theorem execute_succ (ih : Keeping fuel) (node : Node) (scope : ScopeId) :
    Keeps (Evaluator.execute (fuel + 1) node scope) := by
  obtain ⟨k, hk, heq⟩ := ih.execute_eq node scope
  rw [heq]
  exact .bind (.step _ _ _) fun _ => hk

theorem execute_logs_succ (ih : Keeping fuel) (node : Node) (scope : ScopeId) :
    LogsFirst (fun m => (m.scopes.get scope).bindings = []) (· ≠ .outOfFuel)
      (Evaluator.execute (fuel + 1) node scope) := by
  intro m f rest hm hempty _
  obtain ⟨k, hk, heq⟩ := ih.execute_eq node scope
  obtain ⟨detail, snapshot, hstep⟩ := Eval.step_of_empty hm.stack (.str node.kindName) hempty
  have hone : Within f rest m [] .value _ := .logged hm (.str node.kindName) detail snapshot
  obtain ⟨above, hrest⟩ := hk _ f rest (hone.inFrame hm)
  rw [heq, Eval.bind_run, hstep]
  exact hrest.loggedSince ⟨_, (StepLog.latestOf_record ..).trans (if_pos rfl), Nat.le_refl _⟩

theorem executeAll_logs_succ (ih : Keeping fuel) (nodes : List Node) (scope : ScopeId)
    (before : Completion) :
    LogsFirst (fun m => (m.scopes.get scope).bindings = []) (· = .fault)
      (Evaluator.executeAll (fuel + 1) nodes scope before) := by
  unfold Evaluator.executeAll
  cases nodes with
  | nil =>
    intro m f rest hm hempty h
    cases h
  | cons node nodes =>
    intro m f rest hm hempty
    have hlog := ih.execute_logs node scope m f rest hm hempty
    obtain ⟨above, hw⟩ := ih.execute node scope m f rest hm
    dsimp only
    rw [Eval.bind_run]
    rcases hr : Evaluator.execute fuel node scope m with ⟨o, m₁⟩
    rw [hr] at hlog hw
    cases o with
    | value c =>
      cases hw.value rfl
      have hlog := hlog (by simp [Outcome.kind])
      cases c with
      | returned v => exact fun h => by cases h
      | normal v =>
        intro _
        obtain ⟨above, hrest⟩ := ih.executeAll nodes scope (.normal v) m₁ f rest (hw.inFrame hm)
        exact hrest.loggedSince hlog
    | fault e => exact fun _ => hlog (by simp [Outcome.kind])
    | outOfFuel => exact fun h => by cases h

theorem executeBlock_logs_succ (ih : Keeping fuel) (nodes : List Node) (scope : ScopeId) :
    LogsFirst (fun _ => True) (· = .fault) (Evaluator.executeBlock (fuel + 1) nodes scope) := by
  unfold Evaluator.executeBlock
  intro m f rest hm _
  refine ih.executeAll_logs nodes m.scopes.size (.normal .null) _ f rest ⟨hm.stack, hm.made,
    hm.sound⟩ ?_
  show ((m.scopes.push (some scope)).get m.scopes.size).bindings = []
  rw [Scopes.get_push, if_pos rfl]

theorem executeLoop_succ (ih : Keeping fuel) (test : Node) (body : List Node) (scope : ScopeId)
    (before : Completion) :
    Keeps (Evaluator.executeLoop (fuel + 1) test body scope before) := by
  unfold Evaluator.executeLoop
  refine .bind (ih.evaluate _ _) fun again => ?_
  split
  · refine .bind (ih.executeBlock _ _) fun c => ?_
    cases c with
    | returned v => exact .quiet (.pure _)
    | normal v => exact ih.executeLoop _ _ _ _
  · exact .quiet (.pure _)

end Keeping

theorem keeping (fuel : Nat) : Keeping fuel := by
  induction fuel with
  | zero => exact .zero
  | succ fuel ih =>
    exact {
      evaluate := ih.evaluate_succ
      evaluateAll := ih.evaluateAll_succ
      callClosure := ih.callClosure_succ
      executeBlock := ih.executeBlock_succ
      executeAll := ih.executeAll_succ
      execute := ih.execute_succ
      executeLoop := ih.executeLoop_succ
      executeBlock_logs := ih.executeBlock_logs_succ
      executeAll_logs := ih.executeAll_logs_succ
      execute_logs := ih.execute_logs_succ }

end ScriptLang
