import Mathlib.Data.List.Basic
import ScriptLang.Proofs.Evaluator.Unwinding

/-!
# The trace of a run

What a run with abrupt returns adds to its trace, whichever frame it is run in. The invariant of a
computation is `Span`: its events are those of its own frame and of frames made since, they are in
order, and the frame executes a return at the very end of the computation or not at all. Sequencing
keeps it because a computation goes on only where no return has been executed.

Results:
* `Orderly`: a return ends its own call at once and no other, and a call without one gives null;
* `tracing`: the evaluator leaves traces in order;
* `returns_unwind`: a run with pending returns is a run with abrupt ones, and its trace is in order.
-/
namespace ScriptLang

variable {α β : Type}

/-! ## Traces in order -/

/-- Returns end their own calls and no others. -/
structure Orderly (events : List Event) : Prop where
  /-- After a return of a call no statement of that call starts, and it calls nothing. -/
  stopped : events.Pairwise fun a b => ∀ f v, a = .returned f v → b.isStep = true → b.frame ≠ f
  /-- A call ends with the value of its own return at once, or it has executed none, has run to the
  end of its body and ends with null. -/
  unwound : ∀ before after f v, events = before ++ .ended f v :: after →
    before.getLast? = some (.returned f v) ∨ v = .null ∧ ∀ w, .returned f w ∉ before

namespace Orderly

theorem nil : Orderly [] where
  stopped := .nil
  unwound before after f v h := by simp at h

/-- An event that is no end of a call is in order by itself. -/
theorem singleton {e : Event} (h : ∀ f v, e ≠ .ended f v) : Orderly [e] where
  stopped := List.pairwise_singleton _ e
  unwound before after f v he := by
    rcases before with _ | ⟨b, bs⟩
    · cases he
      exact absurd rfl (h f v)
    · simp at he

theorem append {a b : List Event} (ha : Orderly a) (hb : Orderly b)
    (h : ∀ f v, .returned f v ∈ a → ∀ e ∈ b, e.frame ≠ f) : Orderly (a ++ b) where
  stopped := by
    refine List.pairwise_append.mpr ⟨ha.stopped, hb.stopped, ?_⟩
    rintro x hx y hy f v rfl -
    exact h f v hx y hy
  unwound := by
    intro before after f v he
    rcases List.append_eq_append_iff.mp he with ⟨c, rfl, hc⟩ | ⟨c, rfl, hc⟩
    · -- the call ends in the second part
      have hf : ∀ w, .returned f w ∉ a := by
        intro w hw
        exact h f w hw (.ended f v) (by rw [hc]; simp) rfl
      rcases hb.unwound c after f v hc with hl | ⟨hv, hn⟩
      · left
        rw [List.getLast?_append, hl]
        rfl
      · right
        refine ⟨hv, fun w hw => ?_⟩
        rcases List.mem_append.mp hw with hw | hw
        · exact hf w hw
        · exact hn w hw
    · rcases c with _ | ⟨x, c⟩
      · -- it ends right at the beginning of the second part
        rw [List.nil_append] at hc
        have hf : ∀ w, .returned f w ∉ before := by
          intro w hw
          exact h f w (by simpa using hw) (.ended f v) (by rw [← hc]; simp) rfl
        rcases hb.unwound [] after f v hc.symm with hl | ⟨hv, -⟩
        · cases hl
        · exact .inr ⟨hv, hf⟩
      · rw [List.cons_append, List.cons.injEq] at hc
        obtain ⟨rfl, -⟩ := hc
        exact ha.unwound before c f v rfl

/-- The end of a call after what happened in it. -/
theorem concat_ended {a : List Event} {f : FrameId} {v : Value} (ha : Orderly a)
    (h : a.getLast? = some (.returned f v) ∨ v = .null ∧ ∀ w, .returned f w ∉ a) :
    Orderly (a ++ [.ended f v]) where
  stopped := by
    refine List.pairwise_append.mpr ⟨ha.stopped, List.pairwise_singleton _ _, ?_⟩
    intro x _ y hy g w _ hs
    rw [List.mem_singleton.mp hy] at hs
    cases hs
  unwound := by
    intro before after g w he
    rcases List.eq_nil_or_concat after with rfl | ⟨after, e, rfl⟩
    · obtain ⟨rfl, hlast⟩ := List.append_inj' he rfl
      cases hlast
      exact h
    · rw [List.concat_eq_append, ← List.cons_append, ← List.append_assoc] at he
      obtain ⟨hinit, -⟩ := List.append_inj' he rfl
      exact ha.unwound before after g w hinit

end Orderly

/-! ## Computations that leave no trace -/

/-- The computation leaves the log alone, and makes and leaves no frame. -/
def Eval.Quiet (x : Eval α) : Prop := ∀ m,
  (x m).2.stack = m.stack ∧ (x m).2.framesMade = m.framesMade ∧ (x m).2.log = m.log

namespace Eval.Quiet

theorem pure (a : α) : Quiet (Pure.pure a) := fun _ => ⟨rfl, rfl, rfl⟩

theorem fail (f : Fault) : Quiet (Eval.fail f : Eval α) := fun _ => ⟨rfl, rfl, rfl⟩

theorem exhausted : Quiet (Eval.exhausted : Eval α) := fun _ => ⟨rfl, rfl, rfl⟩

theorem read (f : Machine → α) : Quiet (Eval.read f) := fun _ => ⟨rfl, rfl, rfl⟩

theorem bind {x : Eval α} {k : α → Eval β} (h : Quiet x) (hk : ∀ a, Quiet (k a)) :
    Quiet (x >>= k) := by
  intro m
  obtain ⟨hs, hf, hl⟩ := h m
  rw [Eval.bind_run]
  rcases hx : x m with ⟨o, m'⟩
  rw [hx] at hs hf hl
  cases o with
  | value a =>
    obtain ⟨hs', hf', hl'⟩ := hk a m'
    exact ⟨hs'.trans hs, hf'.trans hf, hl'.trans hl⟩
  | fault f => exact ⟨hs, hf, hl⟩
  | outOfFuel => exact ⟨hs, hf, hl⟩

theorem ofExcept : ∀ r : Except Fault α, Quiet (Eval.ofExcept r)
  | .ok a => .pure a
  | .error f => .fail f

theorem ofBreakdown : ∀ r : Except Breakdown α, Quiet (Eval.ofBreakdown r)
  | .ok a => .pure a
  | .error b => .fail (.internal b)

theorem newScope (parent : ScopeId) : Quiet (Eval.newScope parent) := fun _ => ⟨rfl, rfl, rfl⟩

theorem lookup (scope : ScopeId) (name : Json) : Quiet (Eval.lookup scope name) := by
  intro m
  unfold Eval.lookup
  split <;> exact ⟨rfl, rfl, rfl⟩

theorem declare (scope : ScopeId) (name : Json) (value : Value) :
    Quiet (Eval.declare scope name value) := by
  intro m
  rw [Eval.declare_run]
  split <;> exact ⟨rfl, rfl, rfl⟩

theorem assign (scope : ScopeId) (name : Json) (value : Value) :
    Quiet (Eval.assign scope name value) := by
  intro m
  rw [Eval.assign_run]
  split <;> exact ⟨rfl, rfl, rfl⟩

theorem print (line : String) : Quiet (Eval.print line) := by
  intro m
  unfold Eval.print
  split <;> exact ⟨rfl, rfl, rfl⟩

theorem bindParams (scope : ScopeId) : ∀ (params : List Json) (args : List Value),
    Quiet (Evaluator.bindParams scope params args)
  | [], _ => .pure ()
  | _ :: params, args => .bind (.declare _ _ _) fun _ => bindParams scope params args.tail

theorem callBuiltin (args : List Value) : Quiet (Evaluator.callBuiltin args) :=
  .bind (.ofBreakdown _) fun _ => .bind (.print _) fun _ => .pure _

end Eval.Quiet

/-- A step is logged, or nothing changes. -/
theorem Eval.step_cases {m : Machine} {frame : Frame} {rest : List Frame}
    (hstack : m.stack = frame :: rest) (rule : Json) (scope : ScopeId)
    (call : Option (Json × List Value)) :
    (∃ detail snapshot, Eval.step rule scope call m =
      (.value (), { m with log := m.log.record frame.id rule detail snapshot })) ∨
    ∃ f, Eval.step rule scope call m = (.fault f, m) := by
  rw [Eval.step, hstack]
  dsimp only
  split
  · split
    · exact .inl ⟨_, _, rfl⟩
    · exact .inr ⟨_, rfl⟩
  · exact .inl ⟨_, _, rfl⟩

/-- A machine that is not verbose logs a step without looking at anything. -/
theorem Eval.step_quiet {m : Machine} {frame : Frame} {rest : List Frame} (hm : m.verbose = false)
    (hstack : m.stack = frame :: rest) (rule : Json) (scope : ScopeId)
    (call : Option (Json × List Value)) :
    Eval.step rule scope call m =
      (.value (), { m with log := m.log.record frame.id rule none none }) := by
  unfold Eval.step
  simp [hstack, hm]

/-- A verbose machine logs a step with what there is to note of it. -/
theorem Eval.step_verbose {m : Machine} {frame : Frame} {rest : List Frame} (hm : m.verbose = true)
    (hstack : m.stack = frame :: rest) (rule : Json) (scope : ScopeId)
    (call : Option (Json × List Value)) :
    Eval.step rule scope call m =
      match Eval.notes m.scopes scope call with
      | .ok (detail, snapshot) =>
        (.value (), { m with log := m.log.record frame.id rule detail snapshot })
      | .error b => (.fault (.internal b), m) := by
  unfold Eval.step
  cases Eval.notes m.scopes scope call <;> simp [hstack, hm]

/-! ## What a computation adds to the trace -/

def Ending.completes : Ending α → Bool
  | .value _ | .returned _ => true
  | .fault _ | .outOfFuel => false

/-- What happens in the frame `f` between two states: the events `new`, of this frame and of frames
that were made in between, and all that the machine logs is among them. The frame executes a return
at the very end or not at all. -/
structure Span (f : FrameId) (t : Traced) (new : List Event) (e : Ending α) (t' : Traced) : Prop
    where
  events : t'.events = t.events ++ new
  frames : t.machine.framesMade ≤ t'.machine.framesMade
  steps : t'.machine.log.next = t.machine.log.next + new.countP (·.isStep)
  fresh : ∀ x ∈ new, x.frame = f ∨
    t.machine.framesMade ≤ x.frame ∧ x.frame < t'.machine.framesMade
  orderly : Orderly new
  stack : e.completes = true → t'.machine.stack = t.machine.stack
  silent : (∀ v, e ≠ .returned v) → ∀ v, .returned f v ∉ new
  last : ∀ v, e = .returned v → new.getLast? = some (.returned f v)

/-- Whatever frame the computation is run in, what it adds to the trace is in order. -/
def Traces (y : Abrupt α) : Prop :=
  ∀ t frame rest, t.machine.stack = frame :: rest → frame.id < t.machine.framesMade →
    ∃ new, Span frame.id t new (y t).1 (y t).2

namespace Span

/-- A change of the machine that is neither a step nor the making or leaving of a frame. -/
theorem still {f : FrameId} {t t' : Traced} {e : Ending α} (he : ∀ v, e ≠ .returned v)
    (hev : t'.events = t.events) (hf : t'.machine.framesMade = t.machine.framesMade)
    (hl : t'.machine.log.next = t.machine.log.next) (hs : t'.machine.stack = t.machine.stack) :
    Span f t [] e t' where
  events := by rw [hev, List.append_nil]
  frames := by omega
  steps := by simp [hl]
  fresh := by simp
  orderly := .nil
  stack _ := hs
  silent _ := by simp
  last v h := absurd h (he v)

/-- An ending of another type says the same. -/
theorem cast {f : FrameId} {t t' : Traced} {new : List Event} {e : Ending α} {e' : Ending β}
    (h : Span f t new e t') (hc : e'.completes = e.completes)
    (hr : ∀ v, e' = .returned v ↔ e = .returned v) : Span f t new e' t' where
  events := h.events
  frames := h.frames
  steps := h.steps
  fresh := h.fresh
  orderly := h.orderly
  stack he := h.stack (hc ▸ he)
  silent he := h.silent fun v hv => he v ((hr v).mpr hv)
  last v he := h.last v ((hr v).mp he)

/-- One computation after another. -/
theorem append {f : FrameId} {t t₁ t₂ : Traced} {a b : List Event} {x : α} {e : Ending β}
    (hf : f < t.machine.framesMade) (h₁ : Span f t a (.value x) t₁) (h₂ : Span f t₁ b e t₂) :
    Span f t (a ++ b) e t₂ where
  events := by rw [h₂.events, h₁.events, List.append_assoc]
  frames := Nat.le_trans h₁.frames h₂.frames
  steps := by
    rw [h₂.steps, h₁.steps, List.countP_append]
    omega
  fresh := by
    intro x hx
    rcases List.mem_append.mp hx with hx | hx
    · rcases h₁.fresh x hx with h | ⟨hlo, hhi⟩
      · exact .inl h
      · exact .inr ⟨hlo, Nat.lt_of_lt_of_le hhi h₂.frames⟩
    · rcases h₂.fresh x hx with h | ⟨hlo, hhi⟩
      · exact .inl h
      · exact .inr ⟨Nat.le_trans h₁.frames hlo, hhi⟩
  orderly := by
    refine h₁.orderly.append h₂.orderly ?_
    intro g v hg y hy hgy
    have hne : g ≠ f := by
      rintro rfl
      exact h₁.silent (by simp) v hg
    obtain ⟨hlo, hhi⟩ : t.machine.framesMade ≤ g ∧ g < t₁.machine.framesMade :=
      (h₁.fresh _ hg).resolve_left hne
    rcases h₂.fresh y hy with h | ⟨h, -⟩
    · exact hne (hgy ▸ h)
    · rw [hgy] at h
      exact absurd (Nat.lt_of_lt_of_le hhi h) (Nat.lt_irrefl _)
  stack he := by rw [h₂.stack he, h₁.stack rfl]
  silent he v hv := by
    rcases List.mem_append.mp hv with hv | hv
    · exact h₁.silent (by simp) v hv
    · exact h₂.silent he v hv
  last v he := by
    rw [List.getLast?_append, h₂.last v he]
    rfl

def enter (name : Json) (scope : ScopeId) (t : Traced) : Traced :=
  ⟨{ t.machine with
      stack := ⟨name, scope, t.machine.framesMade⟩ :: t.machine.stack
      framesMade := t.machine.framesMade + 1 }, t.events⟩

def exit (g : FrameId) (v : Value) (t : Traced) : Traced :=
  ⟨{ t.machine with stack := t.machine.stack.tail, log := t.machine.log.forget g },
    t.events ++ [.ended g v]⟩

section Call

variable {f : FrameId} {t t₂ : Traced} {name : Json} {scope : ScopeId} {new : List Event}
  {e : Ending α}

/-- What happens in a frame made since happens outside of the frame `f`. -/
theorem outside (hf : f < t.machine.framesMade)
    (h : Span t.machine.framesMade (enter name scope t) new e t₂) :
    t.machine.framesMade < t₂.machine.framesMade ∧
      ∀ x ∈ new,
        t.machine.framesMade ≤ x.frame ∧ x.frame < t₂.machine.framesMade ∧ x.frame ≠ f := by
  have hlt : t.machine.framesMade < t₂.machine.framesMade := h.frames
  refine ⟨hlt, fun x hx => ?_⟩
  have hx : t.machine.framesMade ≤ x.frame ∧ x.frame < t₂.machine.framesMade := by
    rcases h.fresh x hx with hx | ⟨hlo, hhi⟩
    · rw [hx]
      exact ⟨Nat.le_refl _, hlt⟩
    · exact ⟨Nat.le_of_succ_le hlo, hhi⟩
  exact ⟨hx.1, hx.2, Nat.ne_of_gt (Nat.lt_of_lt_of_le hf hx.1)⟩

/-- A call that ends with a value. -/
theorem ended (h : Span t.machine.framesMade (enter name scope t) new e t₂)
    (hf : f < t.machine.framesMade) (he : e.completes = true) {v : Value}
    (hv : new.getLast? = some (.returned t.machine.framesMade v) ∨
      v = .null ∧ ∀ w, .returned t.machine.framesMade w ∉ new) :
    Span f t (new ++ [.ended t.machine.framesMade v]) (.value v)
      (exit t.machine.framesMade v t₂) where
  events := by
    show t₂.events ++ _ = _
    rw [h.events, List.append_assoc]
    rfl
  frames := Nat.le_of_lt (outside hf h).1
  steps := by
    rw [List.countP_append]
    exact h.steps
  fresh := by
    intro x hx
    rcases List.mem_append.mp hx with hx | hx
    · obtain ⟨hlo, hhi, -⟩ := (outside hf h).2 x hx
      exact .inr ⟨hlo, hhi⟩
    · rw [List.mem_singleton.mp hx]
      exact .inr ⟨Nat.le_refl _, (outside hf h).1⟩
  orderly := h.orderly.concat_ended hv
  stack _ := by
    show t₂.machine.stack.tail = _
    rw [h.stack he]
    rfl
  silent _ w hw := by
    rcases List.mem_append.mp hw with hw | hw
    · exact ((outside hf h).2 _ hw).2.2 rfl
    · cases List.mem_singleton.mp hw
  last w hw := by cases hw

/-- A call that comes to no end. -/
theorem broken (h : Span t.machine.framesMade (enter name scope t) new e t₂)
    (hf : f < t.machine.framesMade) {e' : Ending β} (he : e'.completes = false) :
    Span f t new e' t₂ where
  events := h.events
  frames := Nat.le_of_lt (outside hf h).1
  steps := h.steps
  fresh x hx := by
    obtain ⟨hlo, hhi, -⟩ := (outside hf h).2 x hx
    exact .inr ⟨hlo, hhi⟩
  orderly := h.orderly
  stack hc := by rw [he] at hc; cases hc
  silent _ v hv := ((outside hf h).2 _ hv).2.2 rfl
  last v hv := by rw [hv] at he; cases he

end Call

end Span

namespace Traces

theorem pure (a : α) : Traces (Pure.pure a : Abrupt α) :=
  fun t _ _ _ _ => ⟨[], .still (by rintro v ⟨⟩) rfl rfl rfl rfl⟩

theorem lift {x : Eval α} (h : Eval.Quiet x) : Traces (Abrupt.lift x) := by
  intro t _ _ _ _
  obtain ⟨hs, hf, hl⟩ := h t.machine
  refine ⟨[], ?_⟩
  unfold Abrupt.lift
  split <;> next heq =>
    rw [heq] at hs hf hl
    exact .still (by rintro v ⟨⟩) rfl hf (congrArg StepLog.next hl) hs

theorem bind {y : Abrupt α} {l : α → Abrupt β} (h : Traces y) (hl : ∀ a, Traces (l a)) :
    Traces (y >>= l) := by
  intro t frame rest hstack hf
  obtain ⟨new, hn⟩ := h t frame rest hstack hf
  rw [Abrupt.bind_run]
  rcases hy : y t with ⟨e, t₁⟩
  rw [hy] at hn
  cases e with
  | value a =>
    obtain ⟨more, hm⟩ := hl a t₁ frame rest (by rw [hn.stack rfl, hstack])
      (Nat.lt_of_lt_of_le hf hn.frames)
    exact ⟨new ++ more, hn.append hf hm⟩
  | returned v => exact ⟨new, hn.cast rfl (by simp)⟩
  | fault g => exact ⟨new, hn.cast rfl (by simp)⟩
  | outOfFuel => exact ⟨new, hn.cast rfl (by simp)⟩

theorem leave (v : Value) : Traces (Abrupt.leave v) := by
  intro t frame rest hstack _
  have hr : Abrupt.record (.returned · v) t = ⟨t.machine, t.events ++ [.returned frame.id v]⟩ := by
    rw [Abrupt.record, hstack]
  refine ⟨[.returned frame.id v], ?_⟩
  unfold Abrupt.leave
  rw [hr]
  exact {
    events := rfl
    frames := Nat.le_refl _
    steps := rfl
    fresh := by simp [Event.frame]
    orderly := .singleton (by simp)
    stack := fun _ => rfl
    silent := fun h => absurd rfl (h v)
    last := by
      rintro w ⟨⟩
      rfl }

/-- A step of the log and the event of it. -/
theorem step {y : Abrupt α} {event : FrameId → Event} (hstep : ∀ f, (event f).isStep = true)
    (hframe : ∀ f, (event f).frame = f) (rule : Json) (scope : ScopeId)
    (call : Option (Json × List Value)) (h : Traces y) :
    Traces (Abrupt.lift (Eval.step rule scope call) >>= fun _ =>
      Abrupt.note event >>= fun _ => y) := by
  intro t frame rest hstack hf
  rw [Abrupt.bind_run, Abrupt.lift]
  rcases Eval.step_cases hstack rule scope call with ⟨detail, snapshot, hm⟩ | ⟨g, hg⟩
  · obtain ⟨m', hm, hs, hfm, hl⟩ : ∃ m', Eval.step rule scope call t.machine = (.value (), m') ∧
        m'.stack = frame :: rest ∧ m'.framesMade = t.machine.framesMade ∧
        m'.log.next = t.machine.log.next + 1 := ⟨_, hm, hstack, rfl, rfl⟩
    rw [hm]
    dsimp only
    have hrec : Abrupt.record event ⟨m', t.events⟩ = ⟨m', t.events ++ [event frame.id]⟩ := by
      rw [Abrupt.record, hs]
    rw [Abrupt.bind_run, Abrupt.note, hrec]
    have hone : Span frame.id t [event frame.id] (.value ()) ⟨m', t.events ++ [event frame.id]⟩ := {
      events := rfl
      frames := Nat.le_of_eq hfm.symm
      steps := by rw [List.countP_singleton, hstep]; exact hl
      fresh := by simp [hframe]
      orderly := .singleton fun f v he => by simpa [he, Event.isStep] using hstep frame.id
      stack := fun _ => hs.trans hstack.symm
      silent := fun _ v hv => by
        simpa [← List.mem_singleton.mp hv, Event.isStep] using hstep frame.id
      last := by rintro w ⟨⟩ }
    obtain ⟨more, hm⟩ := h ⟨m', t.events ++ [event frame.id]⟩ frame rest hs
      (Nat.lt_of_lt_of_le hf hone.frames)
    exact ⟨_, hone.append hf hm⟩
  · rw [hg]
    exact ⟨[], .still (by rintro v ⟨⟩) rfl rfl rfl rfl⟩

theorem invoke {body : Abrupt Unit} (h : Traces body) (name : Json) (scope : ScopeId) :
    Traces (Abrupt.invoke name scope body) := by
  intro t frame rest hstack hf
  obtain ⟨new, hn⟩ := h (Span.enter name scope t) ⟨name, scope, t.machine.framesMade⟩
    t.machine.stack rfl (Nat.lt_succ_self _)
  -- what follows the body on the way out of the call
  have leaving : ∀ v t₂, t₂.machine.stack = (Span.enter name scope t).machine.stack →
      (Abrupt.note (.ended · v) >>= fun _ => Abrupt.lift Eval.popFrame >>= fun _ =>
        Abrupt.lift (Eval.forgetFrame t.machine.framesMade) >>= fun _ => Pure.pure v) t₂ =
      (.value v, Span.exit t.machine.framesMade v t₂) := by
    intro v t₂ hs
    rw [Abrupt.bind_run, Abrupt.note, Abrupt.record, hs]
    rfl
  have entering : Abrupt.lift (Eval.pushFrame name scope) t =
      (.value t.machine.framesMade, Span.enter name scope t) := rfl
  rw [Abrupt.invoke, Abrupt.bind_run, entering]
  dsimp only
  rw [Abrupt.bind_run, Abrupt.catchReturn]
  rcases hb : body (Span.enter name scope t) with ⟨e, t₂⟩
  rw [hb] at hn
  cases e with
  | value u =>
    dsimp only
    rw [leaving _ _ (hn.stack rfl)]
    exact ⟨_, hn.ended hf rfl (.inr ⟨rfl, hn.silent (by simp)⟩)⟩
  | returned v =>
    dsimp only
    rw [leaving _ _ (hn.stack rfl)]
    exact ⟨_, hn.ended hf rfl (.inl (hn.last v rfl))⟩
  | fault g => exact ⟨new, hn.broken hf rfl⟩
  | outOfFuel => exact ⟨new, hn.broken hf rfl⟩

end Traces

/-! ## The evaluator -/

/-- With some fuel the evaluator leaves traces in order. -/
structure Tracing (fuel : Nat) : Prop where
  evaluate : ∀ node scope, Traces (Abrupt.evaluate fuel node scope)
  evaluateAll : ∀ nodes scope, Traces (Abrupt.evaluateAll fuel nodes scope)
  callClosure : ∀ function args, Traces (Abrupt.callClosure fuel function args)
  executeBlock : ∀ nodes scope, Traces (Abrupt.executeBlock fuel nodes scope)
  executeAll : ∀ nodes scope, Traces (Abrupt.executeAll fuel nodes scope)
  execute : ∀ node scope, Traces (Abrupt.execute fuel node scope)
  executeLoop : ∀ test body scope, Traces (Abrupt.executeLoop fuel test body scope)

namespace Tracing

variable {fuel : Nat}

theorem zero : Tracing 0 where
  evaluate _ _ := by unfold Abrupt.evaluate; exact .lift .exhausted
  evaluateAll _ _ := by unfold Abrupt.evaluateAll; exact .lift .exhausted
  callClosure _ _ := by unfold Abrupt.callClosure; exact .lift .exhausted
  executeBlock _ _ := by unfold Abrupt.executeBlock; exact .lift .exhausted
  executeAll _ _ := by unfold Abrupt.executeAll; exact .lift .exhausted
  execute _ _ := by unfold Abrupt.execute; exact .lift .exhausted
  executeLoop _ _ _ := by unfold Abrupt.executeLoop; exact .lift .exhausted

theorem evaluate_succ (ih : Tracing fuel) (node : Node) (scope : ScopeId) :
    Traces (Abrupt.evaluate (fuel + 1) node scope) := by
  unfold Abrupt.evaluate
  cases node with
  | literal kind value => exact .pure _
  | identifier name => exact .lift (.lookup _ _)
  | binary left operator right =>
    dsimp only
    cases Operator.ofDocument operator with
    | assign =>
      cases left with
      | identifier name =>
        exact .bind (ih.evaluate _ _) fun value => .bind (.lift (.assign _ _ _)) fun _ => .pure _
      | _ => exact .lift (.fail _)
    | _ =>
      exact .bind (ih.evaluate _ _) fun l => .bind (ih.evaluate _ _) fun r => .lift (.ofExcept _)
  | call name args =>
    refine .bind (.lift (.lookup _ _)) fun callee => .bind (ih.evaluateAll _ _) fun args => ?_
    cases callee with
    | builtin builtinName home =>
      exact .step (fun _ => rfl) (fun _ => rfl) _ _ _ (.lift (.callBuiltin _))
    | closure function => exact .step (fun _ => rfl) (fun _ => rfl) _ _ _ (ih.callClosure _ _)
    | _ => exact .lift (.fail _)
  | _ => exact .lift (.fail _)

theorem evaluateAll_succ (ih : Tracing fuel) (nodes : List Node) (scope : ScopeId) :
    Traces (Abrupt.evaluateAll (fuel + 1) nodes scope) := by
  unfold Abrupt.evaluateAll
  cases nodes with
  | nil => exact .pure _
  | cons node nodes =>
    exact .bind (ih.evaluate _ _) fun first => .bind (ih.evaluateAll _ _) fun rest => .pure _

theorem callClosure_succ (ih : Tracing fuel) (function : Closure) (args : List Value) :
    Traces (Abrupt.callClosure (fuel + 1) function args) := by
  unfold Abrupt.callClosure
  refine .bind (.lift (.newScope _)) fun scope => .bind (.lift (.bindParams _ _ _)) fun _ => ?_
  exact .invoke (ih.executeBlock _ _) _ _

theorem executeBlock_succ (ih : Tracing fuel) (nodes : List Node) (scope : ScopeId) :
    Traces (Abrupt.executeBlock (fuel + 1) nodes scope) := by
  unfold Abrupt.executeBlock
  exact .bind (.lift (.newScope _)) fun inner => ih.executeAll _ _

theorem executeAll_succ (ih : Tracing fuel) (nodes : List Node) (scope : ScopeId) :
    Traces (Abrupt.executeAll (fuel + 1) nodes scope) := by
  unfold Abrupt.executeAll
  cases nodes with
  | nil => exact .pure _
  | cons node nodes => exact .bind (ih.execute _ _) fun _ => ih.executeAll _ _

theorem execute_succ (ih : Tracing fuel) (node : Node) (scope : ScopeId) :
    Traces (Abrupt.execute (fuel + 1) node scope) := by
  unfold Abrupt.execute
  refine .step (fun _ => rfl) (fun _ => rfl) _ _ _ ?_
  cases node with
  | expression value => exact .bind (ih.evaluate _ _) fun _ => .pure _
  | declare name value => exact .bind (ih.evaluate _ _) fun value => .lift (.declare _ _ _)
  | block body => exact ih.executeBlock _ _
  | branch test consequent alternate =>
    refine .bind (ih.evaluate _ _) fun chosen => ?_
    split
    · exact ih.executeBlock _ _
    · cases alternate with
      | none => exact .pure _
      | some alternate => exact ih.executeBlock _ _
  | loop test body => exact ih.executeLoop _ _ _
  | function name params body => exact .lift (.declare _ _ _)
  | ret argument =>
    cases argument with
    | none => exact .leave _
    | some argument => exact .bind (ih.evaluate _ _) fun value => .leave value
  | _ => exact .lift (.fail _)

theorem executeLoop_succ (ih : Tracing fuel) (test : Node) (body : List Node) (scope : ScopeId) :
    Traces (Abrupt.executeLoop (fuel + 1) test body scope) := by
  unfold Abrupt.executeLoop
  refine .bind (ih.evaluate _ _) fun again => ?_
  split
  · exact .bind (ih.executeBlock _ _) fun _ => ih.executeLoop _ _ _
  · exact .pure _

end Tracing

theorem tracing (fuel : Nat) : Tracing fuel := by
  induction fuel with
  | zero => exact .zero
  | succ fuel ih =>
    exact ⟨ih.evaluate_succ, ih.evaluateAll_succ, ih.callClosure_succ, ih.executeBlock_succ,
      ih.executeAll_succ, ih.execute_succ, ih.executeLoop_succ⟩

/-! ## Runs -/

theorem hoist_traces (fuel : Nat) (nodes : List Node) : Traces (Abrupt.hoist fuel nodes) := by
  induction nodes with
  | nil => exact .pure _
  | cons node nodes ih =>
    unfold Abrupt.hoist
    cases node with
    | function name params body => exact .bind ((tracing fuel).execute _ _) fun _ => ih
    | _ => exact ih

theorem runBody_traces (fuel : Nat) (p : Program) : Traces (Abrupt.runBody fuel p) := by
  unfold Abrupt.runBody
  refine .bind (hoist_traces fuel _) fun _ => .bind (.lift (.read _)) fun main => ?_
  cases main with
  | none => exact .lift (.fail _)
  | some main => exact .step (fun _ => rfl) (fun _ => rfl) _ _ _ ((tracing fuel).callClosure _ _)

/-- The bottom frame of a run takes part in no call, so its end leaves no event. -/
theorem runWith_trace (fuel : Nat) (p : Program) (m : Machine) :
    ∃ events, (Abrupt.runWith fuel p ⟨m, []⟩).2.events = events ∧
      (Abrupt.runWith fuel p ⟨m, []⟩).2.machine.log.next =
        m.log.next + events.countP (·.isStep) ∧ Orderly events := by
  obtain ⟨new, hn⟩ := runBody_traces fuel p
    (Span.enter Session.topLevelName Machine.globalScope ⟨m, []⟩)
    ⟨Session.topLevelName, Machine.globalScope, m.framesMade⟩ m.stack rfl (Nat.lt_succ_self _)
  have entering : Abrupt.lift (Eval.pushFrame Session.topLevelName Machine.globalScope) ⟨m, []⟩ =
      (.value m.framesMade, Span.enter Session.topLevelName Machine.globalScope ⟨m, []⟩) := rfl
  rw [Abrupt.runWith, Abrupt.bind_run, entering]
  dsimp only
  rw [Abrupt.bind_run]
  rcases hb : Abrupt.runBody fuel p (Span.enter Session.topLevelName Machine.globalScope ⟨m, []⟩)
    with ⟨e, t⟩
  rw [hb] at hn
  cases e <;> exact ⟨new, hn.events, hn.steps, hn.orderly⟩

/-- Pending returns do what abrupt returns do. Whatever the fuel, a run ends as the run with abrupt
returns and in the same state: the same scopes, output, step log and call stack. The trace has all
the steps that the log counts, and is in order. -/
theorem returns_unwind (m : Machine) (p : Program) :
    m.run p = Abrupt.run m p ∧
    ∀ fuel, ∃ events,
      Abrupt.runWith fuel p ⟨m, []⟩ =
        ((Session.runWith fuel p m).1.ending .value, ⟨(Session.runWith fuel p m).2, events⟩) ∧
      (Session.runWith fuel p m).2.log.next = m.log.next + events.countP (·.isStep) ∧
      Orderly events := by
  refine ⟨?_, fun fuel => ?_⟩
  · obtain ⟨h₁, h₂⟩ := runWith_follows Evaluator.fuel p ⟨m, []⟩
    unfold Machine.run Abrupt.run
    rcases hr : Session.runWith Evaluator.fuel p m with ⟨o, m'⟩
    rcases ha : Abrupt.runWith Evaluator.fuel p ⟨m, []⟩ with ⟨e, t⟩
    rw [hr, ha] at h₁ h₂
    dsimp only at h₁ h₂
    subst h₁ h₂
    cases o <;> rfl
  · obtain ⟨h₁, h₂⟩ := runWith_follows fuel p ⟨m, []⟩
    obtain ⟨events, he, hs, ho⟩ := runWith_trace fuel p m
    refine ⟨events, ?_, h₂ ▸ hs, ho⟩
    rw [← h₁, ← h₂, ← he]

end ScriptLang
