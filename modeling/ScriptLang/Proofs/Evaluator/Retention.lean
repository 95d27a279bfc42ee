import Mathlib.Data.List.Perm.Subperm
import ScriptLang.Proofs.Evaluator.CallStack
import ScriptLang.Proofs.Evaluator.Logic

/-!
# Entries that the step log retains

A call forgets its frame when it leaves it, so a computation adds entries of frames on the call stack
only. Some frames that have left the stack may have been kept from before: `Retains kept` says that
these and no others have an entry without being on the stack.

Results:
* `Machine.Retains`: the invariant, with a lemma for each thing that happens to a frame;
* `retaining`: the logic of the invariant, for any code.
-/
namespace ScriptLang

variable {α β : Type}

namespace Machine

def live (m : Machine) : List FrameId := m.stack.map Frame.id

/-- The log has entries of frames on the call stack only. -/
def RetainsLiveOnly (m : Machine) : Prop := ∀ id ∈ m.log.frames, id ∈ m.live

/-- Of the frames that are not on the call stack, those of `kept` have an entry in the log, and no
others. -/
structure Retains (kept : List FrameId) (m : Machine) : Prop where
  ordered : m.log.Ordered
  made : ∀ id ∈ m.live, id < m.framesMade
  retained : ∀ id ∈ m.log.frames, id ∈ m.live ∨ id ∈ kept
  distinct : kept.Nodup
  past : ∀ id ∈ kept, id < m.framesMade
  gone : ∀ id ∈ kept, id ∉ m.live
  logged : ∀ id ∈ kept, id ∈ m.log.frames

namespace Retains

variable {kept : List FrameId} {m : Machine} {f : Frame} {rest : List Frame}

theorem fresh (verbose : Bool) (sinkLimit : Option Nat) :
    (Machine.fresh verbose sinkLimit).Retains [] where
  ordered := StepLog.ordered_empty
  made _ h := nomatch h
  retained _ h := nomatch h
  distinct := .nil
  past _ h := nomatch h
  gone _ h := nomatch h
  logged _ h := nomatch h

/-- A change of scopes and output only. -/
theorem still {m' : Machine} (h : m.Retains kept) (hstack : m'.stack = m.stack)
    (hmade : m'.framesMade = m.framesMade) (hlog : m'.log = m.log) : m'.Retains kept := by
  have hlive : m'.live = m.live := by rw [live, live, hstack]
  exact {
    ordered := hlog ▸ h.ordered
    made := by rw [hlive, hmade]; exact h.made
    retained := by rw [hlive, hlog]; exact h.retained
    distinct := h.distinct
    past := by rw [hmade]; exact h.past
    gone := by rw [hlive]; exact h.gone
    logged := by rw [hlog]; exact h.logged }

theorem enter (h : m.Retains kept) (name : Json) (scope : ScopeId) :
    (Within.enter name scope m).Retains kept where
  ordered := h.ordered
  made := List.forall_mem_cons.mpr
    ⟨Nat.lt_succ_self _, fun id hid => Nat.lt_succ_of_lt (h.made id hid)⟩
  retained id hid := (h.retained id hid).imp_left (List.mem_cons_of_mem _)
  distinct := h.distinct
  past id hid := Nat.lt_succ_of_lt (h.past id hid)
  gone id hid hlive := (List.mem_cons.mp hlive).elim (Nat.ne_of_lt (h.past id hid)) (h.gone id hid)
  logged := h.logged

theorem record (h : m.Retains kept) (hstack : m.stack = f :: rest) (rule : Json)
    (detail : Option CallDetail) (snapshot : Option Snapshot) :
    { m with log := m.log.record f.id rule detail snapshot : Machine }.Retains kept where
  ordered := h.ordered.record _ _ _ _
  made := h.made
  retained id hid := by
    rcases StepLog.mem_frames_record.mp hid with rfl | hid
    · exact .inl (List.mem_map_of_mem (hstack ▸ List.mem_cons_self))
    · exact h.retained id hid
  distinct := h.distinct
  past := h.past
  gone := h.gone
  logged id hid := StepLog.mem_frames_record.mpr (.inr (h.logged id hid))

theorem live_cons (hstack : m.stack = f :: rest) : m.live = f.id :: rest.map Frame.id := by
  rw [live, hstack, List.map_cons]

/-- A frame is left and forgotten. -/
theorem leave (h : m.Retains kept) (hstack : m.stack = f :: rest) :
    { m with stack := rest, log := m.log.forget f.id : Machine }.Retains kept := by
  obtain ⟨ordered, made, retained, distinct, past, gone, logged⟩ := h
  rw [live_cons hstack] at made retained gone
  exact {
    ordered := ordered.forget _
    made := fun id hid => made id (List.mem_cons_of_mem _ hid)
    retained := fun id hid => by
      obtain ⟨hne, hid⟩ := ordered.mem_frames_forget.mp hid
      exact (retained id hid).imp_left fun hlive => (List.mem_cons.mp hlive).resolve_left hne
    distinct
    past
    gone := fun id hid hlive => gone id hid (List.mem_cons_of_mem _ hlive)
    logged := fun id hid => by
      have hne : id ≠ f.id := fun heq => gone id hid (heq ▸ List.mem_cons_self)
      exact ordered.mem_frames_forget.mpr ⟨hne, logged id hid⟩ }

/-- A frame is left, and is not forgotten. -/
theorem keep (h : m.Retains kept) (hstack : m.stack = f :: rest)
    (hlogged : f.id ∈ m.log.frames) (hnew : f.id ∉ rest.map Frame.id) :
    { m with stack := rest : Machine }.Retains (kept ++ [f.id]) := by
  obtain ⟨ordered, made, retained, distinct, past, gone, logged⟩ := h
  rw [live_cons hstack] at made retained gone
  have both {P : FrameId → Prop} (hkept : ∀ id ∈ kept, P id) (hf : P f.id) :
      ∀ id ∈ kept ++ [f.id], P id :=
    List.forall_mem_append.mpr ⟨hkept, List.forall_mem_singleton.mpr hf⟩
  exact {
    ordered
    made := fun id hid => made id (List.mem_cons_of_mem _ hid)
    retained := fun id hid => by
      rw [List.mem_append, List.mem_singleton]
      rcases retained id hid with hlive | hkept
      · exact (List.mem_cons.mp hlive).elim (fun heq => .inr (.inr heq)) .inl
      · exact .inr (.inl hkept)
    distinct := by
      refine List.nodup_append.mpr ⟨distinct, List.pairwise_singleton _ _, fun id hid _ hf heq => ?_⟩
      rw [List.mem_singleton.mp hf] at heq
      exact gone id hid (heq ▸ List.mem_cons_self)
    past := both past (made f.id List.mem_cons_self)
    gone := both (fun id hid hlive => gone id hid (List.mem_cons_of_mem _ hlive)) hnew
    logged := both logged hlogged }

theorem le_length (h : m.Retains kept) : kept.length ≤ m.log.latest.length := by
  have hle := (List.subperm_of_subset h.distinct h.logged).length_le
  rwa [StepLog.length_frames] at hle

/-- What is retained is bounded by the depth of the stack and the number of frames kept. -/
theorem length_le (h : m.Retains kept) : m.log.latest.length ≤ m.stack.length + kept.length := by
  have hsub : m.log.frames ⊆ m.live ++ kept := fun id hid => List.mem_append.mpr (h.retained id hid)
  have hle := (List.subperm_of_subset h.ordered.nodup hsub).length_le
  rwa [List.length_append, StepLog.length_frames, live, List.length_map] at hle

end Retains

end Machine

/-! ## The logic -/

/-- The invariant holds after a computation with the outcome `o`, and a value is as `Q` says and
leaves the call stack as it was. -/
structure Retaining (kept : List FrameId) (n : Nat) (Q : Nat → α → Prop) (m : Machine)
    (o : Outcome α) (m' : Machine) : Prop where
  retains : m'.Retains kept
  value : ∀ a, o = .value a → m'.stack = m.stack ∧ ∃ n', n ≤ n' ∧ Q n' a

def Retainer (kept : List FrameId) (n : Nat) (Q : Nat → α → Prop) (x : Eval α) : Prop :=
  ∀ m, m.Retains kept → Retaining kept n Q m (x m).1 (x m).2

namespace Retainer

variable {kept : List FrameId} {n : Nat} {P : Nat → α → Prop} {Q : Nat → β → Prop}

theorem quiet {x : Eval α} (h : Eval.Quiet x) (hP : ∀ a, P n a) : Retainer kept n P x := by
  intro m hm
  obtain ⟨hstack, hmade, hlog⟩ := h m
  exact ⟨hm.still hstack hmade hlog, fun a _ => ⟨hstack, n, Nat.le_refl _, hP a⟩⟩

theorem fail (f : Fault) : Retainer kept n P (Eval.fail f) := fun _ hm => ⟨hm, by rintro _ ⟨⟩⟩

theorem exhausted : Retainer kept n P Eval.exhausted := fun _ hm => ⟨hm, by rintro _ ⟨⟩⟩

theorem bind {x : Eval α} {k : α → Eval β} (hx : Retainer kept n P x)
    (hk : ∀ n' a, n ≤ n' → P n' a → Retainer kept n' Q (k a)) : Retainer kept n Q (x >>= k) := by
  intro m hm
  have hfirst := hx m hm
  rw [Eval.bind_run]
  rcases hrun : x m with ⟨o, m₁⟩
  rw [hrun] at hfirst
  cases o with
  | value a =>
    obtain ⟨hstack, n', hle, ha⟩ := hfirst.value a rfl
    have hrest := hk n' a hle ha m₁ hfirst.retains
    refine ⟨hrest.retains, fun b hb => ?_⟩
    obtain ⟨hstack', n'', hle', hb⟩ := hrest.value b hb
    exact ⟨hstack'.trans hstack, n'', Nat.le_trans hle hle', hb⟩
  | fault f => exact ⟨hfirst.retains, by rintro _ ⟨⟩⟩
  | outOfFuel => exact ⟨hfirst.retains, by rintro _ ⟨⟩⟩

theorem step (rule : Json) (scope : ScopeId) (call : Option (Json × List Value)) :
    Retainer kept n (fun _ _ => True) (Eval.step rule scope call) := by
  intro m hm
  rcases hstack : m.stack with _ | ⟨f, rest⟩
  · have hstep : Eval.step rule scope call m = (.value (), m) := by rw [Eval.step, hstack]
    rw [hstep]
    exact ⟨hm, fun _ _ => ⟨rfl, n, Nat.le_refl _, trivial⟩⟩
  · rcases Eval.step_cases hstack rule scope call with ⟨detail, snapshot, hstep⟩ | ⟨e, hstep⟩
    · rw [hstep]
      exact ⟨hm.record hstack _ _ _, fun _ _ => ⟨rfl, n, Nat.le_refl _, trivial⟩⟩
    · rw [hstep]
      exact ⟨hm, by rintro _ ⟨⟩⟩

/-- A body in a frame of its own, which is forgotten when the body has a value. -/
theorem invoke {body : Eval Completion} (hbody : Retainer kept n (fun _ _ => True) body)
    (name : Json) (scope : ScopeId) :
    Retainer kept n (fun _ _ => True) (do
      let frame ← Eval.pushFrame name scope
      let completion ← body
      Eval.popFrame
      Eval.forgetFrame frame
      return completion.result) := by
  intro m hm
  have hinside := hbody _ (hm.enter name scope)
  have entering : Eval.pushFrame name scope m = (.value m.framesMade, Within.enter name scope m) :=
    rfl
  rw [Eval.bind_run, entering]
  dsimp only
  rw [Eval.bind_run]
  rcases hrun : body (Within.enter name scope m) with ⟨o, m₁⟩
  rw [hrun] at hinside
  cases o with
  | value c =>
    obtain ⟨hstack, -⟩ := hinside.value c rfl
    have hleft := hinside.retains.leave hstack
    have htail : m₁.stack.tail = m.stack := by rw [hstack]; rfl
    refine ⟨?_, fun _ _ => ⟨htail, n, Nat.le_refl _, trivial⟩⟩
    exact hleft.still htail rfl rfl
  | fault f => exact ⟨hinside.retains, by rintro _ ⟨⟩⟩
  | outOfFuel => exact ⟨hinside.retains, by rintro _ ⟨⟩⟩

end Retainer

/-- The logic of the invariant: it is about nothing but frames. -/
def retaining (kept : List FrameId) : Logic Code.any where
  Sees _ _ := True
  Owns _ _ := True
  Holds _ _ := True
  Allows _ := True
  Meets n Q x := Retainer kept n Q x
  sees_mono _ _ := trivial
  owns_mono _ _ := trivial
  holds_mono _ _ := trivial
  sees _ := trivial
  holds_null := trivial
  holds_literal _ := trivial
  holds_function _ _ := trivial
  of_closure _ := Code.any_closure _
  allows_stray _ := trivial
  allows_unlinked _ := trivial
  allows_notAFunction _ := trivial
  allows_mainMissing := trivial
  pure h := fun _ hm => ⟨hm, by rintro _ ⟨⟩; exact ⟨rfl, _, Nat.le_refl _, h _ (Nat.le_refl _)⟩⟩
  bind := .bind
  exhausted := .exhausted
  fail _ := .fail _
  newScope _ := .quiet (.newScope _) fun _ => trivial
  lookup _ _ := .quiet (.lookup _ _) fun _ => trivial
  declare _ _ _ := .quiet (.declare _ _ _) fun _ => trivial
  assign _ _ _ := .quiet (.assign _ _ _) fun _ => trivial
  apply _ _ _ := .quiet (.ofExcept _) fun _ => trivial
  step rule _ _ _ := .step rule _ _
  callBuiltin _ := .quiet (.callBuiltin _) fun _ => trivial
  invoke x _ _ hbody := .invoke (hbody _ (Nat.le_refl _)) x _
  main := .quiet (.read _) fun _ _ _ => trivial

end ScriptLang
