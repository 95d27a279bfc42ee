import ScriptLang.Proofs.Evaluator.Retention
import ScriptLang.Proofs.Session

/-!
# What the step log retains over a session

A call forgets its frame, but a run that ends with a value leaves its bottom frame without forgetting
it, though it has logged the call of `main` there. So a session retains an entry for each run that has
succeeded, besides those of the frames on the call stack.

Results:
* `retains_runs`: the invariant over a session;
* `retained_by_runs`: which entries a session retains, and how many.
-/
namespace ScriptLang.Session

open Evaluator (callRule)
open Machine (Retains)

/-! ## The bottom frame of a run -/

/-- A run that ends with a value has called `main` in its bottom frame. -/
theorem runBody_logs {fuel : Nat} {p : Program} {m m' : Machine} {f : Frame} {rest : List Frame}
    {v : Value} (hm : InFrame m f rest) (hrun : runBody fuel p m = (.value v, m')) :
    f.id ∈ m'.log.frames := by
  obtain ⟨⟨⟩, m₁, hhoist, hrun⟩ := Eval.bind_value hrun
  obtain ⟨above, hhoisted⟩ := hoist_keeps fuel p.statements m f rest hm
  rw [hhoist] at hhoisted
  cases hhoisted.value rfl
  have hm₁ := hhoisted.inFrame hm
  obtain ⟨main, m₁', hread, hrun⟩ := Eval.bind_value hrun
  obtain rfl : m₁ = m₁' := congrArg Prod.snd hread
  cases main with
  | none => cases hrun
  | some main =>
    obtain ⟨⟨⟩, m₂, hstep, hcall⟩ := Eval.bind_value hrun
    rcases Eval.step_cases hm₁.stack callRule Machine.globalScope (some (mainName, []))
      with ⟨detail, snapshot, hlogs⟩ | ⟨e, hfails⟩
    · cases hlogs.symm.trans hstep
      have hlogged : Within f rest m₁ [] .value _ := .logged hm₁ callRule detail snapshot
      have hentry := (StepLog.latestOf_record m₁.log f.id f.id callRule detail snapshot).trans
        (if_pos rfl)
      obtain ⟨above, hcalled⟩ := (keeping fuel).callClosure main [] _ f rest (hlogged.inFrame hm₁)
        ⟨_, hentry, rfl⟩
      obtain ⟨step, hlatest, -⟩ := hcalled.own _ hentry
      rw [hcall] at hlatest
      rw [StepLog.mem_frames, hlatest]
      rfl
    · cases hfails.symm.trans hstep

/-! ## Sessions -/

/-- The bottom frames of those runs that end with a value, in order. -/
def finished (m : Machine) : List Program → List FrameId
  | [] => []
  | p :: programs =>
    match m.run p with
    | (.value _, m') => (bottom m).id :: finished m' programs
    | (_, m') => finished m' programs

variable {kept : List FrameId} {m : Machine}

theorem retains_start (h : m.Retains kept) : (start m).Retains kept := h.enter _ _

/-- A run keeps its bottom frame iff it ends with a value. -/
theorem retains_run (h : m.Retains kept) (hl : m.log.Sound) (p : Program) :
    match m.run p with
    | (.value _, m') => m'.Retains (kept ++ [(bottom m).id])
    | (_, m') => m'.Retains kept := by
  have hbody := (retaining kept).runBody (n := 0) Evaluator.fuel (p := p) trivial
    (fun _ _ => trivial) (start m) (retains_start h)
  unfold Machine.run
  rw [runWith_eq]
  rcases hrun : runBody Evaluator.fuel p (start m) with ⟨o, m₁⟩
  rw [hrun] at hbody
  cases o with
  | value v =>
    obtain ⟨hstack, -⟩ := hbody.value v rfl
    have hin : InFrame (start m) (bottom m) m.stack := ⟨rfl, Nat.lt_succ_self _, hl⟩
    have hnew : (bottom m).id ∉ m.stack.map Frame.id := fun hid => Nat.lt_irrefl _ (h.made _ hid)
    have htail : m₁.stack.tail = m.stack := by rw [hstack]; rfl
    show Retains _ { m₁ with stack := m₁.stack.tail }
    rw [htail]
    exact hbody.retains.keep hstack (runBody_logs hin hrun) hnew
  | fault f => exact hbody.retains
  | outOfFuel => exact hbody.retains

theorem retains_runs (h : m.Retains kept) (hl : m.log.Sound) (programs : List Program) :
    (runs m programs).Retains (kept ++ finished m programs) := by
  induction programs generalizing m kept with
  | nil => rwa [finished, List.append_nil]
  | cons p programs ih =>
    have hrun := retains_run h hl p
    have hl' := sound_run hl p
    unfold finished
    show (runs (m.run p).2 programs).Retains _
    rcases hr : m.run p with ⟨r, m'⟩
    rw [hr] at hrun hl'
    cases r with
    | value v =>
      have hrest := ih hrun hl'
      rwa [List.append_assoc] at hrest
    | fault f step => exact ih hrun hl'
    | outOfFuel => exact ih hrun hl'

/-- Whatever is run on a machine, the log retains an entry for each run that ended with a value, of its
bottom frame, which is not on the call stack any more; all other entries are of frames on the stack.
So it is only as long as no run has succeeded that the log has entries of live frames only. -/
theorem retained_by_runs (verbose : Bool) (sinkLimit : Option Nat) (programs : List Program) :
    let m := runs (.fresh verbose sinkLimit) programs
    let kept := finished (.fresh verbose sinkLimit) programs
    (∀ id ∈ m.log.frames, id ∈ m.live ∨ id ∈ kept) ∧
      (∀ id ∈ kept, id ∈ m.log.frames ∧ id ∉ m.live) ∧
      kept.length ≤ m.log.latest.length ∧ m.log.latest.length ≤ m.stack.length + kept.length ∧
      (m.RetainsLiveOnly ↔ kept = []) := by
  intro m kept
  have h : m.Retains kept :=
    retains_runs (.fresh verbose sinkLimit) StepLog.sound_empty programs
  refine ⟨h.retained, fun id hid => ⟨h.logged id hid, h.gone id hid⟩, h.le_length, h.length_le, ?_⟩
  constructor
  · intro honly
    refine List.eq_nil_iff_forall_not_mem.mpr fun id hid => ?_
    exact h.gone id hid (honly id (h.logged id hid))
  · intro hkept id hid
    exact (h.retained id hid).resolve_right (by simp [hkept])

/-- `main` does nothing. -/
def idle : Program where
  statements := [.function (.str "main") [] []]

/-- After one run that does nothing, the log has an entry though the call stack is empty. -/
theorem idle_retained :
    (runs (.fresh false none) [idle]).stack = [] ∧
      (runs (.fresh false none) [idle]).log.frames = [0] ∧
      ¬ (runs (.fresh false none) [idle]).RetainsLiveOnly := by
  have hstack : (runs (.fresh false none) [idle]).stack = [] := by decide +kernel
  have hframes : (runs (.fresh false none) [idle]).log.frames = [0] := by decide +kernel
  refine ⟨hstack, hframes, fun honly => ?_⟩
  have hlive := honly 0 (hframes ▸ List.mem_singleton_self 0)
  rw [Machine.live, hstack] at hlive
  cases hlive

end ScriptLang.Session
