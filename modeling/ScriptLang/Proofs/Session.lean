import ScriptLang.Proofs.Evaluator.CallStack

/-!
# The call stack over a session

A run that succeeds leaves the call stack as it found it. A run that fails leaves its own frames on
top of those of earlier failures, and the step log tells how the run got there: each frame but the
innermost is in a call, and the latest steps are the later the further in the frame is.

A run is a computation in a frame of its own, so what it leaves is what `keeping` says of every
computation; over a session only the soundness of the log has to be kept.

Results:
* `sound_runs`: the log of a session has counted its steps;
* `run_leaves_trail`: what any run of any session leaves on the call stack.
-/
namespace ScriptLang

/-- The fault of a run that fails, and the index of the last step before it. -/
def RunResult.fault? : RunResult → Option (Fault × Option Nat)
  | .fault f step => some (f, step)
  | .value _ | .outOfFuel => none

theorem RunResult.fault?_eq_some {r : RunResult} {f : Fault} {step : Option Nat} :
    r.fault? = some (f, step) ↔ r = .fault f step := by
  cases r <;> simp [fault?]

namespace Session

open Evaluator (callRule)

/-! ## A run in its frame -/

theorem hoist_keeps (fuel : Nat) (nodes : List Node) : Keeps (hoist fuel nodes) := by
  induction nodes with
  | nil => exact .quiet (.pure _)
  | cons node nodes ih =>
    unfold hoist
    cases node with
    | function name params body => exact .bind ((keeping fuel).execute _ _) fun _ => ih
    | _ => exact ih

theorem runBody_keeps (fuel : Nat) (p : Program) : Keeps (runBody fuel p) := by
  unfold runBody
  refine .bind (hoist_keeps fuel _) fun _ => .bind (.quiet (.read _)) fun main => ?_
  cases main with
  | none => exact .quiet (.fail _)
  | some main => exact .call ((keeping fuel).callClosure _ _) _ _

def bottom (m : Machine) : Frame := Within.callee topLevelName Machine.globalScope m

def start (m : Machine) : Machine := Within.enter topLevelName Machine.globalScope m

/-- A run is its body in a frame at the bottom, which only a value takes away again. -/
theorem runWith_eq (fuel : Nat) (p : Program) (m : Machine) :
    runWith fuel p m =
      match runBody fuel p (start m) with
      | (.value v, m) => (.value v, { m with stack := m.stack.tail })
      | r => r := by
  have entering : Eval.pushFrame topLevelName Machine.globalScope m =
      (.value m.framesMade, start m) := rfl
  rw [runWith, Eval.bind_run, entering]
  dsimp only
  rw [Eval.bind_run]
  rcases runBody fuel p (start m) with ⟨o, m₁⟩
  cases o <;> rfl

/-- A run with a given amount of fuel, as it is reported. -/
def runFor (fuel : Nat) (p : Program) (m : Machine) : RunResult × Machine :=
  match runWith fuel p m with
  | (.value v, m) => (.value v, m)
  | (.fault f, m) => (.fault f (m.log.last.map (·.index)), m)
  | (.outOfFuel, m) => (.outOfFuel, m)

theorem runBody_within (fuel : Nat) (p : Program) {m : Machine} (hl : m.log.Sound) :
    ∃ above, Within (bottom m) m.stack (start m) above (runBody fuel p (start m)).1.kind
      (runBody fuel p (start m)).2 :=
  runBody_keeps fuel p (start m) (bottom m) m.stack ⟨rfl, Nat.lt_succ_self _, hl⟩

/-! ## Sessions -/

/-- Some runs, one after another, on one machine. -/
def runs (m : Machine) (programs : List Program) : Machine :=
  programs.foldl (fun m p => (m.run p).2) m

theorem sound_run {m : Machine} (hl : m.log.Sound) (p : Program) : (m.run p).2.log.Sound := by
  obtain ⟨above, h⟩ := runBody_within Evaluator.fuel p hl
  unfold Machine.run
  rw [runWith_eq]
  generalize runBody Evaluator.fuel p (start m) = r at h
  obtain ⟨o, m₁⟩ := r
  cases o <;> exact h.sound

theorem sound_runs {m : Machine} (hl : m.log.Sound) (programs : List Program) :
    (runs m programs).log.Sound := by
  induction programs generalizing m with
  | nil => exact hl
  | cons p programs ih => exact ih (sound_run hl p)

/-! ## What a run leaves on the call stack -/

/-- What the log tells of the frames `own` that a failed run leaves behind, the outermost first, when
`last` is the index of its last step. -/
structure Trail (log : StepLog) (own : List Frame) (last : Option Nat) : Prop where
  bottom : own.head?.map (·.name) = some topLevelName
  calling : ∀ frame ∈ own.dropLast, ∃ s, log.latestOf frame.id = some s ∧ s.rule = callRule
  logged : ∀ frame ∈ own.tail, ∃ s, log.latestOf frame.id = some s
  ascending : (own.filterMap fun frame => log.latestOf frame.id).Pairwise (·.index < ·.index)
  past : ∀ frame ∈ own, ∀ s, log.latestOf frame.id = some s → ∃ n, last = some n ∧ s.index ≤ n
  counted : last = if log.next = 0 then none else some (log.next - 1)

/-- The frames of a stack on which each has gone on since the call of any below it. -/
theorem Trail.of_called {log : StepLog} (hl : log.Sound) {above : List Frame} {f : Frame}
    (hname : f.name = topLevelName) (h : (above ++ [f]).Pairwise log.Called) :
    Trail log (f :: above.reverse) (log.last.map (·.index)) where
  bottom := congrArg some hname
  calling := by
    cases above with
    | nil => simp
    | cons g above =>
      intro frame hframe
      rw [List.reverse_cons, ← List.cons_append, List.dropLast_concat, List.mem_cons,
        List.mem_reverse] at hframe
      obtain ⟨-, earlier, -, hs, hrule, -⟩ :=
        List.rel_of_pairwise_cons h (List.mem_append.mpr (hframe.symm.imp_right (by simp)))
      exact ⟨earlier, hs, hrule⟩
  logged frame hframe := by
    obtain ⟨later, -, hs, -⟩ :=
      (List.pairwise_append.mp h).2.2 frame (List.mem_reverse.mp hframe) f
        (List.mem_singleton_self _)
    exact ⟨later, hs⟩
  ascending := by
    have hrev : (f :: above.reverse).Pairwise fun below above => log.Called above below := by
      rw [← List.pairwise_reverse]
      simpa using h
    refine hrev.filterMap _ fun g k hcalled s hs t ht => ?_
    obtain ⟨later, earlier, hlater, hearlier, -, hlt⟩ := hcalled
    cases ht.symm.trans hlater
    cases hs.symm.trans hearlier
    exact hlt
  past frame _ s hs := by
    have hlt := hl.latestOf hs
    refine ⟨log.next - 1, ?_, Nat.le_sub_one_of_lt hlt⟩
    rw [hl.last, if_neg (Nat.ne_of_gt (Nat.zero_lt_of_lt hlt))]
  counted := hl.last

/-- Whatever has been run before on the same machine, and whatever takes its lines, a run that succeeds
leaves the call stack as it was, and a run that fails leaves its trail on top of it. -/
theorem run_leaves_trail (sink : Sink) (verbose : Bool) (earlier : List Program) (p : Program) :
    match (runs (.freshInto sink verbose) earlier).run p with
    | (.value _, m') => m'.stack = (runs (.freshInto sink verbose) earlier).stack
    | (.fault _ last, m') =>
      ∃ own, m'.stack.reverse = (runs (.freshInto sink verbose) earlier).stack.reverse ++ own ∧
        Trail m'.log own last
    | (.outOfFuel, m') =>
      ∃ own, m'.stack.reverse = (runs (.freshInto sink verbose) earlier).stack.reverse ++ own := by
  have hl : (runs (.freshInto sink verbose) earlier).log.Sound :=
    sound_runs StepLog.sound_empty earlier
  generalize runs (.freshInto sink verbose) earlier = m at hl ⊢
  obtain ⟨above, h⟩ := runBody_within Evaluator.fuel p hl
  unfold Machine.run
  rw [runWith_eq]
  generalize runBody Evaluator.fuel p (start m) = r at h
  obtain ⟨o, m₁⟩ := r
  have hstack : m₁.stack.reverse = m.stack.reverse ++ bottom m :: above.reverse := by
    rw [h.stack]
    simp
  cases o with
  | value v =>
    show m₁.stack.tail = m.stack
    rw [h.stack, h.value rfl]
    rfl
  | fault e => exact ⟨_, hstack, .of_called h.sound rfl (h.trail rfl)⟩
  | outOfFuel => exact ⟨_, hstack⟩

/-- `main` calls a function that reads a name nobody declares. -/
def astray : Program where
  statements :=
    [.function (.str "f") [] [.expression (.identifier (.str "x"))],
      .function (.str "main") [] [.ret (some (.call (.str "f") []))]]

/-- Run again, `main` fails in the same call, and its frames stand on top of the earlier ones. -/
theorem astray_leaves_trail :
    ∃ f m' own, (runs (.freshInto .unlimited false) [astray]).run ⟨[]⟩ = (.fault f (some 9), m') ∧
      m'.stack.reverse = (runs (.freshInto .unlimited false) [astray]).stack.reverse ++ own ∧
      m'.stack.reverse.map (·.name) =
        [topLevelName, .str "main", .str "f", topLevelName, .str "main", .str "f"] ∧
      Trail m'.log own (some 9) := by
  have hstep : (match ((runs (.freshInto .unlimited false) [astray]).run ⟨[]⟩).1 with
      | .fault _ last => last
      | _ => none) = some 9 := by decide +kernel
  have hnames : ((runs (.freshInto .unlimited false) [astray]).run ⟨[]⟩).2.stack.reverse.map (·.name) =
      [topLevelName, .str "main", .str "f", topLevelName, .str "main", .str "f"] := by
    decide +kernel
  have h := run_leaves_trail .unlimited false [astray] ⟨[]⟩
  rcases hr : (runs (.freshInto .unlimited false) [astray]).run ⟨[]⟩ with ⟨r, m'⟩
  rw [hr] at hstep hnames h
  cases r with
  | value v => cases hstep
  | fault f last =>
    cases hstep
    obtain ⟨own, hstack, htrail⟩ := h
    exact ⟨f, m', own, rfl, hstack, hnames, htrail⟩
  | outOfFuel => cases hstep

end Session

end ScriptLang
