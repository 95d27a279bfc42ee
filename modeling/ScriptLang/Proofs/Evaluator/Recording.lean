import ScriptLang.Proofs.Evaluator.Framing
import ScriptLang.Proofs.History
import ScriptLang.Proofs.Reached

/-!
# The history of a session

Whatever the evaluator runs, it changes the stack and the log by making, leaving and forgetting frames
and by logging steps of the innermost one, and by nothing else. So every machine that a session comes
by has a history, and what runs on there goes on with it. The log tells the truth about each.

Results:
* `recording`, `recording_pervades`: the logic of machines with a history;
* `Session.reached_consistent`: what the log of a session tells.
-/
namespace ScriptLang

/-- The first machine leads to this one. -/
def Machine.ComesFrom (first m : Machine) : Prop := ∃ past, Course first past m

namespace Machine.ComesFrom

variable {α : Type} {first : Machine} {n : Nat}

/-- A computation that leaves the log alone, and makes and leaves no frame. -/
theorem quiet {x : Eval α} (hx : x.Quiet)
    (hgrows : ∀ m, m.scopes.size ≤ (x m).2.scopes.size) :
    Maintains (Machine.ComesFrom first) n (fun _ _ => True) x := by
  rintro m _ ⟨past, hm⟩
  obtain ⟨hstack, hmade, hlog⟩ := hx m
  exact ⟨hgrows m, ⟨past, .aside hm hstack hmade hlog⟩, fun _ _ => trivial⟩

theorem unscoped {x : Eval α} (hx : x.Quiet) (hscopes : x.Unscoped) :
    Maintains (Machine.ComesFrom first) n (fun _ _ => True) x :=
  quiet hx fun m => Nat.le_of_eq (congrArg Scopes.size (hscopes m).2.2.1.symm)

theorem newScope (parent : ScopeId) :
    Maintains (Machine.ComesFrom first) n (fun _ _ => True) (Eval.newScope parent) :=
  quiet (.newScope parent) fun m => by simp [Eval.newScope]

theorem declare (scope : ScopeId) (x : Json) (v : Value) :
    Maintains (Machine.ComesFrom first) n (fun _ _ => True) (Eval.declare scope x v) := by
  refine quiet (.declare scope x v) fun m => ?_
  rw [Eval.declare_run]
  split <;> simp

theorem assign (scope : ScopeId) (x : Json) (v : Value) :
    Maintains (Machine.ComesFrom first) n (fun _ _ => True) (Eval.assign scope x v) := by
  refine quiet (.assign scope x v) fun m => ?_
  rw [Eval.assign_run]
  split <;> simp

/-- A step is one of the innermost frame, if there is any and the step can be noted. -/
theorem step (rule : Json) (scope : ScopeId) (call : Option (Json × List Value)) :
    Maintains (Machine.ComesFrom first) n (fun _ _ => True) (Eval.step rule scope call) := by
  rintro m _ ⟨past, hm⟩
  cases hstack : m.stack with
  | nil =>
    rw [Eval.step, hstack]
    exact ⟨Nat.le_refl _, ⟨past, hm⟩, fun _ _ => trivial⟩
  | cons frame below =>
    obtain ⟨detail, snapshot, hlogs⟩ | ⟨f, hfails⟩ := Eval.step_cases hstack rule scope call
    · rw [hlogs]
      exact ⟨Nat.le_refl _, ⟨_, .record rule detail snapshot hm hstack⟩, fun _ _ => trivial⟩
    · rw [hfails]
      exact ⟨Nat.le_refl _, ⟨past, hm⟩, fun _ _ => trivial⟩

theorem pushFrame {m : Machine} (x : Json) (scope : ScopeId) (hm : first.ComesFrom m) :
    first.ComesFrom (Eval.pushFrame x scope m).2 :=
  hm.imp' _ fun _ hpast => .enter x scope hpast

theorem popFrame {m : Machine} (hm : first.ComesFrom m) :
    first.ComesFrom { m with stack := m.stack.tail } :=
  hm.imp fun _ hpast => .leave hpast

theorem forgetFrame {m : Machine} (id : FrameId) (hm : first.ComesFrom m) :
    first.ComesFrom { m with log := m.log.forget id } :=
  hm.imp fun _ hpast => .forget id hpast

end Machine.ComesFrom

/-- The logic of machines with a history. It asks nothing of the code and knows nothing of values. -/
def recording (first : Machine) : Logic Code.any where
  Sees _ _ := True
  Owns _ _ := True
  Holds _ _ := True
  Allows _ := True
  Meets n Q x := Maintains (Machine.ComesFrom first) n Q x
  sees_mono _ _ := trivial
  owns_mono _ _ := trivial
  holds_mono _ _ := trivial
  sees _ := trivial
  holds_null := trivial
  holds_literal _ := trivial
  holds_function _ _ := trivial
  of_closure _ := Code.any_closure _
  allows_stray _ := trivial
  allows_unlinked _ := trivial
  allows_notAFunction _ := trivial
  allows_mainMissing := trivial
  pure hq := .pure hq
  bind hx hk := .bind hx hk
  exhausted := .exhausted
  fail _ := .fail _
  newScope _ := Machine.ComesFrom.newScope _
  lookup _ _ := Machine.ComesFrom.unscoped (.lookup _ _) (.lookup _ _)
  declare _ _ _ := Machine.ComesFrom.declare _ _ _
  assign _ _ _ := Machine.ComesFrom.assign _ _ _
  apply _ _ _ := Machine.ComesFrom.unscoped (.ofExcept _) (.ofExcept _)
  step _ _ _ _ := Machine.ComesFrom.step _ _ _
  callBuiltin _ := Machine.ComesFrom.unscoped (.callBuiltin _) (.callBuiltin _)
  invoke x _ _ hbody :=
    .invoke (fun _ hm => hm.pushFrame x _) (fun _ hm => hm.popFrame) (fun _ id hm => hm.forgetFrame id)
      (hbody _ (Nat.le_refl _)) fun _ _ _ => trivial
  main := fun _ _ hm => ⟨Nat.le_refl _, hm, fun _ _ _ _ => trivial⟩

theorem recording_pervades (first : Machine) :
    (recording first).Pervades (Machine.ComesFrom first) where
  meets h := h
  pushFrame x _ hm := hm.pushFrame x _
  popFrame hm := hm.popFrame
  owns _ := trivial

theorem Task.fits_recording (task : Task) (first : Machine) (n : Nat) :
    task.Fits (recording first) n := by
  cases task <;> simp [Task.Fits, recording, Code.any]

namespace Session

theorem comesFrom_start (m : Machine) : m.ComesFrom m := ⟨[], .start⟩

/-- Every machine that a session comes by has a history, of whatever programs and into whatever sink.
Whatever the history of a machine is, its log tells the truth about it, and a run or any other activity
on the machine goes on with it. -/
theorem reached_consistent (sink : Sink) (verbose : Bool) :
    (∀ m, Reached (.freshInto sink verbose) m → ∃ past, Course (.freshInto sink verbose) past m) ∧
    ∀ past m, Course (.freshInto sink verbose) past m →
      past.Consistent m ∧
      (∀ p, ∃ more, Course (.freshInto sink verbose) (past ++ more) (m.run p).2) ∧
      ∀ fuel task m', Activity.ComesBy ⟨fuel, task, m⟩ m' →
        ∃ more, Course (.freshInto sink verbose) (past ++ more) m' := by
  refine ⟨fun m hm => hm.invariant (recording_pervades _) (comesFrom_start _), ?_⟩
  refine fun past m hpast => ⟨hpast.consistent, fun p => ?_, fun fuel task m' hm' => ?_⟩
  · obtain ⟨more, hmore⟩ := invariant_run (recording_pervades m) (comesFrom_start m) p
    exact ⟨more, hpast.trans hmore⟩
  · have hfits : Activity.Fits (recording m) (Machine.ComesFrom m) ⟨fuel, task, m⟩ :=
      ⟨comesFrom_start m, task.fits_recording m _⟩
    obtain ⟨more, hmore⟩ := (hm'.maintained (recording_pervades m) hfits).invariant
    exact ⟨more, hpast.trans hmore⟩

/-- After two failed runs of the same calls, and in the block that comes next. -/
theorem reached_consistent_astray :
    let first := Machine.freshInto .unlimited false
    let m := runs first [astray, ⟨[]⟩]
    let block : Activity := ⟨2, .block [] Machine.globalScope, m⟩
    Reached first m ∧
      (Traceback.frames m).map (fun entry => (frameName entry.1.id, entry.2.map (·.stateName))) =
        [("f_0000", some "s_000002"), ("f_0001", some "s_000004"), ("f_0002", some "s_000005"),
          ("f_0003", some "s_000006"), ("f_0004", some "s_000008"), ("f_0005", some "s_000009")] ∧
      ∃ past, Course first past m ∧ past.Consistent m ∧ past.frames.length = 6 ∧
        past.steps.length = 10 ∧
        (∃ more, Course first (past ++ more) (m.run astray).2) ∧
        block.ComesBy block.after ∧ ∃ more, Course first (past ++ more) block.after := by
  intro first m block
  obtain ⟨hcourse, htold⟩ := reached_consistent .unlimited false
  have hm : Reached first m := .ran _
  obtain ⟨past, hpast⟩ := hcourse m hm
  obtain ⟨hconsistent, hrun, hactivity⟩ := htold past m hpast
  have hframes : m.framesMade = 6 := by decide +kernel
  have hsteps : m.log.next = 10 := by decide +kernel
  refine ⟨hm, by decide +kernel, past, hpast, hconsistent, hconsistent.counted.1 ▸ hframes,
    hconsistent.counted.2 ▸ hsteps, hrun astray, .after, hactivity 2 _ block.after .after⟩

end Session

end ScriptLang
