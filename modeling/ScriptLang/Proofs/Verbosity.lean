import ScriptLang.Proofs.Evaluator.Guise
import ScriptLang.Proofs.Evaluator.Plain
import ScriptLang.Proofs.Linked.Source

/-!
# Verbose runs

A verbose run notes the bindings of the scope and the arguments of a call before each step. To make
their texts has no effect, and it can fail in one way only for a program from source: an integer may
have too many digits. A run that does not stop at such a text does what it does when it is not
verbose.

Results:
* `StepLog.bare`: what is left of a log without what was noted;
* `hushing_suits`: computations go side by side on a verbose machine and on one that is not;
* `Session.run_hushed`: so do runs.
-/
namespace ScriptLang

/-! ## Logs without notes -/

def Step.bare (s : Step) : Step := { s with detail := none, snapshot := none }

namespace StepLog

def bare (log : StepLog) : StepLog where
  next := log.next
  last := log.last.map Step.bare
  latest := log.latest.map fun entry => (entry.1, entry.2.bare)

theorem replace_bare (entries : List (FrameId × Step)) (step : Step) :
    replace (entries.map fun entry => (entry.1, entry.2.bare)) step.bare =
      (replace entries step).map fun entry => (entry.1, entry.2.bare) := by
  induction entries with
  | nil => rfl
  | cons entry rest ih =>
    rw [replace, apply_ite (List.map _), apply_ite (List.map _)]
    simp only [List.map_cons]
    rw [← ih]
    rfl

theorem bare_record (log : StepLog) (frame : FrameId) (rule : Json) (detail : Option CallDetail)
    (snapshot : Option Snapshot) :
    (log.record frame rule detail snapshot).bare = log.bare.record frame rule none none :=
  congrArg (StepLog.mk (log.next + 1) _) (replace_bare log.latest _).symm

theorem bare_forget (log : StepLog) (frame : FrameId) :
    (log.forget frame).bare = log.bare.forget frame := by
  unfold forget bare
  dsimp only
  rw [List.eraseP_map]
  rfl

theorem index_bare (log : StepLog) : log.bare.last.map (·.index) = log.last.map (·.index) :=
  Option.map_map ..

theorem latestOf_bare (log : StepLog) (frame : FrameId) :
    log.bare.latestOf frame = (log.latestOf frame).map Step.bare := by
  unfold latestOf bare
  dsimp only
  induction log.latest with
  | nil => rfl
  | cons entry rest ih =>
    rw [List.map_cons, List.lookup_cons, List.lookup_cons, ih]
    split <;> rfl

end StepLog

/-! ## Computations -/

/-- The machine as it would be without its verbosity. -/
def hushing : Guise where
  verbose _ := false
  sink sink := sink
  log := StepLog.bare
  forget := StepLog.bare_forget
  index := StepLog.index_bare
  Together _ _ := True
  fault := .internal .digitLimit
  After _ _ := True
  after_mono _ _ := trivial

/-- With well-formed values only a text of too many digits sets a verbose machine apart. -/
theorem hushing_suits (sink : Sink) : hushing.Suits (plain sink) (Machine.IsWellFormed sink) where
  keeps := plain_keeps
  print line m _ _ := by
    unfold Eval.print Guise.of
    dsimp only [hushing]
    split <;> exact .same trivial
  step {n scope} rule call _ hargs m _ hm _ := by
    have hpassed : ∀ x args, call = some (x, args) → ∀ v ∈ args, v.IsPlain :=
      fun x args hcall v hv => (hargs x args hcall v hv).plain
    cases hstack : m.stack with
    | nil =>
      have hskips (m : Machine) (hstack : m.stack = []) :
          Eval.step rule scope call m = (.value (), m) := by
        unfold Eval.step
        rw [hstack]
      rw [hskips m hstack, hskips (hushing.of m) hstack]
      exact .same trivial
    | cons frame below =>
      have hquiet (detail : Option CallDetail) (snapshot : Option Snapshot) :
          Eval.step rule scope call (hushing.of m) = (.value (), hushing.of
            { m with log := m.log.record frame.id rule detail snapshot }) := by
        rw [Eval.step_quiet (m := hushing.of m) rfl hstack]
        exact congrArg (fun log => (Outcome.value (), { hushing.of m with log := log }))
          (m.log.bare_record frame.id rule detail snapshot).symm
      cases hverbose : m.verbose with
      | false =>
        rw [Eval.step_quiet hverbose hstack, hquiet none none]
        exact .same trivial
      | true =>
        rw [Eval.step_verbose hverbose hstack]
        cases hnotes : Eval.notes m.scopes scope call with
        | ok noted =>
          rw [hquiet noted.1 noted.2]
          exact .same trivial
        | error b =>
          obtain ⟨rfl, -⟩ :=
            notes_error (fun e he => (hm.bound scope e he).toIsShowable) hpassed hnotes
          exact .parted trivial

/-! ## Runs -/

/-- The machine without its verbosity and without what it has noted of steps. -/
def Machine.hushed (m : Machine) : Machine := { m with verbose := false, log := m.log.bare }

namespace Session

/-- Verbosity only observes. Whatever the sink, if a verbose run does not stop because a text would
have too many digits, the run that is not verbose gives the same result or the same fault at the
same step, and leaves the same machine but for what has been noted of the steps in the log. -/
theorem run_hushed {p : Program} (hp : p.FromSource) (sink : Sink)
    (hlimit : ∀ step, ((Machine.freshInto sink true).run p).1 ≠
      .fault (.internal .digitLimit) step) :
    let loud := (Machine.freshInto sink true).run p
    let quiet := (Machine.freshInto sink false).run p
    quiet = (loud.1, loud.2.hushed) ∧
      quiet.2.log.last = loud.2.log.last.map Step.bare ∧
      ∀ frame, quiet.2.log.latestOf frame = (loud.2.log.latestOf frame).map Step.bare := by
  intro loud quiet
  have hadmits : Admits (plain sink) (Machine.IsWellFormed sink) p (Machine.freshInto sink false) :=
    ⟨.fresh sink false, trivial, hp.wellFormed⟩
  have heq : quiet = (loud.1, loud.2.hushed) := by
    obtain ⟨heq, -⟩ | ⟨⟨step, hstep⟩, -⟩ := (hushing_suits sink).runFor Evaluator.fuel
      (m := Machine.freshInto sink true) (hadmits.entered plain_keeps) trivial
    · exact heq
    · exact absurd hstep (hlimit step)
  exact ⟨heq, by rw [heq]; rfl, fun frame => by rw [heq]; exact loud.2.log.latestOf_bare frame⟩

/-- `main` prints the value of a call twice. -/
def echoing : Program where
  statements :=
    [.function (.str "f") [.str "x"] [.ret (some (.identifier (.str "x")))],
      .function (.str "main") []
        [.expression (.call (.str "print") [.call (.str "f") [.literal .number (.int 1)]]),
          .expression (.call (.str "print") [.call (.str "f") [.literal .number (.int 2)]])]]

/-- On a sink that takes one line both runs stop at the second one, and the last step of the quiet
one has lost its notes. -/
theorem echoing_hushed :
    let loud := (Machine.freshInto (.closingAfter 1) true).run echoing
    let quiet := (Machine.freshInto (.closingAfter 1) false).run echoing
    loud.2.log.last = some ⟨10, 1, .str "print", some ⟨.str "print", ["2"]⟩, some []⟩ ∧
      quiet.1 = .fault (.internal .sinkClosed) (some 10) ∧ quiet.2.output = #["1"] ∧
      quiet.2.log.last = some ⟨10, 1, .str "print", none, none⟩ := by
  intro loud quiet
  have hparse : Linked.parseText "" "func f(x){return x;}func main(){print(f(1));print(f(2));}" =
      .ok echoing := by decide +kernel
  have hfault : loud.1 = .fault (.internal .sinkClosed) (some 10) :=
    RunResult.fault?_eq_some.mp (by decide +kernel)
  have houtput : loud.2.output = #["1"] := by decide +kernel
  have hlast : loud.2.log.last =
      some ⟨10, 1, .str "print", some ⟨.str "print", ["2"]⟩, some []⟩ := by decide +kernel
  obtain ⟨hquiet, hbare, -⟩ :=
    run_hushed (.of_parseText hparse) (.closingAfter 1) fun step h => by cases hfault.symm.trans h
  have heq : quiet = (loud.1, loud.2.hushed) := hquiet
  exact ⟨hlast, by rw [heq]; exact hfault, by rw [heq]; exact houtput,
    hbare.trans (congrArg (Option.map Step.bare) hlast)⟩

end Session

end ScriptLang
