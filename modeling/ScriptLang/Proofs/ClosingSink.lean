import ScriptLang.Proofs.Evaluator.Guise
import ScriptLang.Proofs.Evaluator.Refusal

/-!
# Runs into a closing sink

A sink that takes `n` lines and is closed then cuts a run off at a print. Up to there the run is the
one into a sink that takes every line: a run that prints no more than `n` lines is the same, and one
that prints more is cut off when it has printed the first `n` of them.

Results:
* `unbounding_suits`: computations go side by side on a machine with a closing sink and on one whose
  sink takes every line;
* `Session.closing_sink_cuts`: so do runs, whether they end or not.
-/
namespace ScriptLang

/-- The machine as it would be if its sink, which takes `n` lines, took every line. Where the sink
refuses a line it has taken `n` of those that the other one takes. -/
def unbounding (n : Nat) : Guise where
  verbose verbose := verbose
  sink _ := .unlimited
  log log := log
  forget _ _ := rfl
  index _ := rfl
  Together sink output := sink = .closingAfter n ∧ output.size ≤ n
  fault := .internal .sinkClosed
  After taken output := taken.size = n ∧ ∃ line, taken.toList ++ [line] <+: output.toList
  after_mono := fun ⟨hsize, line, htaken⟩ hmore => ⟨hsize, line, htaken.trans hmore⟩

/-- A step does not look at the sink. -/
theorem ignores_step {n : Nat} (rule : Json) (scope : ScopeId)
    (call : Option (Json × List Value)) : (unbounding n).Ignores (Eval.step rule scope call) := by
  rintro ⟨verbose, sink, scopes, output, log, stack, framesMade⟩
  cases stack with
  | nil => exact ⟨rfl, rfl, rfl⟩
  | cons frame below =>
    cases verbose with
    | false => exact ⟨rfl, rfl, rfl⟩
    | true =>
      unfold Eval.step Guise.of
      dsimp only [unbounding, if_true]
      cases Eval.notes scopes scope call <;> exact ⟨rfl, rfl, rfl⟩

/-- Only printing sets a machine with a closing sink apart. -/
theorem unbounding_suits (n : Nat) (like : Machine) :
    (unbounding n).Suits (framing like 0) (Machine.Framed like 0) where
  keeps := framing_keeps
  print line m _ ht := by
    obtain ⟨hsink, hsize⟩ := ht
    have hprints : Eval.print line ((unbounding n).of m) =
        (.value (), (unbounding n).of { m with output := m.output.push line }) := rfl
    rw [hprints]
    by_cases hfull : n ≤ m.output.size
    · have hrefuses : Eval.print line m = (.fault (.internal .sinkClosed), m) := by
        simp [Eval.print, hsink, Sink.closingAfter, hfull]
      rw [hrefuses]
      exact .parted ⟨Nat.le_antisymm hsize hfull, line, by simp [Guise.of]⟩
    · have htakes : Eval.print line m = (.value (), { m with output := m.output.push line }) := by
        simp [Eval.print, hsink, Sink.closingAfter, hfull]
      rw [htakes]
      refine .same ⟨hsink, ?_⟩
      rw [Array.size_push]
      exact Nat.not_le.mp hfull
  step rule _ _ _ _ _ _ ht := (ignores_step rule _ _).agrees ht

namespace Session

/-- Whatever the fuel of a run, into a sink that takes `n` lines and is closed then it is the same
if it prints no more than `n` lines. If it prints more, it fails because the sink is closed; it has
printed the first `n` lines by then, and what it has done last is to log the step of the call that
would have printed the next one. -/
theorem closing_sink_cuts (verbose : Bool) (p : Program) (n fuel : Nat) :
    let free := runFor fuel p (.fresh verbose none)
    let cut := runFor fuel p (.fresh verbose (some n))
    (free.2.output.size ≤ n → cut = (free.1, { free.2 with sink := .closingAfter n })) ∧
      (n < free.2.output.size →
        cut.2.output.toList = free.2.output.toList.take n ∧
        ∃ s, cut.1 = .fault (.internal .sinkClosed) (some s.index) ∧
          StopsAtPrint fuel p (.fresh verbose (some n)) s cut.2) := by
  intro free cut
  have hrun : _ ∨ _ := (unbounding_suits n _).runFor fuel (m := .fresh verbose (some n))
    (framing_entered p (.fresh verbose none)) ⟨rfl, Nat.zero_le n⟩
  obtain ⟨hsame, hsink, hsize⟩ | ⟨⟨step, hclosed⟩, hsize, line, htaken⟩ := hrun
  · have hfree : free = (cut.1, { cut.2 with sink := .unlimited }) := hsame
    have hcut : cut.2.sink = .closingAfter n := hsink
    refine ⟨fun _ => ?_, fun hmore => ?_⟩
    · rw [hfree]
      dsimp only
      rw [← hcut]
    · rw [hfree] at hmore
      exact absurd hsize (Nat.not_le.mpr hmore)
  · have hlength := htaken.length_le
    rw [List.length_append, Array.length_toList, Array.length_toList, hsize] at hlength
    refine ⟨fun hfew => absurd hfew (Nat.not_le.mpr hlength), fun _ => ⟨?_, ?_⟩⟩
    · have hbeginning := (List.prefix_append _ [line]).trans htaken
      have htake := List.prefix_iff_eq_take.mp hbeginning
      rwa [Array.length_toList, hsize] at htake
    · obtain ⟨hstops, rfl⟩ := stops_of_runFor hclosed
      obtain ⟨s, hs⟩ := stops_at_print hstops
      refine ⟨s, ?_, hs⟩
      rw [hs.last] at hclosed
      exact hclosed

/-- `main` squares a number until its text is too long, and then prints it. -/
def oversized : Program where
  statements :=
    [.function (.str "main") []
      [.declare (.str "x") (.literal .number (.int 10)),
        .declare (.str "i") (.literal .number (.int 0)),
        .loop (.binary (.identifier (.str "i")) (.str "<") (.literal .number (.int 13)))
          [.expression (.binary (.identifier (.str "x")) (.str "=")
              (.binary (.identifier (.str "x")) (.str "*") (.identifier (.str "x")))),
            .expression (.binary (.identifier (.str "i")) (.str "=")
              (.binary (.identifier (.str "i")) (.str "+") (.literal .number (.int 1))))],
        .expression (.call (.str "print") [.identifier (.str "x")])]]

/-- Not every call of `print` comes to the sink. This one is the first of the run, and with a sink
that takes no line it fails as it does with one that takes every line: there is no text to be
printed. -/
theorem oversized_not_cut :
    let free := (Machine.fresh false none).run oversized
    let cut := (Machine.fresh false (some 0)).run oversized
    free.2.log.last = some ⟨32, 1, .str "print", none, none⟩ ∧
      free.1 = .fault (.internal .digitLimit) (some 32) ∧
      cut.1 = .fault (.internal .digitLimit) (some 32) := by
  refine ⟨by decide +kernel, RunResult.fault?_eq_some.mp ?_, RunResult.fault?_eq_some.mp ?_⟩
  · decide +kernel
  · decide +kernel

end Session

end ScriptLang
