import ScriptLang.Proofs.Evaluator.Faults
import ScriptLang.Proofs.Evaluator.Framing

/-!
# Where a closed sink stops a run

Nothing but printing ever says that the sink is closed. So a run that stops with this breakdown stops
in a call of the builtin, right after it has logged the step of the call, and does nothing any more.

Result:
* `Session.stops_at_print`: where a run stops.
-/
namespace ScriptLang

namespace Session

variable {fuel : Nat} {p : Program} {m m' : Machine}

/-- The last thing that a run has done is to log the step `s` of a call of the builtin, with all of
its arguments evaluated; and its line is what the sink refuses. -/
inductive StopsAtPrint (fuel : Nat) (p : Program) (m : Machine) (s : Step) (m' : Machine) : Prop
  | intro {n x args scope before name home m₁ vs m₂ words} :
      Happens fuel p m ⟨n + 1, .evaluate (.call x args) scope, before⟩ →
      Eval.lookup scope x before = (.value (.builtin name home), m₁) →
      Evaluator.evaluateAll n args scope m₁ = (.value vs, m₂) →
      Eval.step x scope (some (x, vs)) m₂ = (.value (), m') →
      m'.log.last = some s → s.index = m₂.log.next → s.rule = x →
      Eval.texts vs = .ok words →
      m'.sink.refusal? m'.output (" ".intercalate words) = some (.internal .sinkClosed) →
      StopsAtPrint fuel p m s m'

theorem StopsAtPrint.last {s : Step} (h : StopsAtPrint fuel p m s m') : m'.log.last = some s := by
  cases h with
  | intro _ _ _ _ hlast => exact hlast

/-- The step of a call is logged in the frame of the caller. -/
theorem logged_of_call {n : Nat} {x : Json} {args : List Node} {scope : ScopeId} {before : Machine}
    {callee : Value} {m₁ m₂ m₃ : Machine} {vs : List Value}
    (ha : Happens fuel p m ⟨n + 1, .evaluate (.call x args) scope, before⟩)
    (hcallee : Eval.lookup scope x before = (.value callee, m₁))
    (hargs : Evaluator.evaluateAll n args scope m₁ = (.value vs, m₂)) (rule : Json)
    (hstep : Eval.step rule scope (some (x, vs)) m₂ = (.value (), m₃)) :
    ∃ s, m₃.log.last = some s ∧ s.index = m₂.log.next ∧ s.rule = rule := by
  have hbefore : m₁.stack = before.stack := by
    have hquiet := (Eval.Quiet.lookup scope x before).1
    rwa [hcallee] at hquiet
  have hstanding : m₁.stack ≠ [] := hbefore ▸ ha.standing
  have hframing : Framing m₁ 0 0 (fun _ vs => ∀ v ∈ vs, True)
      (Evaluator.evaluateAll n args scope) :=
    ((framing m₁ 0).evaluates n).evaluateAll trivial fun _ _ => trivial
  have hstack : m₂.stack = m₁.stack :=
    hframing.stack m₁ vs m₂ (Nat.zero_le _) (.refl (Nat.zero_le _) hstanding) hargs
  obtain ⟨frame, below, hframe⟩ := List.exists_cons_of_ne_nil (hstack ▸ hstanding)
  obtain ⟨detail, snapshot, hlogs⟩ | ⟨f, hfails⟩ :=
    Eval.step_cases hframe rule scope (some (x, vs))
  · cases hlogs.symm.trans hstep
    exact ⟨_, rfl, rfl, rfl⟩
  · cases hfails.symm.trans hstep

theorem stops_at_print (h : Stops fuel p m (.internal .sinkClosed) m') :
    ∃ s, StopsAtPrint fuel p m s m' := by
  cases h with
  | calling _ hstep => exact absurd rfl (Eval.step_ordinary hstep).opened
  | inside ha hbreak =>
    obtain hordinary | hmisses | hrefused := hbreak.sorted
    · exact absurd rfl hordinary.opened
    · cases hmisses
    · cases hrefused with
      | intro hcallee hargs hstep hwords hrefused =>
        obtain ⟨s, hlast, hindex, hrule⟩ := logged_of_call ha hcallee hargs _ hstep
        exact ⟨s, .intro ha hcallee hargs hstep hlast hindex hrule hwords hrefused⟩

end Session

end ScriptLang
