import ScriptLang.Proofs.Evaluator.Invariant

/-!
# The machines that a session comes by

A session changes its machine step by step: a scope is made, a name bound or assigned to, a line
printed, a frame entered or left, a step logged. Every machine before or after such a change is one
that an activity of a run starts on or leaves, or one between its parts, or one between the runs. A
value is in hand there when an activity has it without its being bound: an argument, the function of
a call, the left operand of an operation, a result.

What one change preserves therefore holds in every machine that a session comes by, and of every
value in hand.

Results:
* `Activity.ComesBy.maintained`, `Activity.InHand.holds`: the same for one activity;
* `Session.Reached.invariant`: what holds in all machines of a session.
-/
namespace ScriptLang

/-! ## Inside an activity -/

namespace Activity

/-- The machines between the parts of an activity, which none of its parts starts on or leaves: a line
is to be printed, some parameters are bound, the frame of a call has been left but is still in the
log, or a statement has logged its step. -/
inductive Between : Activity → Machine → Prop
  | printing {fuel x args scope m name home m₁ vs m₂ m₃} :
      Eval.lookup scope x m = (.value (.builtin name home), m₁) →
      Evaluator.evaluateAll fuel args scope m₁ = (.value vs, m₂) →
      Eval.step x scope (some (x, vs)) m₂ = (.value (), m₃) →
      Between ⟨fuel + 1, .evaluate (.call x args) scope, m⟩ m₃
  | binding {fuel function params rest args m scope m₁ m₂} :
      function.params = params ++ rest →
      Eval.newScope function.scope m = (.value scope, m₁) →
      Evaluator.bindParams scope params args m₁ = (.value (), m₂) →
      Between ⟨fuel + 1, .call function args, m⟩ m₂
  | leaving {fuel function args m scope m₁ m₂ frame m₃ c m₄} :
      Eval.newScope function.scope m = (.value scope, m₁) →
      Evaluator.bindParams scope function.params args m₁ = (.value (), m₂) →
      Eval.pushFrame function.name scope m₂ = (.value frame, m₃) →
      Evaluator.executeBlock fuel function.body scope m₃ = (.value c, m₄) →
      Between ⟨fuel + 1, .call function args, m⟩ { m₄ with stack := m₄.stack.tail }
  | noted {fuel node scope m m₁} :
      Eval.step (.str node.kindName) scope none m = (.value (), m₁) →
      Between ⟨fuel + 1, .execute node scope, m⟩ m₁

/-- The machines that an activity comes by, with those of its parts. -/
inductive ComesBy : Activity → Machine → Prop
  | before {a} : ComesBy a a.before
  | between {a m} : Between a m → ComesBy a m
  | part {a b m} : Starts a b → ComesBy b m → ComesBy a m
  | after {a} : ComesBy a a.after

/-- The values that an activity has in hand when the machine is as given: what it has been passed, as
long as it goes on; what it has looked up or computed, as long as a part of it goes on; and what it
gives in the end. -/
inductive InHand : Activity → Machine → Value → Prop
  | passed {a m v} : v ∈ a.task.passed → ComesBy a m → InHand a m v
  | called {fuel function args m m'} : ComesBy ⟨fuel, .call function args, m⟩ m' →
      InHand ⟨fuel, .call function args, m⟩ m' (.closure function)
  | operand {fuel left operator right scope m l m₁ m'} : Operator.ofDocument operator ≠ .assign →
      Evaluator.evaluate fuel left scope m = (.value l, m₁) →
      ComesBy ⟨fuel, .evaluate right scope, m₁⟩ m' →
      InHand ⟨fuel + 1, .evaluate (.binary left operator right) scope, m⟩ m' l
  | argument {fuel node nodes scope m v m₁ m'} :
      Evaluator.evaluate fuel node scope m = (.value v, m₁) →
      ComesBy ⟨fuel, .evaluateAll nodes scope, m₁⟩ m' →
      InHand ⟨fuel + 1, .evaluateAll (node :: nodes) scope, m⟩ m' v
  | callee {fuel x args scope m v m₁ m'} : Eval.lookup scope x m = (.value v, m₁) →
      ComesBy ⟨fuel, .evaluateAll args scope, m₁⟩ m' →
      InHand ⟨fuel + 1, .evaluate (.call x args) scope, m⟩ m' v
  | printing {fuel x args scope m name home m₁ vs m₂ m₃ v} :
      Eval.lookup scope x m = (.value (.builtin name home), m₁) →
      Evaluator.evaluateAll fuel args scope m₁ = (.value vs, m₂) →
      Eval.step x scope (some (x, vs)) m₂ = (.value (), m₃) → v ∈ vs →
      InHand ⟨fuel + 1, .evaluate (.call x args) scope, m⟩ m₃ v
  | leaving {fuel function args m scope m₁ m₂ frame m₃ c m₄} :
      Eval.newScope function.scope m = (.value scope, m₁) →
      Evaluator.bindParams scope function.params args m₁ = (.value (), m₂) →
      Eval.pushFrame function.name scope m₂ = (.value frame, m₃) →
      Evaluator.executeBlock fuel function.body scope m₃ = (.value c, m₄) →
      InHand ⟨fuel + 1, .call function args, m⟩ { m₄ with stack := m₄.stack.tail } c.value
  | returned {a vs m v} : a.run = (.value vs, m) → v ∈ vs → InHand a m v

theorem InHand.comesBy {a : Activity} {m : Machine} {v : Value} (h : a.InHand m v) :
    a.ComesBy m := by
  cases h with
  | passed _ hm => exact hm
  | called hm => exact hm
  | operand hop hleft hm => exact .part (.right hop hleft) hm
  | argument hfirst hm => exact .part (.rest hfirst) hm
  | callee hcallee hm => exact .part (.arguments hcallee) hm
  | printing hcallee hargs hstep _ => exact .between (.printing hcallee hargs hstep)
  | leaving hscope hparams hframe hbody => exact .between (.leaving hscope hparams hframe hbody)
  | returned hrun _ =>
    obtain rfl : a.after = m := congrArg Prod.snd hrun
    exact .after

end Activity

/-! ## Invariants of sessions -/

/-- The logic is about an invariant of whole sessions: leaving a frame does not touch it either, and
where it holds, the session owns the global scope. -/
structure Logic.Pervades (L : Logic Code.any) (I : Machine → Prop) : Prop extends L.Keeps I where
  popFrame : ∀ {m : Machine}, I m → I { m with stack := m.stack.tail }
  owns : ∀ {m : Machine}, I m → L.Owns m.scopes.size Machine.globalScope

variable {L : Logic Code.any} {I : Machine → Prop} {a : Activity} {m : Machine}

/-- A body that has given its result, in the frame of its call. -/
theorem Activity.Fits.invoked (hL : L.Keeps I) {fuel : Nat} {function : Closure}
    {args : List Value} {scope : ScopeId} {frame : FrameId} {c : Completion}
    {m₁ m₂ m₃ m₄ : Machine} (ha : Activity.Fits L I ⟨fuel + 1, .call function args, m⟩)
    (hscope : Eval.newScope function.scope m = (.value scope, m₁))
    (hparams : Evaluator.bindParams scope function.params args m₁ = (.value (), m₂))
    (hframe : Eval.pushFrame function.name scope m₂ = (.value frame, m₃))
    (hbody : Evaluator.executeBlock fuel function.body scope m₃ = (.value c, m₄)) :
    Maintained I (fun n c => L.Holds n c.value) m (.value c) m₄ := by
  have hentered := Starts.maintained hL (.body hscope hparams hframe) ha
  obtain ⟨hs, hcode⟩ := hentered.value () rfl
  exact hentered.append
    (hL.run ((L.evaluates fuel).executeBlock hs hcode) hentered.invariant hbody)

theorem Activity.Between.maintained (hL : L.Pervades I) (h : a.Between m) (ha : a.Fits L I) :
    Maintained I (fun _ (_ : Unit) => True) a.before (.value ()) m := by
  cases h with
  | printing hcallee hargs hstep =>
    exact (ha.called hL.toKeeps hcallee hargs hstep).cast fun _ => trivial
  | binding hsplit hscope hparams =>
    have hsub := hsplit ▸ List.subset_append_left _ _
    exact (ha.bound hL.toKeeps hscope hsub hparams).cast fun _ => trivial
  | leaving hscope hparams hframe hbody =>
    have hdone := ha.invoked hL.toKeeps hscope hparams hframe hbody
    exact ⟨hdone.grows, hL.popFrame hdone.invariant, fun _ _ => trivial⟩
  | noted hstep => exact (ha.noted hL.toKeeps hstep).cast fun _ => trivial

/-- The invariant holds in all machines that an activity comes by, and there are no fewer scopes than
at its start. -/
theorem Activity.ComesBy.maintained (hL : L.Pervades I) (h : a.ComesBy m) (ha : a.Fits L I) :
    Maintained I (fun _ (_ : Unit) => True) a.before (.value ()) m := by
  induction h with
  | before => exact ⟨Nat.le_refl _, ha.invariant, fun _ _ => trivial⟩
  | between hbetween => exact hbetween.maintained hL ha
  | part hstarts _ ih =>
    have hb := hstarts.maintained hL.toKeeps ha
    exact hb.append (ih ⟨hb.invariant, hb.value () rfl⟩)
  | after => exact (ha.maintained hL.toKeeps).cast fun _ => trivial

/-- What an activity has in hand is as the logic asks. -/
theorem Activity.InHand.holds (hL : L.Pervades I) {v : Value} (h : a.InHand m v)
    (ha : a.Fits L I) : L.Holds m.scopes.size v := by
  have evaluates {fuel : Nat} := L.evaluates fuel
  cases h with
  | passed hv hm => exact L.holds_mono (hm.maintained hL ha).grows (ha.task.passed v hv)
  | called hm => exact L.holds_mono (hm.maintained hL ha).grows ha.task.1
  | operand hop hleft hm =>
    have hl := hL.run (evaluates.evaluate ha.task.1 trivial) ha.invariant hleft
    have hright := Starts.fits hL.toKeeps (.right hop hleft) ha
    exact L.holds_mono (hm.maintained hL hright).grows (hl.value v rfl)
  | argument hfirst hm =>
    have hv := hL.run (evaluates.evaluate ha.task.1 trivial) ha.invariant hfirst
    have hrest := Starts.fits hL.toKeeps (.rest hfirst) ha
    exact L.holds_mono (hm.maintained hL hrest).grows (hv.value v rfl)
  | callee hcallee hm =>
    have hc := hL.run (L.lookup ha.task.1 trivial) ha.invariant hcallee
    have hargs := Starts.fits hL.toKeeps (.arguments hcallee) ha
    exact L.holds_mono (hm.maintained hL hargs).grows (hc.value v rfl)
  | printing hcallee hargs hstep hv =>
    exact ((ha.called hL.toKeeps hcallee hargs hstep).value () rfl).2 v hv
  | leaving hscope hparams hframe hbody =>
    exact (ha.invoked hL.toKeeps hscope hparams hframe hbody).value _ rfl
  | returned hrun hv =>
    have hdone := ha.maintained hL.toKeeps
    rw [hrun] at hdone
    exact hdone.value _ rfl v hv

namespace Session

/-- The machines that a session comes by which starts on the machine `first`: between its runs, and
within each of them. -/
inductive Reached (first : Machine) : Machine → Prop
  | ran (programs : List Program) : Reached first (runs first programs)
  | visited {programs p m} : Visits Evaluator.fuel p (runs first programs) m → Reached first m
  | inside {programs p a m} : Happens Evaluator.fuel p (runs first programs) a → a.ComesBy m →
      Reached first m

theorem admits_any (hL : L.Pervades I) (hI : I m) (p : Program) : Admits L I p m :=
  ⟨hI, hL.owns hI, fun _ _ => trivial⟩

theorem invariant_run (hL : L.Pervades I) (hI : I m) (p : Program) : I (m.run p).2 := by
  have hadmits := admits_any hL hI p
  have hbody : L.Meets (start m).scopes.size L.Holds (runBody Evaluator.fuel p) :=
    L.runBody Evaluator.fuel hadmits.owns hadmits.statements
  unfold Machine.run
  rw [runWith_eq]
  rcases hrun : runBody Evaluator.fuel p (start m) with ⟨o, m₁⟩
  have hdone := hL.run hbody (hadmits.start hL.toKeeps) hrun
  cases o with
  | value v => exact hL.popFrame hdone.invariant
  | fault f => exact hdone.invariant
  | outOfFuel => exact hdone.invariant

theorem invariant_runs (hL : L.Pervades I) (hI : I m) (programs : List Program) :
    I (runs m programs) := by
  induction programs generalizing m with
  | nil => exact hI
  | cons p programs ih => exact ih (invariant_run hL hI p)

variable {first : Machine}

/-- All activities of the runs of a session fit the logic. -/
theorem Happens.fits_any (hL : L.Pervades I) (hI : I first) {programs : List Program}
    {p : Program} (ha : Happens Evaluator.fuel p (runs first programs) a) : a.Fits L I :=
  ha.fits hL.toKeeps (admits_any hL (invariant_runs hL hI programs) p)

/-- The invariant holds in all machines that a session comes by. -/
theorem Reached.invariant (hL : L.Pervades I) (hI : I first) (h : Reached first m) : I m := by
  cases h with
  | ran programs => exact invariant_runs hL hI programs
  | @visited programs p _ hvisits =>
    exact hvisits.invariant hL.toKeeps (admits_any hL (invariant_runs hL hI programs) p)
  | inside ha hm => exact (hm.maintained hL (ha.fits_any hL hI)).invariant

end Session

end ScriptLang
