import ScriptLang.Proofs.Evaluator.Activity
import ScriptLang.Proofs.Fault

/-!
# Which faults there can be

Most faults are ordinary: they neither say that a name is not bound nor that the sink is closed. Those
that do arise in few places. That a name is not bound is found when it is looked up or assigned to, and
the sink refuses a line when a builtin prints it; texts, snapshots and operators never say either.

Results:
* `Operator.apply_ordinary`, `Eval.step_ordinary` and the like: what has ordinary faults only;
* `Breaks.sorted`: where an activity can have others.
-/
namespace ScriptLang

/-! ## Breakdowns -/

section

variable {ε α β : Type}

theorem pure_ne_error (a : α) (e : ε) : (pure a : Except ε α) ≠ .error e := by rintro ⟨⟩

theorem bind_ne_error {x : Except ε α} {k : α → Except ε β} {e : ε}
    (hx : x ≠ .error e) (hk : ∀ a, k a ≠ .error e) : x >>= k ≠ .error e := by
  intro h
  obtain h | ⟨a, -, h⟩ := bind_eq_error.mp h
  · exact hx h
  · exact hk a h

end

namespace Value

theorem orDigitLimit_ne_closed (text? : Option String) :
    orDigitLimit text? ≠ .error .sinkClosed := by
  cases text? <;> simp [orDigitLimit]

theorem paramTexts_ne_closed (index : Nat) (params : List Json) :
    paramTexts index params ≠ .error .sinkClosed := by
  induction params generalizing index with
  | nil => simp [paramTexts]
  | cons j params ih =>
    cases j with
    | str s => exact bind_ne_error (ih _) fun _ => pure_ne_error _ _
    | _ => simp [paramTexts]

mutual

theorem shown_ne_closed (v : Value) : v.shown ≠ .error .sinkClosed := by
  cases v with
  | data j => exact orDigitLimit_ne_closed _
  | closure c => exact bind_ne_error (paramTexts_ne_closed 0 _) fun _ => pure_ne_error _ _
  | builtin name home => simp [shown]
  | list items =>
    rw [shown]
    exact bind_ne_error (shownItems_ne_closed items) fun _ => pure_ne_error _ _
  | record fields =>
    rw [shown]
    exact bind_ne_error (shownFields_ne_closed fields) fun _ => pure_ne_error _ _

theorem shownItems_ne_closed (items : List Value) : shownItems items ≠ .error .sinkClosed := by
  cases items with
  | nil => simp [shownItems]
  | cons item items =>
    rw [shownItems]
    exact bind_ne_error (shown_ne_closed item) fun _ =>
      bind_ne_error (shownItems_ne_closed items) fun _ => pure_ne_error _ _

theorem shownFields_ne_closed (fields : List (String × Value)) :
    shownFields fields ≠ .error .sinkClosed := by
  match fields with
  | [] => simp [shownFields]
  | (name, value) :: fields =>
    rw [shownFields]
    exact bind_ne_error (shown_ne_closed value) fun _ =>
      bind_ne_error (shownFields_ne_closed fields) fun _ => pure_ne_error _ _

end

theorem text_ne_closed (v : Value) : v.text ≠ .error .sinkClosed := by
  unfold text
  split <;> first | exact orDigitLimit_ne_closed _ | exact shown_ne_closed _ | simp

theorem Number.toFloat_ne_closed (n : Number) : n.toFloat ≠ .error .sinkClosed := by
  unfold toFloat
  split
  · cases Binary64.ofInt? _ <;> simp [Option.elim]
  · simp

end Value

theorem snapshotOf_ne_closed (bindings : List (Json × Value)) :
    snapshotOf bindings ≠ .error .sinkClosed := by
  induction bindings with
  | nil => simp [snapshotOf]
  | cons b bindings ih =>
    rw [snapshotOf]
    exact bind_ne_error b.2.shown_ne_closed fun _ =>
      bind_ne_error ih fun _ => pure_ne_error _ _

namespace Eval

theorem texts_ne_closed (vs : List Value) : texts vs ≠ .error .sinkClosed := by
  induction vs with
  | nil => simp [texts]
  | cons v vs ih =>
    exact bind_ne_error v.text_ne_closed fun _ =>
      bind_ne_error ih fun _ => pure_ne_error _ _

theorem notes_ne_closed (h : Scopes) (scope : ScopeId) (call : Option (Json × List Value)) :
    notes h scope call ≠ .error .sinkClosed := by
  refine bind_ne_error (snapshotOf_ne_closed _) fun _ => ?_
  cases call with
  | none => exact pure_ne_error _ _
  | some call => exact bind_ne_error (texts_ne_closed _) fun _ => pure_ne_error _ _

end Eval

/-! ## Ordinary faults -/

namespace Fault

/-- The name that a fault says is not bound. -/
def unbound? : Fault → Option Json
  | .unassignable x | .undeclared x => some x
  | _ => none

/-- The fault says neither that a name is not bound nor that the sink is closed. -/
structure IsOrdinary (f : Fault) : Prop where
  bound : f.unbound? = none
  opened : f ≠ .internal .sinkClosed

theorem IsOrdinary.internal {b : Breakdown} (hb : b ≠ .sinkClosed) : (internal b).IsOrdinary where
  bound := rfl
  opened := by
    rintro ⟨⟩
    exact hb rfl

end Fault

namespace Operator

variable {left right : Value} {f : Fault}

theorem texts_ordinary (h : texts left right = .error f) : f.IsOrdinary := by
  obtain ⟨b, rfl, hb⟩ := texts_eq_error h
  refine .internal ?_
  rintro rfl
  rcases hb with hb | hb
  · exact left.text_ne_closed hb
  · exact right.text_ne_closed hb

theorem onInts_ordinary {op : Arithmetic} {a b : Int} (h : op.onInts a b = .error f) :
    f.IsOrdinary := by
  unfold Arithmetic.onInts at h
  split at h
  · cases h
  · cases h
  · cases h
  · split at h <;> cases h
    exact .internal (by simp)

theorem onNumbers_ordinary {op : Arithmetic} {a b : Value.Number}
    (h : op.onNumbers a b = .error f) : f.IsOrdinary := by
  unfold Arithmetic.onNumbers at h
  split at h
  · cases h
    exact ⟨rfl, by simp⟩
  · split at h
    · exact onInts_ordinary h
    · split at h
      · cases h
      · next e he =>
        cases h
        refine .internal ?_
        rintro rfl
        exact a.toFloat_ne_closed he
      · next e he _ =>
        cases h
        refine .internal ?_
        rintro rfl
        exact b.toFloat_ne_closed he

theorem apply_ordinary {op : Operator} (h : op.apply left right = .error f) : f.IsOrdinary := by
  cases op with
  | assign =>
    cases h
    exact ⟨rfl, by simp⟩
  | equal => cases h
  | notEqual => cases h
  | other j =>
    cases h
    exact ⟨rfl, by simp⟩
  | arithmetic op =>
    unfold apply applyArithmetic at h
    dsimp only at h
    split at h
    · exact onNumbers_ordinary h
    · obtain h | ⟨⟨l, r⟩, -, h⟩ := bind_eq_error.mp h
      · exact texts_ordinary h
      · dsimp only at h
        split at h <;> cases h
        exact ⟨rfl, by simp⟩
  | order op =>
    unfold apply applyOrder at h
    dsimp only at h
    split at h
    · cases h
    · split at h
      · cases h
      · obtain h | ⟨⟨l, r⟩, -, h⟩ := bind_eq_error.mp h
        · exact texts_ordinary h
        · cases h
          exact ⟨rfl, by simp⟩

end Operator

namespace Eval

variable {scope : ScopeId} {x : Json} {m m' : Machine} {f : Fault}

theorem keyOf_ordinary (h : Scopes.keyOf x = .error f) : f.IsOrdinary := by
  unfold Scopes.keyOf at h
  split at h <;> cases h
  exact .internal (by simp)

theorem lookup_faults (h : lookup scope x m = (.fault f, m')) :
    f = .undeclared x ∨ f.IsOrdinary := by
  unfold lookup at h
  split at h
  · cases h
  · next e he =>
    cases h
    obtain he | ⟨key, -, he⟩ := bind_eq_error.mp he
    · exact .inr (keyOf_ordinary he)
    · split at he <;> cases he
      exact .inl rfl

theorem assign_faults {v : Value} (h : assign scope x v m = (.fault f, m')) :
    f = .unassignable x ∨ f.IsOrdinary := by
  rw [assign_run] at h
  split at h
  · cases h
  · next e he =>
    cases h
    obtain he | ⟨key, -, he⟩ := bind_eq_error.mp he
    · exact .inr (keyOf_ordinary he)
    · split at he <;> cases he
      exact .inl rfl

theorem declare_ordinary {v : Value} (h : declare scope x v m = (.fault f, m')) :
    f.IsOrdinary := by
  rw [declare_run] at h
  split at h
  · cases h
  · next e he =>
    cases h
    obtain he | ⟨key, -, he⟩ := bind_eq_error.mp he
    · exact keyOf_ordinary he
    · split at he <;> cases he
      exact ⟨rfl, by simp⟩

theorem bindParams_ordinary {params : List Json} {args : List Value}
    (h : Evaluator.bindParams scope params args m = (.fault f, m')) : f.IsOrdinary := by
  induction params generalizing m args with
  | nil => cases h
  | cons param params ih =>
    obtain h | ⟨-, m₁, -, h⟩ := bind_fault.mp h
    · exact declare_ordinary h
    · exact ih h

theorem step_ordinary {rule : Json} {call : Option (Json × List Value)}
    (h : step rule scope call m = (.fault f, m')) : f.IsOrdinary := by
  unfold step at h
  split at h
  · cases h
  · split at h
    · split at h
      · cases h
      · next b hb =>
        cases h
        refine .internal ?_
        rintro rfl
        exact notes_ne_closed _ _ _ hb
    · cases h

/-- A builtin fails for a value without a text, or as the sink says, and changes nothing then. -/
theorem callBuiltin_faults {vs : List Value} (h : Evaluator.callBuiltin vs m = (.fault f, m')) :
    f.IsOrdinary ∨ m = m' ∧ ∃ words, texts vs = .ok words ∧
      m.sink.refusal? m.output (" ".intercalate words) = some f := by
  unfold Evaluator.callBuiltin at h
  cases hwords : texts vs with
  | error b =>
    rw [hwords] at h
    cases h
    refine .inl (.internal ?_)
    rintro rfl
    exact texts_ne_closed vs hwords
  | ok words =>
    rw [hwords] at h
    have hprint := return_fault.mp h
    unfold print at hprint
    split at hprint
    · next e he =>
      cases hprint
      exact .inr ⟨rfl, words, rfl, he⟩
    · cases hprint

end Eval

/-! ## Activities -/

/-- The activity finds that a name is not bound which it reads or assigns to. -/
inductive Misses : Activity → Fault → Machine → Prop
  | read {fuel node scope x m m'} : Eval.lookup scope x m = (.fault (.undeclared x), m') →
      Misses ⟨fuel + 1, .evaluate node scope, m⟩ (.undeclared x) m'
  | assigned {fuel node right scope x m v m₁ m'} :
      Evaluator.evaluate fuel right scope m = (.value v, m₁) →
      Eval.assign scope x v m₁ = (.fault (.unassignable x), m') →
      Misses ⟨fuel + 1, .evaluate node scope, m⟩ (.unassignable x) m'

/-- The sink refuses the line that the activity has a builtin print, after the step of the call. -/
inductive Refused : Activity → Fault → Machine → Prop
  | intro {fuel x args scope m name home m₁ vs m₂ words f m'} :
      Eval.lookup scope x m = (.value (.builtin name home), m₁) →
      Evaluator.evaluateAll fuel args scope m₁ = (.value vs, m₂) →
      Eval.step x scope (some (x, vs)) m₂ = (.value (), m') →
      Eval.texts vs = .ok words →
      m'.sink.refusal? m'.output (" ".intercalate words) = some f →
      Refused ⟨fuel + 1, .evaluate (.call x args) scope, m⟩ f m'

/-- The own faults of an activity are ordinary, but for names that are not bound and lines that are
refused. -/
theorem Breaks.sorted {a : Activity} {f : Fault} {m : Machine} (h : Breaks a f m) :
    f.IsOrdinary ∨ Misses a f m ∨ Refused a f m := by
  cases h with
  | identifier hlookup =>
    obtain rfl | hf := Eval.lookup_faults hlookup
    · exact .inr (.inl (.read hlookup))
    · exact .inl hf
  | callee hlookup =>
    obtain rfl | hf := Eval.lookup_faults hlookup
    · exact .inr (.inl (.read hlookup))
    · exact .inl hf
  | assignment _ hright hassign =>
    obtain rfl | hf := Eval.assign_faults hassign
    · exact .inr (.inl (.assigned hright hassign))
    · exact .inl hf
  | builtin hcallee hargs hstep hcall =>
    obtain hf | ⟨rfl, words, hwords, hrefused⟩ := Eval.callBuiltin_faults hcall
    · exact .inl hf
    · exact .inr (.inr (.intro hcallee hargs hstep hwords hrefused))
  | operation _ _ _ happly => exact .inl (Operator.apply_ordinary happly)
  | calling _ _ hstep => exact .inl (Eval.step_ordinary hstep)
  | statement hstep => exact .inl (Eval.step_ordinary hstep)
  | parameters _ hparams => exact .inl (Eval.bindParams_ordinary hparams)
  | declaration _ _ hdeclare => exact .inl (Eval.declare_ordinary hdeclare)
  | function _ hdeclare => exact .inl (Eval.declare_ordinary hdeclare)
  | _ => exact .inl ⟨rfl, by simp⟩

end ScriptLang
