import ScriptLang.Machine
import ScriptLang.Proofs.Operator

/-!
# Documented faults

The ways in which a program can fail by itself, as far as the language documents them, each with the
values that it is about. Breakdowns are among them only where an integer cannot be made a float, a
quotient cannot be one, or an integer has too many digits for a text. Assignments to something else
than a name, strange operators and misplaced nodes are not among them: only a stored program can have
any.

Results:
* `Operator.apply_documented`: the operators of the language fail only in these ways;
* `notes_error`: a step is noted unless a value of the scope or of the call is too long.
-/
namespace ScriptLang

theorem bind_eq_error {ε α β : Type} {x : Except ε α} {k : α → Except ε β} {e : ε} :
    x >>= k = .error e ↔ x = .error e ∨ ∃ a, x = .ok a ∧ k a = .error e := by
  cases x with
  | error e' => simp [bind, Except.bind]
  | ok a => simp [bind, Except.bind]

/-- Two values that have an order: two numbers or two strings. -/
def Value.Comparable (left right : Value) : Prop :=
  (left.number?.isSome ∧ right.number?.isSome) ∨
    ∃ s t, left = .data (.str s) ∧ right = .data (.str t)

/-- The faults of programs that come from source texts, when `Seen` has the values that the program
has met: what a fault is about is among them. -/
inductive Fault.IsDocumented (Seen : Value → Prop) : Fault → Prop
  | duplicate (x : Json) : IsDocumented Seen (.duplicate x)
  | unassignable (x : Json) : IsDocumented Seen (.unassignable x)
  | undeclared (x : Json) : IsDocumented Seen (.undeclared x)
  | mainMissing : IsDocumented Seen .mainMissing
  | unlinkedImport (path : String) : IsDocumented Seen (.unlinkedImport path)
  | notAFunction {j : Json} (x : Json) : Seen (.data j) → IsDocumented Seen (.notAFunction x)
  | notNumbers {op : Arithmetic} {left right : Value} {l r : String} : op ≠ .add →
      Seen left → Seen right → left.number? = none ∨ right.number? = none →
      left.text = .ok l → right.text = .ok r → IsDocumented Seen (.notNumbers l op.symbol r)
  | divisionByZero {v : Value} {n : Value.Number} : Seen v → v.number? = some n →
      n.exact = .finite 0 → IsDocumented Seen .divisionByZero
  | notComparable {op : Order} {left right : Value} {l r : String} : Seen left → Seen right →
      ¬ left.Comparable right → left.text = .ok l → right.text = .ok r →
      IsDocumented Seen (.notComparable l op.symbol r)
  | digitLimit {v : Value} : Seen v → v.IsTooLong → IsDocumented Seen (.internal .digitLimit)
  | floatOverflow {n : Int} : Seen (.data (.int n)) → Binary64.ofInt? n = none →
      IsDocumented Seen (.internal .floatOverflow)
  | quotientOverflow {a b : Int} : Seen (.data (.int a)) → Seen (.data (.int b)) →
      Binary64.ofRatio? a b = none → IsDocumented Seen (.internal .quotientOverflow)

namespace Fault.IsDocumented

variable {Seen Seen' : Value → Prop} {f : Fault}

theorem mono (hsub : ∀ v, Seen v → Seen' v) (h : f.IsDocumented Seen) : f.IsDocumented Seen' := by
  cases h with
  | duplicate x => exact .duplicate x
  | unassignable x => exact .unassignable x
  | undeclared x => exact .undeclared x
  | mainMissing => exact .mainMissing
  | unlinkedImport path => exact .unlinkedImport path
  | notAFunction x hv => exact .notAFunction x (hsub _ hv)
  | notNumbers hop hl hr hnot htl htr => exact .notNumbers hop (hsub _ hl) (hsub _ hr) hnot htl htr
  | divisionByZero hv hn hzero => exact .divisionByZero (hsub _ hv) hn hzero
  | notComparable hl hr hnot htl htr => exact .notComparable (hsub _ hl) (hsub _ hr) hnot htl htr
  | digitLimit hv hlong => exact .digitLimit (hsub _ hv) hlong
  | floatOverflow hv hnone => exact .floatOverflow (hsub _ hv) hnone
  | quotientOverflow ha hb hnone => exact .quotientOverflow (hsub _ ha) (hsub _ hb) hnone

/-- A text that cannot be made. -/
theorem text {v : Value} {b : Breakdown} (hseen : Seen v) (hv : v.IsPlain)
    (h : v.text = .error b) : IsDocumented Seen (.internal b) := by
  obtain ⟨rfl, hlong⟩ := hv.text_error h
  exact .digitLimit hseen hlong

end Fault.IsDocumented

/-! ## Operators -/

theorem Value.number?_eq_some {v : Value} {n : Value.Number} (h : v.number? = some n) :
    v = n.toValue := by
  unfold number? at h
  split at h
  · cases h; rfl
  · cases h; rfl
  · cases h

section

variable {Seen : Value → Prop} {left right : Value} {f : Fault}

theorem Value.Number.toFloat_documented {n : Value.Number} {e : Breakdown} (hn : Seen n.toValue)
    (h : n.toFloat = .error e) : (Fault.internal e).IsDocumented Seen := by
  cases n with
  | float x => cases h
  | int n =>
    unfold toFloat at h
    dsimp only at h
    cases hfloat : Binary64.ofInt? n with
    | some x =>
      rw [hfloat] at h
      cases h
    | none =>
      rw [hfloat] at h
      cases h
      exact .floatOverflow hn hfloat

theorem Arithmetic.onInts_documented {op : Arithmetic} {a b : Int} (ha : Seen (.data (.int a)))
    (hb : Seen (.data (.int b))) (h : op.onInts a b = .error f) : f.IsDocumented Seen := by
  unfold onInts at h
  cases op with
  | divide =>
    dsimp only at h
    split at h
    · cases h
    · next hnone =>
      cases h
      exact .quotientOverflow ha hb hnone
  | _ => cases h

theorem Arithmetic.onNumbers_documented {op : Arithmetic} {a b : Value.Number}
    (ha : Seen a.toValue) (hb : Seen b.toValue) (h : op.onNumbers a b = .error f) :
    f.IsDocumented Seen := by
  unfold onNumbers at h
  split at h
  · next hzero =>
    cases h
    refine .divisionByZero hb ?_ hzero.2
    cases b <;> rfl
  · split at h
    · exact onInts_documented ha hb h
    · split at h
      · cases h
      · next e he =>
        cases h
        exact Value.Number.toFloat_documented ha he
      · next e he _ =>
        cases h
        exact Value.Number.toFloat_documented hb he

namespace Operator

theorem texts_eq_error (h : texts left right = .error f) :
    ∃ b, f = .internal b ∧ (left.text = .error b ∨ right.text = .error b) := by
  unfold texts at h
  split at h
  · cases h
  · next b hb =>
    cases h
    exact ⟨b, rfl, .inl hb⟩
  · next b hb _ =>
    cases h
    exact ⟨b, rfl, .inr hb⟩

theorem texts_documented (hl : Seen left) (hr : Seen right) (hlp : left.IsPlain)
    (hrp : right.IsPlain) (h : texts left right = .error f) : f.IsDocumented Seen := by
  obtain ⟨b, rfl, hb | hb⟩ := texts_eq_error h
  · exact .text hl hlp hb
  · exact .text hr hrp hb

theorem texts_eq_ok {l r : String} (h : texts left right = .ok (l, r)) :
    left.text = .ok l ∧ right.text = .ok r := by
  unfold texts at h
  split at h
  · next hl hr =>
    cases h
    exact ⟨hl, hr⟩
  · cases h
  · cases h

theorem applyArithmetic_documented {op : Arithmetic} (hl : Seen left) (hr : Seen right)
    (hlp : left.IsPlain) (hrp : right.IsPlain) (h : applyArithmetic op left right = .error f) :
    f.IsDocumented Seen := by
  unfold applyArithmetic at h
  split at h
  · next a b ha hb =>
    rw [Value.number?_eq_some ha] at hl
    rw [Value.number?_eq_some hb] at hr
    exact Arithmetic.onNumbers_documented hl hr h
  · next hnot =>
    obtain ht | ⟨⟨l, r⟩, ht, h⟩ := bind_eq_error.mp h
    · exact texts_documented hl hr hlp hrp ht
    · obtain ⟨htl, htr⟩ := texts_eq_ok ht
      dsimp only at h
      by_cases hop : op = .add
      · rw [if_pos hop] at h
        cases h
      · rw [if_neg hop] at h
        cases h
        refine .notNumbers hop hl hr ?_ htl htr
        cases hln : left.number? with
        | none => exact .inl rfl
        | some a =>
          cases hrn : right.number? with
          | none => exact .inr rfl
          | some b => exact (hnot a b hln hrn).elim

theorem applyOrder_documented {op : Order} (hl : Seen left) (hr : Seen right)
    (hlp : left.IsPlain) (hrp : right.IsPlain) (h : applyOrder op left right = .error f) :
    f.IsDocumented Seen := by
  unfold applyOrder at h
  split at h
  · cases h
  · next hnot =>
    split at h
    · cases h
    · next hstr =>
      obtain ht | ⟨⟨l, r⟩, ht, h⟩ := bind_eq_error.mp h
      · exact texts_documented hl hr hlp hrp ht
      · obtain ⟨htl, htr⟩ := texts_eq_ok ht
        cases h
        refine .notComparable hl hr ?_ htl htr
        rintro (⟨hln, hrn⟩ | ⟨s, t, rfl, rfl⟩)
        · obtain ⟨a, ha⟩ := Option.isSome_iff_exists.mp hln
          obtain ⟨b, hb⟩ := Option.isSome_iff_exists.mp hrn
          exact hnot a b ha hb
        · exact hstr s t rfl rfl

/-- The operators of the language fail only in documented ways. -/
theorem apply_documented {op : Operator} (hassign : op ≠ .assign) (hother : ∀ j, op ≠ .other j)
    (hl : Seen left) (hr : Seen right) (hlp : left.IsPlain) (hrp : right.IsPlain)
    (h : op.apply left right = .error f) : f.IsDocumented Seen := by
  cases op with
  | assign => exact absurd rfl hassign
  | arithmetic op => exact applyArithmetic_documented hl hr hlp hrp h
  | equal => cases h
  | notEqual => cases h
  | order op => exact applyOrder_documented hl hr hlp hrp h
  | other j => exact absurd rfl (hother j)

end Operator

end

/-! ## Texts and snapshots -/

/-- The value can be shown: it is plain, and the parameters of a function are strings. -/
structure Value.IsShowable (v : Value) : Prop where
  plain : v.IsPlain
  params : ∀ c, v = .closure c → ∀ x ∈ c.params, x.IsText

theorem texts_error {vs : List Value} {b : Breakdown} (hvs : ∀ v ∈ vs, v.IsPlain)
    (h : Eval.texts vs = .error b) : b = .digitLimit ∧ ∃ v ∈ vs, v.IsTooLong := by
  induction vs with
  | nil => cases h
  | cons v vs ih =>
    obtain ⟨hv, hvs⟩ := List.forall_mem_cons.mp hvs
    rw [Eval.texts] at h
    obtain hfirst | ⟨s, -, h⟩ := bind_eq_error.mp h
    · obtain ⟨rfl, hlong⟩ := hv.text_error hfirst
      exact ⟨rfl, v, List.mem_cons_self, hlong⟩
    · obtain hrest | ⟨ss, -, h⟩ := bind_eq_error.mp h
      · obtain ⟨rfl, w, hw, hlong⟩ := ih hvs hrest
        exact ⟨rfl, w, List.mem_cons_of_mem v hw, hlong⟩
      · cases h

theorem snapshotOf_error {bindings : List (Json × Value)} {b : Breakdown}
    (hb : ∀ e ∈ bindings, e.2.IsShowable) (h : snapshotOf bindings = .error b) :
    b = .digitLimit ∧ ∃ e ∈ bindings, e.2.IsTooLong := by
  induction bindings with
  | nil => cases h
  | cons e bindings ih =>
    obtain ⟨x, v⟩ := e
    obtain ⟨hv, hb⟩ := List.forall_mem_cons.mp hb
    rw [snapshotOf] at h
    obtain hfirst | ⟨s, -, h⟩ := bind_eq_error.mp h
    · obtain ⟨rfl, hlong⟩ := hv.plain.shown_error hv.params hfirst
      exact ⟨rfl, _, List.mem_cons_self, hlong⟩
    · obtain hrest | ⟨ss, -, h⟩ := bind_eq_error.mp h
      · obtain ⟨rfl, w, hw, hlong⟩ := ih hb hrest
        exact ⟨rfl, w, List.mem_cons_of_mem _ hw, hlong⟩
      · cases h

/-- A step is noted unless a value that the scope binds or that is passed is too long. -/
theorem notes_error {h : Scopes} {scope : ScopeId} {call : Option (Json × List Value)}
    {b : Breakdown} (hbound : ∀ e ∈ (h.get scope).bindings, e.2.IsShowable)
    (hpassed : ∀ x args, call = some (x, args) → ∀ v ∈ args, v.IsPlain)
    (herr : Eval.notes h scope call = .error b) :
    b = .digitLimit ∧ ((∃ e ∈ (h.get scope).bindings, e.2.IsTooLong) ∨
      ∃ x args, call = some (x, args) ∧ ∃ v ∈ args, v.IsTooLong) := by
  unfold Eval.notes at herr
  obtain hsnap | ⟨snapshot, -, herr⟩ := bind_eq_error.mp herr
  · obtain ⟨rfl, hlong⟩ := snapshotOf_error hbound hsnap
    exact ⟨rfl, .inl hlong⟩
  · cases call with
    | none => cases herr
    | some call =>
      obtain ⟨x, args⟩ := call
      obtain ht | ⟨texts, -, herr⟩ := bind_eq_error.mp herr
      · obtain ⟨rfl, hlong⟩ := texts_error (hpassed x args rfl) ht
        exact ⟨rfl, .inr ⟨x, args, rfl, hlong⟩⟩
      · cases herr

end ScriptLang
