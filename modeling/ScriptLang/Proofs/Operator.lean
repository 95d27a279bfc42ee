import ScriptLang.Operator
import ScriptLang.Proofs.Value

/-!
# What operators give

An operator makes a number, a text or a truth value of two values: no function comes out that did not
go in, and none that did.
-/
namespace ScriptLang

/-- The value, if there is one, is data. -/
def GivesData (r : Except Fault Value) : Prop := ∀ v, r = .ok v → ∃ j, v = .data j

/-- The value, if there is one, is data without parts. -/
def GivesScalar (r : Except Fault Value) : Prop := ∀ v, r = .ok v → ∃ j, v = .data j ∧ j.IsScalar

namespace GivesScalar

theorem data {j : Json} (h : j.IsScalar) : GivesScalar (.ok (.data j)) := by
  intro v hv
  cases hv
  exact ⟨j, rfl, h⟩

theorem error (f : Fault) : GivesScalar (.error f) := by
  intro v hv
  cases hv

end GivesScalar

theorem Arithmetic.onInts_scalar (op : Arithmetic) (a b : Int) : GivesScalar (op.onInts a b) := by
  unfold onInts
  cases op with
  | divide =>
    dsimp only
    split
    · exact .data (.float _)
    · exact .error _
  | _ => exact .data (.int _)

theorem Arithmetic.onNumbers_scalar (op : Arithmetic) (a b : Value.Number) :
    GivesScalar (op.onNumbers a b) := by
  unfold onNumbers
  split
  · exact .error _
  · split
    · exact op.onInts_scalar _ _
    · split
      · exact .data (.float _)
      · exact .error _
      · exact .error _

namespace Operator

theorem applyArithmetic_scalar (op : Arithmetic) (left right : Value) :
    GivesScalar (applyArithmetic op left right) := by
  unfold applyArithmetic
  split
  · exact op.onNumbers_scalar _ _
  · cases texts left right with
    | error f => exact .error f
    | ok t =>
      simp only [bind, Except.bind]
      split
      · exact .data (.str _)
      · exact .error _

theorem applyOrder_scalar (op : Order) (left right : Value) :
    GivesScalar (applyOrder op left right) := by
  unfold applyOrder
  split
  · exact .data (.bool _)
  · split
    · exact .data (.bool _)
    · cases texts left right with
      | error f => exact .error f
      | ok t => exact .error _

theorem apply_scalar (op : Operator) (left right : Value) : GivesScalar (op.apply left right) := by
  unfold apply
  cases op with
  | assign => exact .error _
  | arithmetic op => exact applyArithmetic_scalar op left right
  | equal => exact .data (.bool _)
  | notEqual => exact .data (.bool _)
  | order op => exact applyOrder_scalar op left right
  | other j => exact .error _

theorem apply_data (op : Operator) (left right : Value) : GivesData (op.apply left right) :=
  fun v hv => (op.apply_scalar left right v hv).imp fun _ h => h.1

end Operator

end ScriptLang
