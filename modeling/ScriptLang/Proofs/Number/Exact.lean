import Mathlib.Algebra.Order.Ring.Rat
import Mathlib.Order.WithBot
import ScriptLang.Value

/-!
# Exact values of numbers

Integers and floats as points of one line, the rationals with an end on both sides for the two
infinities: an integer is the point of its value, a float that of its mantissa times a power of two,
and NaN is no point. Two numbers are compared as points, whatever their kinds; none is rounded first.

Results:
* `Value.Number.equal_iff`: equal numbers are those with the same point;
* `Value.Number.less_iff`: a number is less than another iff its point is.
-/
namespace ScriptLang

abbrev ExtendedRat := WithBot (WithTop ℚ)

def ExtendedRat.ofRat (q : ℚ) : ExtendedRat := ((q : WithTop ℚ) : WithBot (WithTop ℚ))

namespace ExtendedRat

@[simp] theorem ofRat_inj {p q : ℚ} : ofRat p = ofRat q ↔ p = q := by
  simp [ofRat]

@[simp] theorem ofRat_lt_ofRat {p q : ℚ} : ofRat p < ofRat q ↔ p < q := by
  simp [ofRat]

@[simp] theorem ofRat_ne_bot (q : ℚ) : ofRat q ≠ ⊥ := WithBot.coe_ne_bot

@[simp] theorem bot_ne_ofRat (q : ℚ) : ⊥ ≠ ofRat q := (ofRat_ne_bot q).symm

@[simp] theorem ofRat_ne_top (q : ℚ) : ofRat q ≠ ⊤ := by
  simp [ofRat, ← WithBot.coe_top]

@[simp] theorem top_ne_ofRat (q : ℚ) : ⊤ ≠ ofRat q := (ofRat_ne_top q).symm

@[simp] theorem bot_lt_ofRat (q : ℚ) : ⊥ < ofRat q := WithBot.bot_lt_coe _

@[simp] theorem ofRat_lt_top (q : ℚ) : ofRat q < ⊤ := lt_top_iff_ne_top.mpr (ofRat_ne_top q)

end ExtendedRat

namespace Binary64

/-! ## Points -/

def Exact.point? : Exact → Option ExtendedRat
  | .nan => none
  | .negativeInfinity => some ⊥
  | .finite d => some (.ofRat d.toRat)
  | .positiveInfinity => some ⊤

/-- The point of the parts of a float: a finite one is `± mantissa * 2 ^ exponent`. -/
def Parts.point? : Parts → Option ExtendedRat
  | .nan => none
  | .infinite negative => some (if negative then ⊥ else ⊤)
  | .finite negative mantissa exponent =>
    some (.ofRat (signed negative mantissa * 2 ^ exponent))

theorem Parts.point?_exact (p : Parts) : p.exact.point? = p.point? := by
  cases p with
  | nan => rfl
  | infinite negative => cases negative <;> rfl
  | finite negative mantissa exponent =>
    simp only [exact, point?, Exact.point?]
    rw [Dyadic.toRat_ofIntWithPrec_eq_mul_two_pow, neg_neg]

theorem Exact.point?_ofInt (n : Int) : (Exact.ofInt n).point? = some (.ofRat n) :=
  congrArg (some ∘ ExtendedRat.ofRat) (Dyadic.toRat_intCast n)

/-! ## Comparison -/

theorem Exact.equal_iff {a b : Exact} :
    a.equal b = true ↔ a.point? = b.point? ∧ a.point?.isSome := by
  cases a <;> cases b <;> simp [equal, point?, Dyadic.toRat_inj]

theorem Exact.less_iff {a b : Exact} :
    a.less b = true ↔ ∃ p q, a.point? = some p ∧ b.point? = some q ∧ p < q := by
  cases a <;> cases b <;> simp [less, point?, Dyadic.toRat_lt_toRat_iff]

end Binary64

namespace Value.Number

/-- The point of a number: its value, wherever it is one. -/
def point? : Number → Option ExtendedRat
  | .int n => some (.ofRat n)
  | .float x => (Binary64.parts x).point?

theorem point?_exact (n : Number) : n.exact.point? = n.point? := by
  cases n with
  | int n => exact Binary64.Exact.point?_ofInt n
  | float x => exact (Binary64.parts x).point?_exact

variable {m n : Number}

theorem equal_iff : m.exact.equal n.exact = true ↔ m.point? = n.point? ∧ m.point?.isSome := by
  rw [Binary64.Exact.equal_iff, point?_exact, point?_exact]

theorem less_iff :
    m.exact.less n.exact = true ↔ ∃ p q, m.point? = some p ∧ n.point? = some q ∧ p < q := by
  rw [Binary64.Exact.less_iff, point?_exact, point?_exact]

variable {p q : ExtendedRat}

theorem equal_of_points (hm : m.point? = some p) (hn : n.point? = some q) :
    m.exact.equal n.exact = decide (p = q) := by
  rw [Bool.eq_iff_iff, equal_iff, hm, hn]
  simp

theorem less_of_points (hm : m.point? = some p) (hn : n.point? = some q) :
    m.exact.less n.exact = decide (p < q) := by
  rw [Bool.eq_iff_iff, less_iff, hm, hn]
  simp

end Value.Number

end ScriptLang
