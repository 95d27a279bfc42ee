import Mathlib.Algebra.Order.Field.Power
import Mathlib.Tactic.FieldSimp
import Mathlib.Tactic.Linarith
import Mathlib.Tactic.Positivity
import Mathlib.Tactic.Ring
import ScriptLang.Number.Binary64

/-!
# Rounding

What a number must lie between to be rounded to a given float. Numbers are quotients of naturals,
seen as rationals.

Results:
* `floorLog2_eq`: the exponent of a quotient;
* `roundHalfEven_eq`: the integer that a quotient is rounded to;
* `roundedBits_of_between`: everything between the midpoints around a float is rounded to it.
-/
namespace ScriptLang.Binary64

/-! ## The exponent of a quotient -/

theorem zpow_log2_le {n : Nat} (hn : 0 < n) : (2 : ℚ) ^ (n.log2 : ℤ) ≤ n := by
  have h := Nat.log2_self_le (Nat.ne_of_gt hn)
  rw [zpow_natCast]
  exact_mod_cast h

theorem lt_zpow_log2 (n : Nat) : (n : ℚ) < 2 ^ ((n.log2 : ℤ) + 1) := by
  have h : n < 2 ^ (n.log2 + 1) := Nat.lt_log2_self
  have hc : ((n.log2 : ℤ) + 1) = ((n.log2 + 1 : ℕ) : ℤ) := rfl
  rw [hc, zpow_natCast]
  exact_mod_cast h

/-- The two tests of `floorLog2` are one comparison of rationals. -/
theorem fits_iff (num : Nat) {den : Nat} (hd : 0 < den) (guess : Int) :
    (if 0 ≤ guess then den * Nat.pow 2 guess.toNat ≤ num
      else den ≤ num * Nat.pow 2 (-guess).toNat) ↔ (2 : ℚ) ^ guess ≤ num / den := by
  have hd' : (0 : ℚ) < den := by exact_mod_cast hd
  rw [le_div_iff₀ hd']
  split
  · next h =>
    obtain ⟨k, rfl⟩ := Int.eq_ofNat_of_zero_le h
    rw [Int.toNat_natCast, zpow_natCast, mul_comm]
    exact_mod_cast Iff.rfl
  · next h =>
    obtain ⟨k, hk⟩ := Int.eq_ofNat_of_zero_le (show 0 ≤ -guess by omega)
    rw [hk, show guess = -(k : ℤ) by omega, Int.toNat_natCast, zpow_neg, zpow_natCast,
      inv_mul_le_iff₀ (by positivity), mul_comm]
    exact_mod_cast Iff.rfl

theorem floorLog2_spec {num den : Nat} (hn : 0 < num) (hd : 0 < den) :
    (2 : ℚ) ^ floorLog2 num den ≤ num / den ∧ (num : ℚ) / den < 2 ^ (floorLog2 num den + 1) := by
  have hd' : (0 : ℚ) < den := by exact_mod_cast hd
  have hup : (num : ℚ) / den < 2 ^ ((num.log2 : ℤ) - den.log2 + 1) := by
    have h₁ := lt_zpow_log2 num
    have h₂ := zpow_log2_le hd
    rw [div_lt_iff₀ hd']
    calc (num : ℚ) < 2 ^ ((num.log2 : ℤ) - den.log2 + 1) * 2 ^ (den.log2 : ℤ) := by
          rw [← zpow_add₀ two_ne_zero]
          convert h₁ using 2
          ring
      _ ≤ 2 ^ ((num.log2 : ℤ) - den.log2 + 1) * den := by gcongr
  have hlow : (2 : ℚ) ^ ((num.log2 : ℤ) - den.log2 - 1) ≤ num / den := by
    have h₁ := zpow_log2_le hn
    have h₂ := lt_zpow_log2 den
    rw [le_div_iff₀ hd']
    calc (2 : ℚ) ^ ((num.log2 : ℤ) - den.log2 - 1) * den
        ≤ 2 ^ ((num.log2 : ℤ) - den.log2 - 1) * 2 ^ ((den.log2 : ℤ) + 1) := by gcongr
      _ = 2 ^ (num.log2 : ℤ) := by
          rw [← zpow_add₀ two_ne_zero]
          congr 1
          ring
      _ ≤ num := h₁
  have hfits := fits_iff num hd ((num.log2 : ℤ) - den.log2)
  by_cases h : (2 : ℚ) ^ ((num.log2 : ℤ) - den.log2) ≤ num / den
  · have hf : floorLog2 num den = (num.log2 : ℤ) - den.log2 := if_pos (hfits.mpr h)
    rw [hf]
    exact ⟨h, hup⟩
  · have hf : floorLog2 num den = (num.log2 : ℤ) - den.log2 - 1 := if_neg (mt hfits.mp h)
    rw [hf, sub_add_cancel]
    exact ⟨hlow, lt_of_not_ge h⟩

theorem floorLog2_eq {num den : Nat} (hn : 0 < num) (hd : 0 < den) {k : ℤ}
    (hlow : (2 : ℚ) ^ k ≤ num / den) (hup : (num : ℚ) / den < 2 ^ (k + 1)) :
    floorLog2 num den = k := by
  obtain ⟨h₁, h₂⟩ := floorLog2_spec hn hd
  have hle : floorLog2 num den < k + 1 :=
    (zpow_lt_zpow_iff_right₀ one_lt_two).mp (lt_of_le_of_lt h₁ hup)
  have hge : k < floorLog2 num den + 1 :=
    (zpow_lt_zpow_iff_right₀ one_lt_two).mp (lt_of_le_of_lt hlow h₂)
  omega

theorem floorLog2_lt {num den : Nat} (hn : 0 < num) (hd : 0 < den) {k : ℤ}
    (hup : (num : ℚ) / den < 2 ^ k) : floorLog2 num den < k :=
  (zpow_lt_zpow_iff_right₀ one_lt_two).mp (lt_of_le_of_lt (floorLog2_spec hn hd).1 hup)

/-! ## The nearest integer -/

/-- The number is rounded to the integer `m`: it is nearer to it than to any other, or half way to
another and `m` is even. -/
def RoundsTo (m : Nat) (q : ℚ) : Prop :=
  (m : ℚ) - 1 / 2 < q ∧ q < m + 1 / 2 ∨ m % 2 = 0 ∧ (m : ℚ) - 1 / 2 ≤ q ∧ q ≤ m + 1 / 2

theorem roundsTo_div_iff {num den m : Nat} (hd : 0 < den) :
    RoundsTo m ((num : ℚ) / den) ↔
      2 * (den * m) < 2 * num + den ∧ 2 * num < 2 * (den * m) + den ∨
        m % 2 = 0 ∧ 2 * (den * m) ≤ 2 * num + den ∧ 2 * num ≤ 2 * (den * m) + den := by
  have hd' : (0 : ℚ) < den := by exact_mod_cast hd
  have hle : (m : ℚ) - 1 / 2 ≤ num / den ↔ 2 * (den * m) ≤ 2 * num + den := by
    rw [le_div_iff₀ hd', ← Nat.cast_le (α := ℚ)]
    push_cast
    constructor <;> intro h <;> linarith
  have hge : (num : ℚ) / den ≤ m + 1 / 2 ↔ 2 * num ≤ 2 * (den * m) + den := by
    rw [div_le_iff₀ hd', ← Nat.cast_le (α := ℚ)]
    push_cast
    constructor <;> intro h <;> linarith
  have hlt : (m : ℚ) - 1 / 2 < num / den ↔ 2 * (den * m) < 2 * num + den := by
    rw [lt_div_iff₀ hd', ← Nat.cast_lt (α := ℚ)]
    push_cast
    constructor <;> intro h <;> linarith
  have hgt : (num : ℚ) / den < m + 1 / 2 ↔ 2 * num < 2 * (den * m) + den := by
    rw [div_lt_iff₀ hd', ← Nat.cast_lt (α := ℚ)]
    push_cast
    constructor <;> intro h <;> linarith
  rw [RoundsTo, hle, hge, hlt, hgt]

theorem roundHalfEven_eq {num den m : Nat} (hd : 0 < den) (h : RoundsTo m (num / den)) :
    roundHalfEven num den = m := by
  rw [roundsTo_div_iff hd] at h
  have hdiv := Nat.div_add_mod num den
  have hmod := Nat.mod_lt num hd
  unfold roundHalfEven
  dsimp only
  generalize num / den = whole at hdiv ⊢
  generalize num % den = rest at hdiv hmod ⊢
  -- only the integers on both sides of the quotient can be meant
  have hlow : whole ≤ m := by
    by_contra hlt
    have := Nat.mul_le_mul_left den (show m + 1 ≤ whole by omega)
    rw [Nat.mul_add, Nat.mul_one] at this
    omega
  have hhigh : m ≤ whole + 1 := by
    by_contra hlt
    have := Nat.mul_le_mul_left den (show whole + 2 ≤ m by omega)
    rw [Nat.mul_add] at this
    omega
  rcases (show m = whole ∨ m = whole + 1 by omega) with rfl | rfl
  · rw [if_neg (by omega)]
  · rw [Nat.mul_add, Nat.mul_one] at h
    rw [if_pos (by omega)]

/-! ## The bits of a quotient -/

/-- A quotient counted in units of a power of two. -/
theorem roundHalfEven_scaled {num den m : Nat} (hd : 0 < den) (unit : ℤ)
    (h : RoundsTo m ((num : ℚ) / den / 2 ^ unit)) :
    (if 0 ≤ unit then roundHalfEven num (den * Nat.pow 2 unit.toNat)
      else roundHalfEven (num * Nat.pow 2 (-unit).toNat) den) = m := by
  split
  · next hu =>
    obtain ⟨k, rfl⟩ := Int.eq_ofNat_of_zero_le hu
    rw [Int.toNat_natCast]
    refine roundHalfEven_eq (Nat.mul_pos hd (Nat.pow_pos (by decide))) ?_
    convert h using 1
    rw [zpow_natCast, div_div, Nat.pow_eq]
    push_cast
    rfl
  · next hu =>
    obtain ⟨k, hk⟩ := Int.eq_ofNat_of_zero_le (show 0 ≤ -unit by omega)
    rw [hk, Int.toNat_natCast]
    refine roundHalfEven_eq hd ?_
    convert h using 1
    rw [show unit = -(k : ℤ) by omega, zpow_neg, zpow_natCast, div_inv_eq_mul, Nat.pow_eq]
    push_cast
    rw [div_mul_eq_mul_div]

theorem roundedBits_eq {num den m : Nat} (hn : 0 < num) (hd : 0 < den) {unit : ℤ}
    (hunit : max (floorLog2 num den - 52) (-1074) = unit)
    (h : RoundsTo m ((num : ℚ) / den / 2 ^ unit)) :
    roundedBits num den = (unit + 1074).toNat * 2 ^ 52 + m := by
  unfold roundedBits
  rw [if_neg (by omega)]
  dsimp only
  rw [hunit, roundHalfEven_scaled hd unit h]
  rfl

/-- Mantissas and exponents of the positive floats. -/
structure IsPositive (mantissa : Nat) (exponent : ℤ) : Prop where
  pos : 0 < mantissa
  lt : mantissa < 2 ^ 53
  normal : 2 ^ 52 ≤ mantissa ∨ exponent = -1074
  least : -1074 ≤ exponent

/-- How far the numbers that are rounded to a float go below it, in units of its exponent. Below a
power of two the floats are twice as close. -/
def below (mantissa : Nat) (exponent : ℤ) : ℚ :=
  if mantissa = 2 ^ 52 ∧ -1074 < exponent then 1 / 4 else 1 / 2

/-- The number lies between the midpoints around a float. The midpoints belong to the float if its
mantissa is even. -/
structure Between (mantissa : Nat) (exponent : ℤ) (q : ℚ) : Prop where
  low : mantissa - below mantissa exponent ≤ q / 2 ^ exponent
  high : q / 2 ^ exponent ≤ mantissa + 1 / 2
  open_of_odd : mantissa % 2 = 1 →
    mantissa - below mantissa exponent < q / 2 ^ exponent ∧ q / 2 ^ exponent < mantissa + 1 / 2

theorem below_le (m : Nat) (e : ℤ) : below m e ≤ 1 / 2 := by
  unfold below
  split <;> norm_num

theorem Between.roundsTo {m : Nat} {e : ℤ} {q : ℚ} (h : Between m e q) :
    RoundsTo m (q / 2 ^ e) := by
  have hb := below_le m e
  rcases Nat.mod_two_eq_zero_or_one m with heven | hodd
  · have h₁ := h.low
    exact .inr ⟨heven, by linarith, h.high⟩
  · obtain ⟨h₁, h₂⟩ := h.open_of_odd hodd
    exact .inl ⟨by linarith, h₂⟩

theorem roundedBits_of_between {num den m : Nat} {e : ℤ} (hn : 0 < num) (hd : 0 < den)
    (hp : IsPositive m e) (h : Between m e (num / den)) :
    roundedBits num den = (e + 1074).toNat * 2 ^ 52 + m := by
  have hpow : (0 : ℚ) < 2 ^ e := by positivity
  have hbelow := below_le m e
  have hle : (m : ℚ) + 1 ≤ 2 ^ 53 := by exact_mod_cast hp.lt
  -- the number in units of the exponent
  have hunits : ∀ k : ℤ, (2 : ℚ) ^ (k + e) = 2 ^ k * 2 ^ e := fun k => zpow_add₀ two_ne_zero k e
  have hup : (num : ℚ) / den < 2 ^ (53 + e) := by
    have := h.high
    rw [hunits, ← div_lt_iff₀ hpow]
    linarith
  by_cases hbig : (2 : ℚ) ^ (52 + e) ≤ num / den
  · have hfloor : floorLog2 num den = 52 + e := by
      refine floorLog2_eq hn hd hbig ?_
      rwa [show 52 + e + 1 = 53 + e by ring]
    refine roundedBits_eq hn hd ?_ h.roundsTo
    have := hp.least
    omega
  · rcases eq_or_lt_of_le hp.least with he | he
    · -- below the normal floats there is one exponent
      have hfloor := floorLog2_lt hn hd (lt_of_not_ge hbig)
      refine roundedBits_eq hn hd ?_ h.roundsTo
      omega
    · -- the mantissa is the least one, and the number is counted in half its units
      have hsmall : (num : ℚ) / den / 2 ^ e < 2 ^ 52 := by
        rw [div_lt_iff₀ hpow]
        have := lt_of_not_ge hbig
        rwa [hunits] at this
      have hm : m = 2 ^ 52 := by
        have hlow := h.low
        have hlt : (m : ℚ) < 2 ^ 52 + 1 := by linarith
        have hlt' : m < 2 ^ 52 + 1 := by exact_mod_cast hlt
        have := hp.normal
        omega
      have hquarter : below m e = 1 / 4 := if_pos ⟨hm, he⟩
      have hlow : (2 : ℚ) ^ 52 - 1 / 4 ≤ num / den / 2 ^ e := by
        have := h.low
        rw [hquarter, hm] at this
        exact_mod_cast this
      have hfloor : floorLog2 num den = 51 + e := by
        refine floorLog2_eq hn hd ?_ ?_
        · rw [hunits, ← le_div_iff₀ hpow]
          norm_num
          linarith
        · rw [show 51 + e + 1 = 52 + e by ring]
          exact lt_of_not_ge hbig
      have hround : RoundsTo (2 ^ 53) ((num : ℚ) / den / 2 ^ (e - 1)) := by
        have hhalf : (num : ℚ) / den / 2 ^ (e - 1) = 2 * (num / den / 2 ^ e) := by
          rw [zpow_sub_one₀ two_ne_zero]
          field_simp
        rw [hhalf]
        refine .inr ⟨by norm_num, ?_, ?_⟩ <;> push_cast <;> linarith
      rw [roundedBits_eq hn hd (by omega) hround, hm]
      have := hp.least
      omega

end ScriptLang.Binary64
