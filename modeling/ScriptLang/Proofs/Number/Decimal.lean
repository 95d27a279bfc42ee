import ScriptLang.Proofs.Number.Digits
import ScriptLang.Proofs.Number.Rounding

/-!
# Decimal numerals

The float that a decimal numeral is rounded to, whatever its digits and its exponent are.

Result:
* `ofDecimal_of_between`: a numeral between the midpoints around a float is read as that float.
-/
namespace ScriptLang.Binary64

open IntText

section
variable {m : Nat} {e : ℤ}

theorem two_zpow_lt_ten_zpow : (2 : ℚ) ^ (1100 : ℤ) < 10 ^ (400 : ℤ) := by
  have h : (2 ^ 11 : ℚ) ^ 100 < (10 ^ 4) ^ 100 := by
    gcongr
    norm_num
  rw [← pow_mul, ← pow_mul] at h
  rw [show (1100 : ℤ) = (11 * 100 : ℕ) from rfl, show (400 : ℤ) = (4 * 100 : ℕ) from rfl,
    zpow_natCast, zpow_natCast]
  exact h

/-- The numbers that are rounded to a positive float are not far outside the range. -/
theorem Between.range {q : ℚ} (h : Between m e q) (hp : IsPositive m e) (he : e ≤ 971) :
    (10 : ℚ) ^ (-400 : ℤ) ≤ q ∧ q < 10 ^ (400 : ℤ) := by
  have hpow : (0 : ℚ) < 2 ^ e := by positivity
  have hb := below_le m e
  have hone : (1 : ℚ) ≤ m := by exact_mod_cast hp.pos
  have hlt : (m : ℚ) + 1 ≤ 2 ^ 53 := by exact_mod_cast hp.lt
  have hleast := hp.least
  have hlow := h.low
  have hhigh := h.high
  rw [le_div_iff₀ hpow] at hlow
  rw [div_le_iff₀ hpow] at hhigh
  constructor
  · calc (10 : ℚ) ^ (-400 : ℤ) = (10 ^ (400 : ℤ))⁻¹ := zpow_neg _ _
      _ ≤ (2 ^ (1100 : ℤ))⁻¹ := inv_anti₀ (by positivity) two_zpow_lt_ten_zpow.le
      _ = 2 ^ (-1100 : ℤ) := (zpow_neg _ _).symm
      _ ≤ 2 ^ (e - 1) := zpow_le_zpow_right₀ one_le_two (by omega)
      _ = 1 / 2 * 2 ^ e := by
          rw [zpow_sub_one₀ two_ne_zero]
          ring
      _ ≤ (m - below m e) * 2 ^ e := by
          gcongr
          linarith
      _ ≤ q := hlow
  · calc q ≤ (m + 1 / 2) * 2 ^ e := hhigh
      _ ≤ 2 ^ (53 : ℤ) * 2 ^ e := by
          gcongr
          norm_num at hlt ⊢
          linarith
      _ = 2 ^ (53 + e) := (zpow_add₀ two_ne_zero _ _).symm
      _ ≤ 2 ^ (1100 : ℤ) := zpow_le_zpow_right₀ one_le_two (by omega)
      _ < 10 ^ (400 : ℤ) := two_zpow_lt_ten_zpow

/-- The size of a numeral, the number of digits before its point, bounds its value. -/
theorem size_bounds {digits : Nat} (h : 0 < digits) (exponent : ℤ) :
    (10 : ℚ) ^ (exponent + (Nat.toDigits 10 digits).length - 1) ≤ digits * 10 ^ exponent ∧
      (digits : ℚ) * 10 ^ exponent < 10 ^ (exponent + (Nat.toDigits 10 digits).length) := by
  have hten : (0 : ℚ) < 10 ^ exponent := by positivity
  have hlen : 0 < (Nat.toDigits 10 digits).length := Nat.length_toDigits_pos
  obtain ⟨hlow, hhigh⟩ := toDigits_bounds h
  generalize (Nat.toDigits 10 digits).length = length at hlen hlow hhigh ⊢
  have hlow' : (10 : ℚ) ^ (length - 1) ≤ digits := by exact_mod_cast hlow
  have hhigh' : (digits : ℚ) < 10 ^ length := by exact_mod_cast hhigh
  constructor
  · rw [show exponent + length - 1 = ((length - 1 : ℕ) : ℤ) + exponent by omega,
      zpow_add₀ (by norm_num), zpow_natCast]
    gcongr
  · rw [add_comm exponent, zpow_add₀ (by norm_num), zpow_natCast]
    gcongr

theorem bits_lt_overflow (hp : IsPositive m e) (he : e ≤ 971) :
    (e + 1074).toNat * 2 ^ 52 + m < overflowBits := by
  have hle : (e + 1074).toNat * 2 ^ 52 ≤ 2045 * 2 ^ 52 := Nat.mul_le_mul_right _ (by omega)
  have hlt := hp.lt
  rw [overflowBits, Nat.pow_eq]
  omega

theorem ofQuotient_of_between {num den : Nat} (negative : Bool) (hd : 0 < den)
    (hp : IsPositive m e) (he : e ≤ 971) (h : Between m e (num / den)) :
    ofQuotient? negative num den = some (ofMagnitude negative ((e + 1074).toNat * 2 ^ 52 + m)) := by
  have hn : 0 < num := by
    by_contra hle
    obtain ⟨hrange, -⟩ := h.range hp he
    have hzero : (num : ℚ) = 0 := by exact_mod_cast (show num = 0 by omega)
    rw [hzero, zero_div] at hrange
    exact absurd hrange (not_le_of_gt (by positivity))
  rw [ofQuotient?, roundedBits_of_between hn hd hp h]
  exact if_pos (bits_lt_overflow hp he)

theorem ofDecimal_of_between {digits : Nat} {exponent : ℤ} (negative : Bool)
    (hp : IsPositive m e) (he : e ≤ 971) (h : Between m e (digits * 10 ^ exponent)) :
    ofDecimal negative digits exponent =
      ofMagnitude negative ((e + 1074).toNat * 2 ^ 52 + m) := by
  obtain ⟨hlow, hhigh⟩ := h.range hp he
  have hpos : 0 < digits := by
    by_contra hle
    have hzero : (digits : ℚ) = 0 := by exact_mod_cast (show digits = 0 by omega)
    rw [hzero, zero_mul] at hlow
    exact absurd hlow (not_le_of_gt (by positivity))
  obtain ⟨hten, hten'⟩ := size_bounds hpos exponent
  unfold ofDecimal
  dsimp only
  generalize exponent + ((Nat.toDigits 10 digits).length : ℤ) = size at hten hten' ⊢
  have hsmall : -400 < size :=
    (zpow_lt_zpow_iff_right₀ (by norm_num)).mp (hlow.trans_lt hten')
  have hlarge : size - 1 < 400 :=
    (zpow_lt_zpow_iff_right₀ (by norm_num)).mp (hten.trans_lt hhigh)
  rw [if_neg (by omega), if_neg (by omega)]
  by_cases hsign : 0 ≤ exponent
  · obtain ⟨k, rfl⟩ := Int.eq_ofNat_of_zero_le hsign
    have hq : ((digits * Nat.pow 10 k : ℕ) : ℚ) / (1 : ℕ) = digits * 10 ^ (k : ℤ) := by
      rw [Nat.pow_eq, zpow_natCast]
      push_cast
      rw [div_one]
    rw [if_pos hsign, Int.toNat_natCast,
      ofQuotient_of_between negative Nat.one_pos hp he (by rw [hq]; exact h), Option.getD_some]
  · obtain ⟨k, hk⟩ := Int.eq_ofNat_of_zero_le (show 0 ≤ -exponent by omega)
    have hq : (digits : ℚ) / (Nat.pow 10 k : ℕ) = digits * 10 ^ exponent := by
      rw [show exponent = -(k : ℤ) by omega, zpow_neg, zpow_natCast, Nat.pow_eq, div_eq_mul_inv]
      push_cast
      rfl
    have hpow : 0 < Nat.pow 10 k := Nat.pow_pos (by decide)
    rw [if_neg hsign, hk, Int.toNat_natCast,
      ofQuotient_of_between negative hpow hp he (by rw [hq]; exact h), Option.getD_some]

end

theorem ofDecimal_zero (negative : Bool) (exponent : ℤ) :
    ofDecimal negative 0 exponent = ofMagnitude negative 0 := by
  unfold ofDecimal
  dsimp only
  rw [if_pos (Or.inl rfl)]

end ScriptLang.Binary64
