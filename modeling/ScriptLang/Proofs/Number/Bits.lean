import Mathlib
import ScriptLang.Proofs.Number.Rounding

/-!
# Bit patterns

A float is its bit pattern, and there is one pattern of NaN.

Result:
* `parts_cases`: the parts of a float give it back, and what they can be.
-/
namespace ScriptLang.Binary64

open Float.Model (Format)
open Float.Model.UnpackedFloat

theorem ofMagnitude_toBits (x : Float) :
    ofMagnitude (decide (x.toBits.toNat / 2 ^ 63 % 2 = 1)) (x.toBits.toNat % 2 ^ 63) = x := by
  have hlt := x.toBits.toNat_lt
  have hbits : (if decide (x.toBits.toNat / 2 ^ 63 % 2 = 1) = true
      then Nat.pow 2 63 + x.toBits.toNat % 2 ^ 63 else x.toBits.toNat % 2 ^ 63)
      = x.toBits.toNat := by
    rw [Nat.pow_eq]
    split
    · next h =>
      rw [decide_eq_true_eq] at h
      omega
    · next h =>
      rw [decide_eq_true_eq] at h
      omega
  rw [ofMagnitude, hbits, UInt64.ofNat_toNat, Float.ofBits_toBits]

theorem exponent_toNat (b : BitVec Format.binary64.numBits) :
    (unpackExponent b).toNat = b.toNat / 2 ^ 52 % 2048 := by
  simp [unpackExponent, BitVec.extractLsb, Nat.shiftRight_eq_div_pow]

theorem mantissa_toNat (b : BitVec Format.binary64.numBits) :
    (unpackMantissa b).toNat = b.toNat % 2 ^ 52 := by
  simp [unpackMantissa, BitVec.extractLsb]

theorem eq_nan {x : Float} (hf : x.toBits.toNat / 2 ^ 52 % 2048 = 2047)
    (hm : x.toBits.toNat % 2 ^ 52 ≠ 0) : x = nan := by
  obtain ⟨⟨b, hb⟩⟩ := x
  have hf : b.toBitVec.toNat / 2 ^ 52 % 2048 = 2047 := hf
  have hm : b.toBitVec.toNat % 2 ^ 52 ≠ 0 := hm
  have hpattern : b.toBitVec = packedNaN .binary64 := by
    refine hb.eq_packedNaN (BitVec.eq_of_toNat_eq ?_) fun h => hm ?_
    · rw [exponent_toNat, hf]
      rfl
    · rw [← mantissa_toNat, h]
      rfl
  have hbits : b = 0x7ff8000000000000 := UInt64.toBitVec_inj.mp hpattern
  subst hbits
  rfl

/-- The parts of a float, and how they give the float back. -/
theorem parts_cases (x : Float) :
    (parts x = .nan ∧ x = nan) ∨
    (∃ negative, parts x = .infinite negative ∧ x = infinity negative) ∨
    (∃ negative m e, parts x = .finite negative m e ∧
      x = ofMagnitude negative ((e + 1074).toNat * 2 ^ 52 + m) ∧ e ≤ 971 ∧
      (m = 0 ∧ e = -1074 ∨ IsPositive m e)) := by
  have hx := ofMagnitude_toBits x
  have hnan := @eq_nan x
  unfold parts Parts.ofBits
  simp only [Nat.pow_eq]
  generalize x.toBits.toNat = bits at hx hnan ⊢
  generalize decide (bits / 2 ^ 63 % 2 = 1) = negative at hx ⊢
  by_cases hf : bits / 2 ^ 52 % 2048 = 2047
  · rw [if_pos hf]
    by_cases hm : bits % 2 ^ 52 = 0
    · have hbits : bits % 2 ^ 63 = overflowBits := by
        rw [overflowBits, Nat.pow_eq]
        omega
      rw [if_pos hm]
      rw [hbits] at hx
      exact .inr (.inl ⟨negative, rfl, hx.symm⟩)
    · rw [if_neg hm]
      exact .inl ⟨rfl, hnan hf hm⟩
  · rw [if_neg hf]
    by_cases h0 : bits / 2 ^ 52 % 2048 = 0
    · have hbits : bits % 2 ^ 63 = ((-1074 : ℤ) + 1074).toNat * 2 ^ 52 + bits % 2 ^ 52 := by omega
      rw [if_pos h0]
      rw [hbits] at hx
      refine .inr (.inr ⟨negative, _, _, rfl, hx.symm, by omega, ?_⟩)
      by_cases hz : bits % 2 ^ 52 = 0
      · exact .inl ⟨hz, rfl⟩
      · exact .inr ⟨by omega, by omega, .inr rfl, by omega⟩
    · have hbits : bits % 2 ^ 63 =
          (((bits / 2 ^ 52 % 2048 : ℕ) : ℤ) - 1075 + 1074).toNat * 2 ^ 52 +
            (2 ^ 52 + bits % 2 ^ 52) := by omega
      rw [if_neg h0]
      rw [hbits] at hx
      exact .inr (.inr ⟨negative, _, _, rfl, hx.symm, by omega,
        .inr ⟨by omega, by omega, .inl (by omega), by omega⟩⟩)

end ScriptLang.Binary64
