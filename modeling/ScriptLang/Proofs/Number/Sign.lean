import ScriptLang.Proofs.Node.WellFormed
import ScriptLang.Proofs.Number.Bits

/-!
# Signs

Bit patterns without a sign, up to that of infinity, are those of numbers from zero on.

Result:
* `isNonNegative_ofDecimal`: a decimal numeral without a sign is such a number.
-/
namespace ScriptLang.Binary64

open Float.Model (Format)
open Float.Model.UnpackedFloat

theorem toBits_ofMagnitude {bits : Nat} (h : bits ≤ overflowBits) :
    (ofMagnitude false bits).toBits.toNat = bits := by
  have hle : bits ≤ 2047 * 2 ^ 52 := h
  have hbits : (UInt64.ofNat bits).toBitVec.toNat = bits := by
    rw [UInt64.toNat_toBitVec, UInt64.toNat_ofNat', Nat.mod_eq_of_lt (by omega)]
  have hnan : @isNaNBits .binary64 (UInt64.ofNat bits).toBitVec = false := by
    refine decide_eq_false fun ⟨hexp, hman⟩ => hman (BitVec.eq_of_toNat_eq ?_)
    have hexp := congrArg BitVec.toNat hexp
    rw [exponent_toNat, hbits] at hexp
    rw [mantissa_toNat, hbits]
    have : bits / 2 ^ 52 % 2048 = 2047 := hexp
    show bits % 2 ^ 52 = 0
    omega
  have hpack := @pack_unpack .binary64 (UInt64.ofNat bits).toBitVec (by decide)
  rw [hnan, if_neg Bool.false_ne_true] at hpack
  exact (congrArg BitVec.toNat hpack).trans hbits

theorem parts_ofMagnitude {bits : Nat} (h : bits ≤ overflowBits) :
    parts (ofMagnitude false bits) = .infinite false ∨
      ∃ m e, parts (ofMagnitude false bits) = .finite false m e := by
  have hle : bits ≤ 2047 * 2 ^ 52 := h
  have hsign : decide (bits / 2 ^ 63 % 2 = 1) = false := decide_eq_false (by omega)
  rw [parts, toBits_ofMagnitude h]
  simp only [Parts.ofBits, Nat.pow_eq, hsign]
  split
  · next hexp => exact .inl (if_pos (by omega))
  · split
    · exact .inr ⟨_, _, rfl⟩
    · exact .inr ⟨_, _, rfl⟩

theorem not_less_zero (m : Nat) (e : Int) :
    (Exact.finite (.ofIntWithPrec m e)).less (.finite 0) = false := by
  refine decide_eq_false (Dyadic.not_le.mpr (Dyadic.toRat_le_toRat_iff.mp ?_))
  rw [Dyadic.toRat_ofIntWithPrec_eq_mul_two_pow]
  exact mul_nonneg (by simp) (zpow_nonneg (by norm_num) _)

theorem isNonNegative_ofMagnitude {bits : Nat} (h : bits ≤ overflowBits) :
    IsNonNegative (.float (ofMagnitude false bits)) := by
  show exact _ ≠ .nan ∧ (exact _).less (.finite 0) = false
  unfold exact
  rcases parts_ofMagnitude h with hp | ⟨m, e, hp⟩
  · rw [hp]
    exact ⟨by simp [Parts.exact], rfl⟩
  · rw [hp]
    exact ⟨by simp [Parts.exact], not_less_zero m (-e)⟩

theorem isNonNegative_ofDecimal (digits : Nat) (exponent : Int) :
    IsNonNegative (.float (ofDecimal false digits exponent)) := by
  have hinfinity : IsNonNegative (.float (infinity false)) :=
    isNonNegative_ofMagnitude (Nat.le_refl _)
  have hquotient : ∀ num den,
      IsNonNegative (.float ((ofQuotient? false num den).getD (infinity false))) := by
    intro num den
    unfold ofQuotient?
    dsimp only
    split
    · next h => exact isNonNegative_ofMagnitude (Nat.le_of_lt h)
    · exact hinfinity
  unfold ofDecimal
  dsimp only
  split
  · exact isNonNegative_ofMagnitude (Nat.zero_le _)
  · split
    · exact hinfinity
    · split
      · exact hquotient _ _
      · exact hquotient _ _

end ScriptLang.Binary64
