import ScriptLang.Number.Shortest
import ScriptLang.Proofs.Number.Digits
import ScriptLang.Proofs.Number.Rounding

/-!
# Shortest digits

The digits that a float is written with lie in its rounding interval.

Results:
* `holds_interval_iff`: the interval of a float is what lies between the midpoints around it;
* `onGrid_fine`: a grid finer than the interval has a point in it;
* `search_interval`: seventeen digits are enough, so the search ends with a point of the interval;
* `digits_spec`: the digits of a float start with none but a significant one and stand for a number
  of its interval.
-/
namespace ScriptLang.Shortest

open Binary64 IntText

/-! ## Intervals as rationals -/

/-- A power with an integer exponent as a quotient of two naturals. -/
theorem pow_toNat_div {b : Nat} (hb : 0 < b) (k : ℤ) :
    ((Nat.pow b k.toNat : ℕ) : ℚ) / (Nat.pow b (-k).toNat : ℕ) = (b : ℚ) ^ k := by
  have hb' : (b : ℚ) ≠ 0 := by exact_mod_cast hb.ne'
  rw [Nat.pow_eq, Nat.pow_eq, Nat.cast_pow, Nat.cast_pow, ← zpow_natCast, ← zpow_natCast,
    ← zpow_sub₀ hb']
  congr 1
  omega

theorem Interval.holds_iff {i : Interval} {num den : Nat} (hi : 0 < i.denominator)
    (hd : 0 < den) :
    i.holds num den = true ↔
      (i.low / i.denominator : ℚ) ≤ num / den ∧ (num / den : ℚ) ≤ i.high / i.denominator ∧
        (i.closed = false →
          (i.low / i.denominator : ℚ) < num / den ∧ (num / den : ℚ) < i.high / i.denominator) := by
  have hi' : (0 : ℚ) < i.denominator := by exact_mod_cast hi
  have hd' : (0 : ℚ) < den := by exact_mod_cast hd
  rw [div_le_div_iff₀ hi' hd', div_le_div_iff₀ hd' hi', div_lt_div_iff₀ hi' hd',
    div_lt_div_iff₀ hd' hi']
  norm_cast
  unfold Interval.holds
  cases i.closed with
  | true => simp
  | false =>
    simp only [Bool.false_eq_true, if_false, decide_eq_true_eq, forall_const]
    constructor
    · intro ⟨h₁, h₂⟩
      exact ⟨h₁.le, h₂.le, h₁, h₂⟩
    · rintro ⟨-, -, h⟩
      exact h

section
variable {m : Nat} {e : ℤ}

theorem interval_denominator_pos (m : Nat) (e : ℤ) : 0 < (interval m e).denominator :=
  Nat.pow_pos (by decide)

/-- The scale of an interval over its denominator. -/
theorem scale_div (e : ℤ) (n : ℚ) :
    n * (Nat.pow 2 (e - 2).toNat : ℕ) / (Nat.pow 2 (-(e - 2)).toNat : ℕ) = n / 4 * 2 ^ e := by
  rw [mul_div_assoc, pow_toNat_div (by decide), zpow_sub₀ (by norm_num)]
  push_cast
  ring

theorem interval_value (m : Nat) (e : ℤ) :
    ((interval m e).value / (interval m e).denominator : ℚ) = m * 2 ^ e := by
  have h := scale_div e (4 * m)
  unfold interval
  dsimp only
  push_cast at h ⊢
  rw [h]
  ring

theorem interval_high (m : Nat) (e : ℤ) :
    ((interval m e).high / (interval m e).denominator : ℚ) = (m + 1 / 2) * 2 ^ e := by
  have h := scale_div e (4 * m + 2)
  unfold interval
  dsimp only
  push_cast at h ⊢
  rw [h]
  ring

theorem interval_low (hm : 0 < m) (e : ℤ) :
    ((interval m e).low / (interval m e).denominator : ℚ) = (m - below m e) * 2 ^ e := by
  have h₁ : 1 ≤ 4 * m := by omega
  have h₂ : 2 ≤ 4 * m := by omega
  have hs := scale_div e
  unfold interval below
  dsimp only
  by_cases hc : m = Nat.pow 2 52 ∧ -1074 < e
  · rw [if_pos hc, if_pos (show m = 2 ^ 52 ∧ -1074 < e from hc)]
    have h := hs (4 * m - 1)
    push_cast [h₁] at h ⊢
    rw [h]
    ring
  · rw [if_neg hc, if_neg (show ¬(m = 2 ^ 52 ∧ -1074 < e) from hc)]
    have h := hs (4 * m - 2)
    push_cast [h₂] at h ⊢
    rw [h]
    ring

theorem holds_interval_iff (hm : 0 < m) {num den : Nat} (hd : 0 < den) :
    (interval m e).holds num den = true ↔ Between m e (num / den) := by
  have hpow : (0 : ℚ) < 2 ^ e := by positivity
  have hclosed : (interval m e).closed = false ↔ m % 2 = 1 := by
    rw [show (interval m e).closed = (m % 2 == 0) from rfl, beq_eq_false_iff_ne]
    omega
  rw [Interval.holds_iff (interval_denominator_pos m e) hd, interval_low hm, interval_high,
    hclosed, ← le_div_iff₀ hpow, ← div_le_iff₀ hpow, ← lt_div_iff₀ hpow, ← div_lt_iff₀ hpow]
  exact ⟨fun ⟨h₁, h₂, h₃⟩ => ⟨h₁, h₂, h₃⟩, fun h => ⟨h.low, h.high, h.open_of_odd⟩⟩

/-! ## Points of a grid -/

theorem onGrid_spec {i : Interval} {place : ℤ} {n : Nat} (h : i.onGrid place = some n) :
    i.holds (n * Nat.pow 10 place.toNat) (Nat.pow 10 (-place).toNat) = true := by
  unfold Interval.onGrid at h
  dsimp only at h
  generalize i.value * Nat.pow 10 (-place).toNat / _ = lower at h
  generalize hl : i.holds (lower * _) _ = l at h
  generalize hr : i.holds ((lower + 1) * _) _ = r at h
  cases l <;> cases r <;> dsimp only at h
  · cases h
  · cases h
    exact hr
  · cases h
    exact hl
  · cases h
    split
    · exact hl
    · exact hr

theorem point_holds_iff (hm : 0 < m) {place : ℤ} {n : Nat} :
    (interval m e).holds (n * Nat.pow 10 place.toNat) (Nat.pow 10 (-place).toNat) = true ↔
      Between m e (n * 10 ^ place) := by
  have hpoint : ((n * Nat.pow 10 place.toNat : ℕ) : ℚ) / (Nat.pow 10 (-place).toNat : ℕ) =
      n * 10 ^ place := by
    rw [Nat.cast_mul, mul_div_assoc, pow_toNat_div (by decide)]
    norm_num
  have hpos : 0 < Nat.pow 10 (-place).toNat := Nat.pow_pos (by decide)
  rw [holds_interval_iff hm hpos, hpoint]

theorem between_of_onGrid (hm : 0 < m) {place : ℤ} {n : Nat}
    (h : (interval m e).onGrid place = some n) : Between m e (n * 10 ^ place) :=
  (point_holds_iff hm).mp (onGrid_spec h)

theorem between_of_lt {q : ℚ} (hlow : (m - below m e) * 2 ^ e < q)
    (hhigh : q < (m + 1 / 2) * 2 ^ e) : Between m e q := by
  have hpow : (0 : ℚ) < 2 ^ e := by positivity
  rw [← lt_div_iff₀ hpow] at hlow
  rw [← div_lt_iff₀ hpow] at hhigh
  exact ⟨hlow.le, hhigh.le, fun _ => ⟨hlow, hhigh⟩⟩

theorem below_pos (m : Nat) (e : ℤ) : 0 < below m e := by
  unfold below
  split <;> norm_num

/-- The multiplier that `onGrid` starts from is the one of the last point up to the float. -/
theorem floor_bounds (m : Nat) (e place : ℤ) {lower : Nat}
    (h : (interval m e).value * Nat.pow 10 (-place).toNat /
      ((interval m e).denominator * Nat.pow 10 place.toNat) = lower) :
    (lower : ℚ) * 10 ^ place ≤ m * 2 ^ e ∧ (m : ℚ) * 2 ^ e < (lower + 1) * 10 ^ place := by
  have hup : 0 < Nat.pow 10 place.toNat := Nat.pow_pos (by decide)
  have hdown : 0 < Nat.pow 10 (-place).toNat := Nat.pow_pos (by decide)
  have hden := interval_denominator_pos m e
  have hten := pow_toNat_div (b := 10) (by decide) place
  push_cast at hten
  rw [← interval_value, ← hten]
  generalize Nat.pow 10 place.toNat = up at h hup ⊢
  generalize Nat.pow 10 (-place).toNat = down at h hdown ⊢
  generalize (interval m e).value = value at h ⊢
  generalize (interval m e).denominator = den at h hden ⊢
  have hdown' : (0 : ℚ) < down := by exact_mod_cast hdown
  have hden' : (0 : ℚ) < den := by exact_mod_cast hden
  rw [← mul_div_assoc, ← mul_div_assoc, div_le_div_iff₀ hdown' hden', div_lt_div_iff₀ hden' hdown']
  have hpos : 0 < den * up := Nat.mul_pos hden hup
  have hle : lower * (den * up) ≤ value * down := h ▸ Nat.div_mul_le_self _ _
  have hlt : value * down < (lower + 1) * (den * up) := by
    rw [← h, Nat.mul_comm _ (den * up)]
    exact Nat.lt_mul_div_succ _ hpos
  constructor
  · calc (lower : ℚ) * up * den = ((lower * (den * up) : ℕ) : ℚ) := by
          push_cast
          ring
      _ ≤ ((value * down : ℕ) : ℚ) := by exact_mod_cast hle
      _ = value * down := by push_cast; rfl
  · calc (value : ℚ) * down = ((value * down : ℕ) : ℚ) := by push_cast; rfl
      _ < (((lower + 1) * (den * up) : ℕ) : ℚ) := by exact_mod_cast hlt
      _ = (lower + 1) * up * den := by
          push_cast
          ring

/-- Of the two points around the float one is in the interval if the grid is finer than that. -/
theorem onGrid_fine (hm : 0 < m) {place : ℤ}
    (hfine : (10 : ℚ) ^ place < (below m e + 1 / 2) * 2 ^ e) :
    ∃ n, (interval m e).onGrid place = some n ∧ (m : ℚ) * 2 ^ e < (n + 1) * 10 ^ place := by
  have hpow : (0 : ℚ) < 2 ^ e := by positivity
  have hten : (0 : ℚ) < 10 ^ place := by positivity
  unfold Interval.onGrid
  dsimp only
  generalize hlower : (interval m e).value * Nat.pow 10 (-place).toNat /
    ((interval m e).denominator * Nat.pow 10 place.toNat) = lower
  obtain ⟨hle, hlt⟩ := floor_bounds m e place hlower
  have habove : (m : ℚ) * 2 ^ e < (lower + 1 + 1) * 10 ^ place := by
    rw [add_mul _ 1 ((10 : ℚ) ^ place), one_mul]
    linarith
  -- a point that is not in the interval is not between its ends
  have hleft : (interval m e).holds (lower * Nat.pow 10 place.toNat) (Nat.pow 10 (-place).toNat)
      = false → lower * 10 ^ place ≤ (m - below m e) * 2 ^ e := by
    intro hl
    by_contra h
    have hin := between_of_lt (lt_of_not_ge h) (by rw [add_mul]; linarith)
    rw [(point_holds_iff hm).mpr hin] at hl
    cases hl
  have hright : (interval m e).holds ((lower + 1) * Nat.pow 10 place.toNat)
      (Nat.pow 10 (-place).toNat) = false →
      (m + 1 / 2) * 2 ^ e ≤ (lower + 1) * (10 : ℚ) ^ place := by
    intro hr
    by_contra h
    have hb := mul_pos (below_pos m e) hpow
    have hin : Between m e ((lower + 1 : ℕ) * 10 ^ place) := by
      refine between_of_lt ?_ ?_ <;> push_cast
      · rw [sub_mul]
        linarith
      · exact lt_of_not_ge h
    rw [(point_holds_iff hm).mpr hin] at hr
    cases hr
  generalize (interval m e).holds (lower * _) _ = l at hleft ⊢
  generalize (interval m e).holds ((lower + 1) * _) _ = r at hright ⊢
  cases l <;> cases r
  · have h₁ := hleft rfl
    have h₂ := hright rfl
    rw [sub_mul] at h₁
    rw [add_mul] at h₂ hfine
    rw [add_mul] at h₂
    linarith
  · exact ⟨_, rfl, by push_cast; exact habove⟩
  · exact ⟨_, rfl, hlt⟩
  · refine ⟨_, rfl, ?_⟩
    split
    · exact hlt
    · push_cast
      exact habove

/-! ## The search -/

/-- The decimal length of a positive number tells its size. -/
theorem decimalLength_bounds {n : Nat} (h : 0 < n) :
    10 ^ (decimalLength n - 1) ≤ n ∧ n < 10 ^ decimalLength n := by
  rw [decimalLength, if_neg (by omega)]
  exact toDigits_bounds h

theorem pointPosition_le (hm : 0 < m) (e : ℤ) :
    (10 : ℚ) ^ ((interval m e).pointPosition - 1) ≤ m * 2 ^ e := by
  have hden := interval_denominator_pos m e
  have hval : 0 < (interval m e).value :=
    Nat.mul_pos (by omega) (Nat.pow_pos (by decide))
  rw [← interval_value]
  unfold Interval.pointPosition
  generalize (interval m e).value = value at hval ⊢
  generalize (interval m e).denominator = den at hden ⊢
  have hval' : (0 : ℚ) < value := by exact_mod_cast hval
  have hden' : (0 : ℚ) < den := by exact_mod_cast hden
  split
  · next h =>
    have hpos : 0 < value / den := Nat.div_pos h hden
    have hlen : 1 ≤ decimalLength (value / den) := by
      rw [decimalLength, if_neg (by omega)]
      exact Nat.length_toDigits_pos
    have hbound := (decimalLength_bounds hpos).1
    rw [show ((decimalLength (value / den) : ℤ) - 1) = ((decimalLength (value / den) - 1 : ℕ) : ℤ)
      by omega, zpow_natCast, le_div_iff₀ hden']
    have hmul := (Nat.mul_le_mul_right den hbound).trans (Nat.div_mul_le_self value den)
    exact_mod_cast hmul
  · next h =>
    -- the number of digits counts how often the reciprocal is divided by ten
    generalize hc : (den + value - 1) / value = c
    have hceil : den ≤ c * value := by
      have := Nat.lt_mul_div_succ (den + value - 1) hval
      rw [hc, Nat.mul_add, Nat.mul_comm] at this
      omega
    have hc2 : 0 < c - 1 := by
      have : 1 < c := by
        by_contra hle
        have := Nat.mul_le_mul_right value (show c ≤ 1 by omega)
        omega
      omega
    have hbound := (decimalLength_bounds hc2).2
    have hle : c ≤ 10 ^ decimalLength (c - 1) := by omega
    have hmul : den ≤ 10 ^ decimalLength (c - 1) * value :=
      hceil.trans (Nat.mul_le_mul_right value hle)
    rw [show (1 : ℤ) - (decimalLength (c - 1) : ℕ) - 1 = -(decimalLength (c - 1) : ℕ) by omega,
      zpow_neg, zpow_natCast, le_div_iff₀ hden', inv_mul_le_iff₀ (by positivity)]
    exact_mod_cast hmul

theorem search_spec {i : Interval} {point : ℤ} {tries digits k n : Nat} (hk : k < tries)
    (hn : n ≠ 0) (h : i.onGrid (point - (digits + k : ℕ)) = some n) :
    ∃ n place, i.search point tries digits = (n, place) ∧ i.onGrid place = some n ∧ n ≠ 0 := by
  induction tries generalizing digits k with
  | zero => omega
  | succ tries ih =>
    unfold Interval.search
    cases k with
    | zero =>
      rw [Nat.add_zero] at h
      rw [h]
      dsimp only
      rw [if_neg hn]
      exact ⟨n, _, rfl, h, hn⟩
    | succ k =>
      -- an earlier grid may have a positive point too
      have hnext : ∃ n place, i.search point tries (digits + 1) = (n, place) ∧
          i.onGrid place = some n ∧ n ≠ 0 := by
        refine ih (k := k) (by omega) ?_
        rwa [show digits + 1 + k = digits + (k + 1) by omega]
      cases hg : i.onGrid (point - digits) with
      | none => exact hnext
      | some found =>
        dsimp only
        by_cases hz : found = 0
        · rw [if_pos hz]
          exact hnext
        · rw [if_neg hz]
          exact ⟨found, _, rfl, hg, hz⟩

/-- Seventeen digits are enough. -/
theorem search_interval (hp : IsPositive m e) :
    ∃ n place, (interval m e).search (interval m e).pointPosition 17 1 = (n, place) ∧
      n ≠ 0 ∧ Between m e (n * 10 ^ place) := by
  have hpow : (0 : ℚ) < 2 ^ e := by positivity
  have hpoint := pointPosition_le hp.pos e
  generalize (interval m e).pointPosition = point at hpoint ⊢
  have hten : (0 : ℚ) < 10 ^ (point - (1 + 16 : ℕ)) := by positivity
  have hgrid : (10 : ℚ) ^ (point - (1 + 16 : ℕ)) * 10 ^ 16 ≤ m * 2 ^ e := by
    have hsplit : (10 : ℚ) ^ (point - 1) = 10 ^ (point - (1 + 16 : ℕ)) * 10 ^ 16 := by
      rw [← zpow_natCast, ← zpow_add₀ (by norm_num)]
      congr 1
      push_cast
      ring
    rwa [← hsplit]
  have hfine : (10 : ℚ) ^ (point - (1 + 16 : ℕ)) < (below m e + 1 / 2) * 2 ^ e := by
    have hmant : (m : ℚ) < (below m e + 1 / 2) * 10 ^ 16 := by
      unfold below
      split
      · next h =>
        rw [h.1]
        norm_num
      · have : (m : ℚ) < 2 ^ 53 := by exact_mod_cast hp.lt
        norm_num at this ⊢
        linarith
    have hunits := mul_lt_mul_of_pos_right hmant hpow
    refine lt_of_mul_lt_mul_right (hgrid.trans_lt ?_) (show (0 : ℚ) ≤ 10 ^ 16 by positivity)
    rwa [mul_right_comm] at hunits
  obtain ⟨n, hn, hlt⟩ := onGrid_fine hp.pos hfine
  have hn0 : n ≠ 0 := by
    rintro rfl
    rw [Nat.cast_zero, zero_add, one_mul] at hlt
    linarith
  obtain ⟨n', place, hs, hg, hn'⟩ := search_spec (show 16 < 17 by decide) hn0 hn
  exact ⟨n', place, hs, hn', between_of_onGrid hp.pos hg⟩

/-! ## The digits of a float -/

/-- Digits that start with a significant one. -/
structure Significant (ds : List Char) : Prop where
  digits : ∀ d ∈ ds, isDigit d = true
  nonempty : ds ≠ []
  leading : ∀ rest, ds ≠ '0' :: rest

/-- A text is what is left of it without its last zeros, and zeros. -/
theorem trailing_zeros (cs : List Char) :
    ∃ k, cs = (cs.reverse.dropWhile (· == '0')).reverse ++ List.replicate k '0' := by
  have hzeros : ∀ c ∈ cs.reverse.takeWhile (· == '0'), c = '0' := by
    intro c hc
    have := List.mem_takeWhile_imp hc
    rwa [beq_iff_eq] at this
  refine ⟨(cs.reverse.takeWhile (· == '0')).length, ?_⟩
  rw [← List.reverse_replicate, ← List.eq_replicate_of_mem hzeros, ← List.reverse_append,
    List.takeWhile_append_dropWhile, List.reverse_reverse]

theorem digits_spec (hp : IsPositive m e) :
    ∃ ds first, digits m e = (ds, first) ∧ Significant ds ∧
      Between m e (ofDigits ds * 10 ^ (first + 1 - ds.length)) := by
  obtain ⟨n, place, hs, hn, hb⟩ := search_interval hp
  obtain ⟨k, hk⟩ := trailing_zeros (Nat.toDigits 10 n)
  unfold digits
  dsimp only
  rw [hs]
  dsimp only
  generalize hds : ((Nat.toDigits 10 n).reverse.dropWhile (· == '0')).reverse = ds at hk ⊢
  have hval : n = ofDigits ds * 10 ^ k := by
    conv => lhs; rw [← ofDigits_toDigits n, hk]
    rw [ofDigits_append_zeros]
  have hlen : (Nat.toDigits 10 n).length = ds.length + k := by
    rw [hk, List.length_append, List.length_replicate]
  refine ⟨ds, _, rfl, ⟨?_, ?_, ?_⟩, ?_⟩
  · intro d hd
    refine isDigit_toDigits (n := n) ?_
    rw [hk]
    exact List.mem_append_left _ hd
  · rintro rfl
    rw [show ofDigits [] = 0 from rfl, Nat.zero_mul] at hval
    exact hn hval
  · rintro rest rfl
    exact head_toDigits (Nat.pos_of_ne_zero hn) hk
  · have hpos : place + (Nat.toDigits 10 n).length - 1 + 1 - ds.length = k + place := by
      rw [hlen]
      push_cast
      ring
    rw [hpos, zpow_add₀ (by norm_num), zpow_natCast, ← mul_assoc]
    rw [hval] at hb
    push_cast at hb
    exact hb

end

end ScriptLang.Shortest
