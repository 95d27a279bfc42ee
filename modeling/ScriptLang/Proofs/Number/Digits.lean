import Mathlib.Algebra.Ring.Nat
import Mathlib.Data.List.TakeWhile
import ScriptLang.Number.IntText

/-!
# Decimal digits

Numbers and their digits, and the runs of digits that readers take off the front of a text.

Results:
* `ofDigits_toDigits`: the digits of a number stand for it;
* `toDigits_bounds`: the length of the digits tells the size of the number;
* `takeWhile_digits`: a reader takes all digits up to something else.
-/
namespace ScriptLang.IntText

/-! ## Characters -/

theorem toNat_of_isDigit {c : Char} (h : isDigit c = true) : 48 ≤ c.toNat ∧ c.toNat ≤ 57 := by
  rw [isDigit, Bool.and_eq_true, decide_eq_true_eq, decide_eq_true_eq] at h
  exact h

theorem isDigit_iff (c : Char) : isDigit c = true ↔ c.isDigit = true := by
  rw [isDigit, Char.isDigit, Bool.and_eq_true, Bool.and_eq_true, decide_eq_true_eq,
    decide_eq_true_eq, decide_eq_true_eq, decide_eq_true_eq]
  exact Iff.rfl

theorem isDigit_toDigits {n : Nat} {c : Char} (h : c ∈ Nat.toDigits 10 n) : isDigit c = true :=
  (isDigit_iff c).mpr (Nat.isDigit_of_mem_toDigits (by decide) (by decide) h)

theorem isDigit_replicate {n : Nat} {c : Char} (h : c ∈ List.replicate n '0') :
    isDigit c = true := by
  rw [List.eq_of_mem_replicate h]
  decide

/-! ## The number of some digits -/

theorem ofDigits_eq (ds : List Char) : ofDigits ds = Nat.ofDigitChars 10 ds 0 := by
  rw [ofDigits, Nat.ofDigitChars_eq_foldl]

theorem ofDigits_append (as bs : List Char) :
    ofDigits (as ++ bs) = ofDigits as * 10 ^ bs.length + ofDigits bs := by
  rw [ofDigits_eq, ofDigits_eq, ofDigits_eq, Nat.ofDigitChars_append,
    Nat.ofDigitChars_eq_ofDigitChars_zero, Nat.mul_comm]

theorem ofDigits_toDigits (n : Nat) : ofDigits (Nat.toDigits 10 n) = n := by
  rw [ofDigits_eq, Nat.ofDigitChars_ten_toDigits]

theorem ofDigits_zeros (n : Nat) : ofDigits (List.replicate n '0') = 0 := by
  rw [ofDigits_eq, Nat.ofDigitChars_replicate_zero, Nat.mul_zero]

theorem ofDigits_append_zeros (ds : List Char) (n : Nat) :
    ofDigits (ds ++ List.replicate n '0') = ofDigits ds * 10 ^ n := by
  rw [ofDigits_append, ofDigits_zeros, List.length_replicate, Nat.add_zero]

theorem ofDigits_lt {ds : List Char} (h : ∀ d ∈ ds, isDigit d = true) :
    ofDigits ds < 10 ^ ds.length := by
  induction ds with
  | nil => decide
  | cons d ds ih =>
    have hd := toNat_of_isDigit (h d List.mem_cons_self)
    have hone : ofDigits [d] ≤ 9 := by
      have h0 : '0'.toNat = 48 := rfl
      rw [show ofDigits [d] = 10 * 0 + (d.toNat - '0'.toNat) from rfl]
      omega
    have ih := ih fun c hc => h c (List.mem_cons_of_mem _ hc)
    rw [show d :: ds = [d] ++ ds from rfl, ofDigits_append, List.length_append,
      List.length_singleton, Nat.pow_add]
    have := Nat.mul_le_mul_right (10 ^ ds.length) hone
    omega

/-! ## The digits of a number -/

theorem lt_toDigits (n : Nat) : n < 10 ^ (Nat.toDigits 10 n).length :=
  (Nat.length_toDigits_le_iff (by decide) Nat.length_toDigits_pos).mp (Nat.le_refl _)

theorem toDigits_bounds {n : Nat} (h : 0 < n) :
    10 ^ ((Nat.toDigits 10 n).length - 1) ≤ n ∧ n < 10 ^ (Nat.toDigits 10 n).length := by
  refine ⟨?_, lt_toDigits n⟩
  have hpos : 0 < (Nat.toDigits 10 n).length := Nat.length_toDigits_pos
  by_cases hone : (Nat.toDigits 10 n).length = 1
  · rw [hone]
    exact h
  · by_contra hlt
    have := (Nat.length_toDigits_le_iff (b := 10) (n := n) (by decide) (by omega)).mpr
      (Nat.lt_of_not_le hlt)
    omega

theorem length_le_of_lt {n k : Nat} (hk : 0 < k) (h : n < Nat.pow 10 k) :
    (Nat.toDigits 10 n).length ≤ k :=
  (Nat.length_toDigits_le_iff (by decide) hk).mpr h

theorem lt_pow_of_length_le {n k : Nat} (h : (Nat.toDigits 10 n).length ≤ k) :
    n < Nat.pow 10 k :=
  Nat.lt_of_lt_of_le (lt_toDigits n) (Nat.pow_le_pow_right (by decide) h)

/-- An integer without a text has too many digits for one. -/
theorem maxDigits_lt_of_text?_eq_none {n : Int} (h : text? n = none) :
    maxDigits < (Nat.toDigits 10 n.natAbs).length := by
  by_contra hle
  have hlt : n.natAbs < tooLarge := by
    unfold tooLarge
    exact lt_pow_of_length_le (Nat.le_of_not_lt hle)
  rw [text?, if_pos hlt] at h
  cases h

/-- The digits of a positive number do not start with a zero. -/
theorem head_toDigits {n : Nat} (h : 0 < n) {rest : List Char} :
    Nat.toDigits 10 n ≠ '0' :: rest := by
  intro hd
  have hdigits : ∀ d ∈ rest, isDigit d = true := fun d hm =>
    isDigit_toDigits (by rw [hd]; exact List.mem_cons_of_mem _ hm)
  have hval := ofDigits_toDigits n
  have hbounds := (toDigits_bounds h).1
  rw [hd, show '0' :: rest = ['0'] ++ rest from rfl, ofDigits_append] at hval
  have hlt := ofDigits_lt hdigits
  rw [hd, List.length_cons, Nat.add_sub_cancel] at hbounds
  have hz : ofDigits ['0'] = 0 := rfl
  rw [hz, Nat.zero_mul, Nat.zero_add] at hval
  omega

/-! ## Runs of digits -/

theorem takeWhile_digits {ds rest : List Char} (h : ∀ d ∈ ds, isDigit d = true)
    (hr : ∀ c ∈ rest.head?, isDigit c = false) : (ds ++ rest).takeWhile isDigit = ds := by
  rw [List.takeWhile_append_of_pos h]
  cases rest with
  | nil => rw [List.takeWhile_nil, List.append_nil]
  | cons c rest =>
    rw [List.takeWhile_cons_of_neg (by rw [hr c rfl]; exact Bool.false_ne_true), List.append_nil]

theorem dropWhile_digits {ds rest : List Char} (h : ∀ d ∈ ds, isDigit d = true)
    (hr : ∀ c ∈ rest.head?, isDigit c = false) : (ds ++ rest).dropWhile isDigit = rest := by
  rw [List.dropWhile_append_of_pos h]
  cases rest with
  | nil => rfl
  | cons c rest =>
    rw [List.dropWhile_cons_of_neg (by rw [hr c rfl]; exact Bool.false_ne_true)]

end ScriptLang.IntText
