import ScriptLang.Json.Reader
import ScriptLang.Json.Writer
import ScriptLang.Proofs.Number.Bits
import ScriptLang.Proofs.Number.Decimal
import ScriptLang.Proofs.Number.Shortest

/-!
# Numbers in documents

The text of an integer and of a float, read where a document can stand.

Results:
* `value_digits`: an integer whose text is not too long is read back;
* `value_floatText`: every float is read back, zeros with their sign, the infinities and NaN.
-/
namespace ScriptLang.Json

open IntText Binary64

/-- The text can follow a document: it is empty, or it starts with what ends an item or a field. -/
def Ends (after : List Char) : Prop := ∀ c ∈ after.head?, c = ',' ∨ c = ']' ∨ c = '\x7d'

/-- The whole part of a number: digits, the first of which is no zero unless it is alone. -/
structure IsWhole (ds : List Char) : Prop where
  digits : ∀ d ∈ ds, isDigit d = true
  nonempty : ds ≠ []
  leading : ∀ rest, ds = '0' :: rest → rest = []

theorem isWhole_toDigits (n : Nat) : IsWhole (Nat.toDigits 10 n) := by
  refine ⟨fun d hd => isDigit_toDigits hd, List.ne_nil_of_length_pos Nat.length_toDigits_pos, ?_⟩
  intro rest heq
  by_cases hn : n = 0
  · subst hn
    cases heq
    rfl
  · exact absurd heq (head_toDigits (Nat.pos_of_ne_zero hn))

/-! ## The parts of a number -/

theorem Ends.not_digit {after : List Char} (h : Ends after) :
    ∀ c ∈ after.head?, isDigit c = false := by
  intro c hc
  rcases h c hc with rfl | rfl | rfl <;> decide

theorem Ends.fractionPart {after : List Char} (h : Ends after) : fractionPart after = none := by
  unfold Json.fractionPart
  split
  · next rest =>
    rcases h '.' rfl with hc | hc | hc <;> cases hc
  · rfl

theorem Ends.exponentPart {after : List Char} (h : Ends after) : exponentPart after = none := by
  cases after with
  | nil => rfl
  | cons c rest =>
    unfold Json.exponentPart
    rcases h c rfl with rfl | rfl | rfl <;> rfl

theorem digitRun_append {ds rest : List Char} (hd : ∀ d ∈ ds, isDigit d = true)
    (hr : ∀ c ∈ rest.head?, isDigit c = false) : digitRun (ds ++ rest) = (ds, rest) := by
  rw [digitRun, takeWhile_digits hd hr, dropWhile_digits hd hr]

theorem fractionPart_point {fs rest : List Char} (hd : ∀ d ∈ fs, isDigit d = true)
    (hn : fs ≠ []) (hr : ∀ c ∈ rest.head?, isDigit c = false) :
    fractionPart ('.' :: (fs ++ rest)) = some (fs, rest) := by
  have hempty : fs.isEmpty = false := List.isEmpty_eq_false_iff.mpr hn
  rw [fractionPart, digitRun_append hd hr]
  dsimp only
  rw [hempty]
  rfl

theorem exponentPart_power {power rest : List Char} (hd : ∀ d ∈ power, isDigit d = true)
    (hn : power ≠ []) (hr : ∀ c ∈ rest.head?, isDigit c = false) (negative : Bool) :
    exponentPart ('e' :: (if negative then '-' else '+') :: (power ++ rest)) =
      some (signed negative (ofDigits power), rest) := by
  have hempty : power.isEmpty = false := List.isEmpty_eq_false_iff.mpr hn
  unfold exponentPart
  cases negative <;> simp [digitRun_append hd hr, hempty]

/-- What an unsigned number is read as, by the parts that follow its whole part. -/
theorem unsignedNumber_whole {ds rest : List Char} (hw : IsWhole ds)
    (hr : ∀ c ∈ rest.head?, isDigit c = false) (negative : Bool) :
    unsignedNumber negative (ds ++ rest) =
      match fractionPart rest, exponentPart ((fractionPart rest).elim rest (·.2)) with
      | none, none =>
        if maxDigits < ds.length then .error .tooManyDigits
        else .ok (.int (signed negative (ofDigits ds)), rest)
      | fraction?, exponent? =>
        let fraction := fraction?.elim [] (·.1)
        let exponent := exponent?.elim 0 (·.1)
        .ok (.float (ofDecimal negative (ofDigits (ds ++ fraction)) (exponent - fraction.length)),
          exponent?.elim (fraction?.elim rest (·.2)) (·.2)) := by
  have hempty : ds.isEmpty = false := List.isEmpty_eq_false_iff.mpr hw.nonempty
  unfold unsignedNumber
  split
  next whole rest' heq =>
    have hsplit : whole = ds ∧ rest' = rest := by
      split at heq
      · next after hcs =>
        cases heq
        obtain ⟨d, ds', rfl⟩ := List.exists_cons_of_ne_nil hw.nonempty
        rw [List.cons_append, List.cons.injEq] at hcs
        obtain ⟨rfl, rfl⟩ := hcs
        rw [hw.leading ds' rfl]
        exact ⟨rfl, rfl⟩
      · rw [digitRun_append hw.digits hr] at heq
        cases heq
        exact ⟨rfl, rfl⟩
    obtain ⟨rfl, rfl⟩ := hsplit
    rw [hempty]
    rfl

theorem unsignedNumber_int {ds after : List Char} (hw : IsWhole ds) (ha : Ends after)
    (hlen : ds.length ≤ maxDigits) (negative : Bool) :
    unsignedNumber negative (ds ++ after) =
      .ok (.int (signed negative (ofDigits ds)), after) := by
  rw [unsignedNumber_whole hw ha.not_digit, ha.fractionPart, Option.elim_none, ha.exponentPart]
  exact if_neg (by omega)

theorem unsignedNumber_fraction {ds fs after : List Char} (hw : IsWhole ds)
    (hd : ∀ d ∈ fs, isDigit d = true) (hn : fs ≠ []) (ha : Ends after) (negative : Bool) :
    unsignedNumber negative (ds ++ '.' :: (fs ++ after)) =
      .ok (.float (ofDecimal negative (ofDigits (ds ++ fs)) (0 - fs.length)), after) := by
  have hpoint : ∀ c ∈ ('.' :: (fs ++ after)).head?, isDigit c = false := by
    rintro c ⟨⟩
    decide
  rw [unsignedNumber_whole hw hpoint, fractionPart_point hd hn ha.not_digit, Option.elim_some,
    ha.exponentPart]
  rfl

theorem unsignedNumber_exponent {ds power after : List Char} (hw : IsWhole ds)
    (hp : ∀ d ∈ power, isDigit d = true) (hn : power ≠ []) (ha : Ends after)
    (negative sign : Bool) :
    unsignedNumber negative (ds ++ 'e' :: (if sign then '-' else '+') :: (power ++ after)) =
      .ok (.float (ofDecimal negative (ofDigits (ds ++ [])) (signed sign (ofDigits power) - 0)),
        after) := by
  have hletter : ∀ c ∈ ('e' :: (if sign then '-' else '+') :: (power ++ after)).head?,
      isDigit c = false := by
    rintro c ⟨⟩
    decide
  have hnone : fractionPart ('e' :: (if sign then '-' else '+') :: (power ++ after)) = none := rfl
  rw [unsignedNumber_whole hw hletter, hnone, Option.elim_none,
    exponentPart_power hp hn ha.not_digit]
  rfl

theorem unsignedNumber_scientific {ds fs power after : List Char} (hw : IsWhole ds)
    (hd : ∀ d ∈ fs, isDigit d = true) (hf : fs ≠ []) (hp : ∀ d ∈ power, isDigit d = true)
    (hn : power ≠ []) (ha : Ends after) (negative sign : Bool) :
    unsignedNumber negative
        (ds ++ '.' :: (fs ++ 'e' :: (if sign then '-' else '+') :: (power ++ after))) =
      .ok (.float (ofDecimal negative (ofDigits (ds ++ fs))
        (signed sign (ofDigits power) - fs.length)), after) := by
  have hpoint : ∀ rest : List Char, ∀ c ∈ ('.' :: rest).head?, isDigit c = false := by
    rintro rest c ⟨⟩
    decide
  have hletter : ∀ rest : List Char, ∀ c ∈ ('e' :: rest).head?, isDigit c = false := by
    rintro rest c ⟨⟩
    decide
  rw [unsignedNumber_whole hw (hpoint _), fractionPart_point hd hf (hletter _), Option.elim_some,
    exponentPart_power hp hn ha.not_digit]
  rfl

/-! ## The layouts of a float -/

/-- A text that is read as a float nearest to a decimal number. -/
def ReadsAs (text : List Char) (number : ℚ) : Prop :=
  ∀ negative after, Ends after → ∃ (digits : ℕ) (exponent : ℤ),
    unsignedNumber negative (text ++ after) =
      .ok (.float (ofDecimal negative digits exponent), after) ∧
    (digits : ℚ) * 10 ^ exponent = number

theorem isWhole_of_ne {d : Char} {ds : List Char} (hd : ∀ c ∈ d :: ds, isDigit c = true)
    (h : d ≠ '0') : IsWhole (d :: ds) := by
  refine ⟨hd, List.cons_ne_nil _ _, ?_⟩
  intro rest heq
  rw [List.cons.injEq] at heq
  exact absurd heq.1 h

/-- A layout with zeros between the point and the digits. -/
theorem leadingZeros_readsAs {ds : List Char} (hs : Shortest.Significant ds) (k : ℕ) :
    ReadsAs ('0' :: '.' :: List.replicate k '0' ++ ds)
      (ofDigits ds * 10 ^ (-(k + ds.length : ℕ) : ℤ)) := by
  intro negative after ha
  have hw : IsWhole ['0'] := isWhole_toDigits 0
  have hfs : ∀ d ∈ List.replicate k '0' ++ ds, isDigit d = true := by
    intro d hd
    rcases List.mem_append.mp hd with hd | hd
    · exact isDigit_replicate hd
    · exact hs.digits d hd
  have hn : List.replicate k '0' ++ ds ≠ [] := List.append_ne_nil_of_right_ne_nil _ hs.nonempty
  refine ⟨_, _, unsignedNumber_fraction hw hfs hn ha negative, ?_⟩
  have hval : ofDigits (['0'] ++ (List.replicate k '0' ++ ds)) = ofDigits ds := by
    have hzeros : ['0'] ++ List.replicate k '0' = List.replicate (k + 1) '0' := rfl
    rw [← List.append_assoc, ofDigits_append, hzeros, ofDigits_zeros, Nat.zero_mul, Nat.zero_add]
  rw [hval, List.length_append, List.length_replicate, zero_sub]

/-- A layout with zeros between the digits and the point. -/
theorem trailingZeros_readsAs {ds : List Char} (hs : Shortest.Significant ds) (k : ℕ) :
    ReadsAs (ds ++ List.replicate k '0' ++ ['.', '0']) (ofDigits ds * 10 ^ (k : ℤ)) := by
  intro negative after ha
  obtain ⟨d, ds', rfl⟩ := List.exists_cons_of_ne_nil hs.nonempty
  have hd : d ≠ '0' := by
    rintro rfl
    exact hs.leading ds' rfl
  have hw : IsWhole (d :: (ds' ++ List.replicate k '0')) := by
    refine isWhole_of_ne ?_ hd
    intro c hc
    rw [← List.cons_append] at hc
    rcases List.mem_append.mp hc with hc | hc
    · exact hs.digits c hc
    · exact isDigit_replicate hc
  have hzero : ∀ c ∈ ['0'], isDigit c = true := fun c hc => isDigit_replicate (n := 1) hc
  have hread := unsignedNumber_fraction hw hzero (List.cons_ne_nil _ _) ha negative
  refine ⟨_, _, by rw [List.append_assoc]; exact hread, ?_⟩
  have hval : ofDigits (d :: (ds' ++ List.replicate k '0') ++ ['0']) =
      ofDigits (d :: ds') * 10 ^ (k + 1) := by
    rw [← ofDigits_append_zeros, List.replicate_succ', ← List.append_assoc]
    rfl
  have hexp : ((k + 1 : ℕ) : ℤ) + (0 - (['0'].length : ℕ)) = k := by
    rw [List.length_singleton]
    omega
  rw [hval, Nat.cast_mul, Nat.cast_pow, Nat.cast_ofNat, ← zpow_natCast, mul_assoc,
    ← zpow_add₀ (by norm_num), hexp]

/-- A layout with the point between the digits. -/
theorem split_readsAs {ds : List Char} (hs : Shortest.Significant ds) {k : ℕ} (hk : 0 < k)
    (hlen : k < ds.length) :
    ReadsAs (ds.take k ++ '.' :: ds.drop k) (ofDigits ds * 10 ^ ((k : ℤ) - ds.length)) := by
  intro negative after ha
  have hw : IsWhole (ds.take k) := by
    refine ⟨fun d hd => hs.digits d (List.mem_of_mem_take hd), ?_, ?_⟩
    · rw [ne_eq, List.take_eq_nil_iff]
      rintro (h | h)
      · exact absurd h hk.ne'
      · exact hs.nonempty h
    · intro rest heq
      have hds := List.take_append_drop k ds
      rw [heq] at hds
      exact absurd hds.symm (hs.leading _)
  have hfs : ∀ d ∈ ds.drop k, isDigit d = true := fun d hd => hs.digits d (List.mem_of_mem_drop hd)
  have hn : ds.drop k ≠ [] := by
    rw [ne_eq, List.drop_eq_nil_iff]
    omega
  have hread := unsignedNumber_fraction hw hfs hn ha negative
  refine ⟨_, _, by rw [List.append_assoc]; exact hread, ?_⟩
  rw [List.take_append_drop, List.length_drop]
  congr 2
  omega

theorem positional_readsAs {ds : List Char} (hs : Shortest.Significant ds) (first : ℤ) :
    ReadsAs (Shortest.positional ds first) (ofDigits ds * 10 ^ (first + 1 - ds.length)) := by
  unfold Shortest.positional
  split
  · next hneg =>
    obtain ⟨k, hk⟩ := Int.eq_ofNat_of_zero_le (show 0 ≤ -first - 1 by omega)
    have hread := leadingZeros_readsAs hs k
    rw [hk, Int.toNat_natCast]
    rwa [show (-(k + ds.length : ℕ) : ℤ) = first + 1 - ds.length by push_cast; omega] at hread
  · next hpos =>
    obtain ⟨k, rfl⟩ := Int.eq_ofNat_of_zero_le (show 0 ≤ first by omega)
    dsimp only
    rw [Int.toNat_natCast]
    by_cases hlen : ds.length ≤ k + 1
    · have hread := trailingZeros_readsAs hs (k + 1 - ds.length)
      rw [List.take_of_length_le hlen, List.drop_eq_nil_of_le hlen]
      rwa [show ((k + 1 - ds.length : ℕ) : ℤ) = k + 1 - ds.length by omega] at hread
    · have hread := split_readsAs hs (k := k + 1) (by omega) (by omega)
      have hrest : (ds.drop (k + 1)).isEmpty = false := by
        rw [List.isEmpty_eq_false_iff, ne_eq, List.drop_eq_nil_iff]
        omega
      rw [Nat.sub_eq_zero_of_le (by omega), List.replicate_zero, List.append_nil, hrest]
      exact_mod_cast hread

theorem signed_natAbs (n : Int) : signed (n < 0) n.natAbs = n := by
  by_cases h : n < 0
  · rw [signed, decide_eq_true h, if_pos rfl]
    omega
  · rw [signed, decide_eq_false h, if_neg Bool.false_ne_true]
    omega

/-- The digits of an exponent, at least two of them. -/
theorem power_spec (first : ℤ) :
    let power := Nat.toDigits 10 first.natAbs
    let all := List.replicate (2 - power.length) '0' ++ power
    (∀ d ∈ all, isDigit d = true) ∧ all ≠ [] ∧ signed (first < 0) (ofDigits all) = first := by
  refine ⟨?_, ?_, ?_⟩
  · intro d hd
    rcases List.mem_append.mp hd with hd | hd
    · exact isDigit_replicate hd
    · exact isDigit_toDigits hd
  · exact List.append_ne_nil_of_right_ne_nil _ (List.ne_nil_of_length_pos Nat.length_toDigits_pos)
  · rw [ofDigits_append, ofDigits_zeros, Nat.zero_mul, Nat.zero_add, ofDigits_toDigits,
      signed_natAbs]

/-- The parts of a layout with an exponent, in the form in which they are read. -/
theorem scientific_cons (d : Char) (fs : List Char) (first : ℤ) :
    Shortest.scientific (d :: fs) first =
      [d] ++ ((if fs = [] then [] else '.' :: fs) ++
        'e' :: (if decide (first < 0) then '-' else '+') ::
          (List.replicate (2 - (Nat.toDigits 10 first.natAbs).length) '0' ++
            Nat.toDigits 10 first.natAbs)) := by
  unfold Shortest.scientific
  cases fs <;> simp

theorem scientific_readsAs {ds : List Char} (hs : Shortest.Significant ds) (first : ℤ) :
    ReadsAs (Shortest.scientific ds first) (ofDigits ds * 10 ^ (first + 1 - ds.length)) := by
  intro negative after ha
  obtain ⟨hpower, hne, hval⟩ := power_spec first
  obtain ⟨d, fs, rfl⟩ := List.exists_cons_of_ne_nil hs.nonempty
  have hw : IsWhole [d] := by
    refine isWhole_of_ne ?_ ?_
    · intro c hc
      rw [List.mem_singleton] at hc
      rw [hc]
      exact hs.digits d List.mem_cons_self
    · rintro rfl
      exact hs.leading fs rfl
  have hfs : ∀ c ∈ fs, isDigit c = true := fun c hc => hs.digits c (List.mem_cons_of_mem _ hc)
  have hexp : first + 1 - ((d :: fs).length : ℕ) = first - fs.length := by
    rw [List.length_cons]
    omega
  rw [scientific_cons, hexp]
  generalize List.replicate (2 - (Nat.toDigits 10 first.natAbs).length) '0' ++
    Nat.toDigits 10 first.natAbs = power at hpower hne hval ⊢
  by_cases hempty : fs = []
  · subst hempty
    have hread := unsignedNumber_exponent hw hpower hne ha negative (first < 0)
    rw [hval] at hread
    exact ⟨_, _, hread, rfl⟩
  · have hread := unsignedNumber_scientific hw hfs hempty hpower hne ha negative (first < 0)
    rw [hval] at hread
    refine ⟨ofDigits ([d] ++ fs), first - fs.length, ?_, rfl⟩
    rw [← hread, if_neg hempty]
    simp

/-! ## Documents that are numbers -/

theorem number_digit {d : Char} (hd : isDigit d = true) (cs : List Char) :
    number (d :: cs) = unsignedNumber false (d :: cs) := by
  unfold number
  split
  · next heq =>
    cases heq
    cases hd
  · rfl

theorem value_digit {d : Char} (hd : isDigit d = true) (fuel : Nat) (cs : List Char) :
    value (fuel + 1) (d :: cs) = unsignedNumber false (d :: cs) := by
  rw [value, number_digit hd]
  all_goals
    intros
    rename_i heq
    cases heq
    cases hd

theorem value_minus {d : Char} (hd : isDigit d = true) (fuel : Nat) (cs : List Char) :
    value (fuel + 1) ('-' :: d :: cs) = unsignedNumber true (d :: cs) := by
  rw [value, number]
  all_goals
    intros
    rename_i heq
    cases heq
  cases hd

theorem digit_of_unsignedNumber {negative : Bool} {cs : List Char} {r : Json × List Char}
    (h : unsignedNumber negative cs = .ok r) : ∃ d cs', cs = d :: cs' ∧ isDigit d = true := by
  cases cs with
  | nil => cases h
  | cons d cs' =>
    refine ⟨d, cs', rfl, ?_⟩
    by_contra hd
    have h0 : d ≠ '0' := by
      rintro rfl
      exact hd rfl
    have hrun : digitRun (d :: cs') = ([], d :: cs') := by
      rw [digitRun, List.takeWhile_cons_of_neg hd, List.dropWhile_cons_of_neg hd]
    unfold unsignedNumber at h
    split at h
    next whole rest heq =>
      split at heq
      · next hcs =>
        rw [List.cons.injEq] at hcs
        exact h0 hcs.1
      · rw [hrun] at heq
        cases heq
        cases h

/-- A number with its sign, where a document can stand. -/
theorem value_signed {negative : Bool} {cs : List Char} {r : Json × List Char}
    (h : unsignedNumber negative cs = .ok r) (fuel : Nat) :
    value (fuel + 1) ((if negative then ['-'] else []) ++ cs) = .ok r := by
  obtain ⟨d, cs', rfl, hd⟩ := digit_of_unsignedNumber h
  cases negative with
  | true =>
    rw [← h]
    exact value_minus hd fuel cs'
  | false =>
    rw [← h]
    exact value_digit hd fuel cs'

theorem value_digits {n : Int} (h : n.natAbs < tooLarge) {after : List Char} (ha : Ends after)
    (fuel : Nat) : value (fuel + 1) (IntText.digits n ++ after) = .ok (.int n, after) := by
  unfold tooLarge at h
  have hlen := length_le_of_lt (k := maxDigits) (by decide) h
  have hread := unsignedNumber_int (isWhole_toDigits n.natAbs) ha hlen (n < 0)
  have htext : IntText.digits n = (if decide (n < 0) then ['-'] else []) ++
      Nat.toDigits 10 n.natAbs := by
    unfold IntText.digits
    by_cases hn : n < 0 <;> simp [hn]
  rw [ofDigits_toDigits, signed_natAbs] at hread
  rw [htext, List.append_assoc]
  exact value_signed hread fuel

/-- The digits of a positive float are read back as that float. -/
theorem layout_readsAs {m : Nat} {e : ℤ} (hp : IsPositive m e) :
    ∃ q, Between m e q ∧ ReadsAs
      (let (digits, first) := Shortest.digits m e
        if -4 ≤ first ∧ first < 16 then Shortest.positional digits first
        else Shortest.scientific digits first) q := by
  obtain ⟨ds, first, hds, hs, hb⟩ := Shortest.digits_spec hp
  refine ⟨_, hb, ?_⟩
  rw [hds]
  dsimp only
  split
  · exact positional_readsAs hs first
  · exact scientific_readsAs hs first

theorem value_floatText (x : Float) {after : List Char} (ha : Ends after) (fuel : Nat) :
    value (fuel + 1) (floatText x ++ after) = .ok (.float x, after) := by
  unfold floatText
  rcases parts_cases x with ⟨hx, h⟩ | ⟨negative, hx, h⟩ | ⟨negative, m, e, hx, h, he, hm⟩
  · rw [hx, h]
    rfl
  · rw [hx, h]
    cases negative <;> rfl
  · rw [hx]
    dsimp only
    unfold Shortest.text
    rw [hx]
    dsimp only
    rcases hm with ⟨rfl, rfl⟩ | hp
    · have hw : IsWhole ['0'] := isWhole_toDigits 0
      have hdigit : ∀ c ∈ ['0'], isDigit c = true := fun c hc => isDigit_replicate (n := 1) hc
      have hread := unsignedNumber_fraction hw hdigit (List.cons_ne_nil _ _) ha negative
      have hzero : ofDecimal negative (ofDigits (['0'] ++ ['0'])) (0 - (['0'].length : ℕ)) = x := by
        rw [h]
        exact ofDecimal_zero negative _
      rw [hzero] at hread
      rw [if_pos rfl, String.toList_ofList, List.append_assoc]
      exact value_signed hread fuel
    · obtain ⟨q, hb, hreads⟩ := layout_readsAs hp
      obtain ⟨digits, exponent, hread, hval⟩ := hreads negative after ha
      rw [← hval] at hb
      rw [ofDecimal_of_between negative hp he hb, ← h] at hread
      rw [if_neg hp.pos.ne', String.toList_ofList, List.append_assoc]
      exact value_signed hread fuel

end ScriptLang.Json
