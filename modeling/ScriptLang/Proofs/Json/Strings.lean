import ScriptLang.Json.Reader
import ScriptLang.Json.Writer

/-!
# Strings in documents

A string between its quotes is read back, whatever its characters are and whatever follows.

Result:
* `stringRest_string`: the reader stops at the closing quote, with the string that was written.
-/
namespace ScriptLang.Json

/-! ## One character -/

theorem stringRest_plain {c : Char} (hq : c ≠ '"') (hb : c ≠ '\\') (hc : ¬c.toNat < 0x20)
    (read more : List Char) : stringRest read (c :: more) = stringRest (c :: read) more := by
  rw [stringRest, if_neg hc]
  all_goals
    intros
    simp_all

theorem stringRest_simple {c e : Char} (hu : e ≠ 'u') (h : simpleEscape? e = some c)
    (read more : List Char) :
    stringRest read ('\\' :: e :: more) = stringRest (c :: read) more := by
  rw [stringRest, h]
  all_goals
    intros
    simp_all

/-- The escape by number of a control character. -/
theorem hexPadded_control (n : Fin 0x20) :
    Text.hexPadded 4 n = ['0', '0', Nat.digitChar (n / 16), Nat.digitChar (n % 16)] ∧
      hex4? '0' '0' (Nat.digitChar (n / 16)) (Nat.digitChar (n % 16)) = some n.val := by
  revert n
  decide

theorem stringRest_control {c : Char} (hc : c.toNat < 0x20) (read more : List Char) :
    stringRest read (charEscape c ++ more) = stringRest (c :: read) more := by
  obtain ⟨hpad, hval⟩ := hexPadded_control ⟨c.toNat, hc⟩
  have hhigh : isHighSurrogate c.toNat = false := by
    rw [isHighSurrogate, decide_eq_false (by omega), Bool.false_and]
  have hlow : isLowSurrogate c.toNat = false := by
    rw [isLowSurrogate, decide_eq_false (by omega), Bool.false_and]
  have hunit : charOfUnit c.toNat = c := by
    rw [charOfUnit, hhigh, hlow, Bool.or_self, if_neg Bool.false_ne_true, Char.ofNat_toNat]
  rw [charEscape, if_pos (by omega), unitEscape, hpad]
  simp only [List.cons_append, List.nil_append]
  rw [stringRest, hval]
  dsimp only
  rw [hhigh]
  dsimp only
  rw [hunit]

/-- What a character is written as: an escape by letter, an escape by number, or itself. -/
theorem writeChar_cases (c : Char) :
    (∃ e, writeChar false c = ['\\', e] ∧ e ≠ 'u' ∧ simpleEscape? e = some c) ∨
    (writeChar false c = charEscape c ∧ c.toNat < 0x20) ∨
    (writeChar false c = [c] ∧ c ≠ '"' ∧ c ≠ '\\' ∧ ¬c.toNat < 0x20) := by
  by_cases hq : c = '"'
  · subst hq
    exact .inl ⟨'"', rfl, by decide, rfl⟩
  by_cases hb : c = '\\'
  · subst hb
    exact .inl ⟨'\\', rfl, by decide, rfl⟩
  unfold writeChar
  rw [if_neg (by simpa using hq), if_neg (by simpa using hb)]
  iterate 5
    split
    · next h =>
      rw [beq_iff_eq] at h
      subst h
      exact .inl ⟨_, rfl, by decide, rfl⟩
  split
  · next h => exact .inr (.inl ⟨rfl, h⟩)
  · next h => exact .inr (.inr ⟨rfl, hq, hb, h⟩)

theorem stringRest_writeChar (c : Char) (read more : List Char) :
    stringRest read (writeChar false c ++ more) = stringRest (c :: read) more := by
  rcases writeChar_cases c with ⟨e, hw, hu, he⟩ | ⟨hw, hc⟩ | ⟨hw, hq, hb, hc⟩
  · rw [hw]
    exact stringRest_simple hu he read more
  · rw [hw]
    exact stringRest_control hc read more
  · rw [hw]
    exact stringRest_plain hq hb hc read more

/-! ## Whole strings -/

theorem stringRest_chars (cs read after : List Char) :
    stringRest read (cs.flatMap (writeChar false) ++ '"' :: after) =
      .ok (String.ofList (read.reverse ++ cs), after) := by
  induction cs generalizing read with
  | nil =>
    rw [List.append_nil]
    rfl
  | cons c cs ih =>
    rw [List.flatMap_cons, List.append_assoc, stringRest_writeChar, ih, List.reverse_cons,
      List.append_assoc]
    rfl

theorem stringRest_string (s : String) (after : List Char) :
    stringRest [] (s.toList.flatMap (writeChar false) ++ '"' :: after) = .ok (s, after) := by
  rw [stringRest_chars, List.reverse_nil, List.nil_append, String.ofList_toList]

end ScriptLang.Json
