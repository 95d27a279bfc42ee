import ScriptLang.Proofs.Number.Digits
import ScriptLang.Value

/-!
# Plain values and their texts

The values that a program can have: no list, no object and no collection, which only a stored program
or a host brings in. There is a text of each of them, but for integers of too many digits.

Results:
* `Value.IsPlain.text_error`, `Value.IsPlain.shown_error`: only the number of digits stands in the way
  of a text.
-/
namespace ScriptLang

/-- A document without parts: null, a truth value, a number or a string. -/
inductive Json.IsScalar : Json → Prop
  | null : IsScalar .null
  | bool (b : Bool) : IsScalar (.bool b)
  | int (n : Int) : IsScalar (.int n)
  | float (x : Float) : IsScalar (.float x)
  | str (s : String) : IsScalar (.str s)

/-- A value that a program can have: null, a truth value, a number, a string or a function. -/
inductive Value.IsPlain : Value → Prop
  | data {j : Json} : j.IsScalar → IsPlain (.data j)
  | closure (c : Closure) : IsPlain (.closure c)
  | builtin (name : String) (home : ScopeId) : IsPlain (.builtin name home)

/-- The value is an integer whose digits are more than a text can have. -/
def Value.IsTooLong (v : Value) : Prop :=
  ∃ n, v = .data (.int n) ∧ IntText.maxDigits < (Nat.toDigits 10 n.natAbs).length

/-- A name as programs write them: a string. -/
def Json.IsText (j : Json) : Prop := ∃ s, j = .str s

namespace Value

theorem IsTooLong.of_text? {n : Int} (h : IntText.text? n = none) : IsTooLong (.data (.int n)) :=
  ⟨n, rfl, IntText.maxDigits_lt_of_text?_eq_none h⟩

theorem orDigitLimit_error {text? : Option String} {b : Breakdown}
    (h : orDigitLimit text? = .error b) : text? = none ∧ b = .digitLimit := by
  cases text? with
  | none => exact ⟨rfl, by cases h; rfl⟩
  | some s => cases h

theorem IsPlain.text_error {v : Value} {b : Breakdown} (hv : v.IsPlain) (h : v.text = .error b) :
    b = .digitLimit ∧ v.IsTooLong := by
  cases hv with
  | data hj =>
    cases hj with
    | int n =>
      rw [text] at h
      obtain ⟨hn, rfl⟩ := orDigitLimit_error h
      exact ⟨rfl, .of_text? hn⟩
    | _ => cases h
  | closure c => cases h
  | builtin name home => cases h

theorem paramTexts_isOk (index : Nat) {params : List Json} (h : ∀ x ∈ params, x.IsText) :
    ∃ texts, paramTexts index params = .ok texts := by
  induction params generalizing index with
  | nil => exact ⟨[], rfl⟩
  | cons x params ih =>
    obtain ⟨⟨s, rfl⟩, hparams⟩ := List.forall_mem_cons.mp h
    obtain ⟨texts, htexts⟩ := ih (index + 1) hparams
    exact ⟨s :: texts, by rw [paramTexts, htexts]; rfl⟩

theorem IsPlain.shown_error {v : Value} {b : Breakdown} (hv : v.IsPlain)
    (hparams : ∀ c, v = .closure c → ∀ x ∈ c.params, x.IsText) (h : v.shown = .error b) :
    b = .digitLimit ∧ v.IsTooLong := by
  cases hv with
  | data hj =>
    rw [shown] at h
    obtain ⟨hnone, rfl⟩ := orDigitLimit_error h
    cases hj with
    | int n => exact ⟨rfl, .of_text? hnone⟩
    | _ => cases hnone
  | closure c =>
    obtain ⟨texts, htexts⟩ := paramTexts_isOk 0 (hparams c rfl)
    rw [shown, htexts] at h
    cases h
  | builtin name home => cases h

end Value

end ScriptLang
