import ScriptLang.Proofs.Grammar.Derivation
import ScriptLang.Proofs.Number.Digits

/-!
# The values of numbers

The reader of numerals takes much more than the scanner makes. On the digits and points of a
scanned number it does what the rules for numbers say.

Results:
* `NumberValue.read`: a number is read as its value;
* `Lexed.number`: every scanned number has a value.
-/
namespace ScriptLang

/-! ## Digits and points -/

namespace Numeral

/-- Characters of scanned numbers. -/
def IsScanned (cs : List Char) : Prop := ∀ c ∈ cs, IntText.isDigit c = true ∨ c = '.'

theorem IsScanned.toNat {cs : List Char} (h : IsScanned cs) {c : Char} (hc : c ∈ cs) :
    46 ≤ c.toNat ∧ c.toNat ≤ 57 := by
  rcases h c hc with hd | rfl
  · have := IntText.toNat_of_isDigit hd
    omega
  · decide

theorem plain_of_lt {c : Char} (h : c.toNat ≤ 57) : plain c = c := by
  rw [plain, if_pos (by omega)]

theorem IsScanned.map_plain {cs : List Char} (h : IsScanned cs) : cs.map plain = cs := by
  rw [List.map_congr_left fun c hc => plain_of_lt (h.toNat hc).2, List.map_id']

theorem ne_of_toNat {c d : Char} (h : c.toNat ≠ d.toNat) : c ≠ d := by
  rintro rfl
  exact h rfl

theorem isBlank_of_le {c : Char} (h : 46 ≤ c.toNat) : isBlank c = false := by
  have hne : ∀ d : Char, d.toNat < 46 → (c == d) = false := fun d hd =>
    beq_false_of_ne (ne_of_toNat (by omega))
  unfold isBlank
  rw [hne ' ' (by decide), hne '\t' (by decide), hne '\n' (by decide), hne '\r' (by decide),
    hne '\x0b' (by decide), hne '\x0c' (by decide)]
  rfl

theorem dropWhile_isBlank {cs : List Char} (h : IsScanned cs) : cs.dropWhile isBlank = cs := by
  cases cs with
  | nil => rfl
  | cons c cs =>
    rw [List.dropWhile_cons_of_neg]
    rw [isBlank_of_le (h.toNat (List.mem_cons_self)).1]
    exact Bool.false_ne_true

theorem IsScanned.trimmed {cs : List Char} (h : IsScanned cs) : trimmed cs = cs := by
  have hr : IsScanned cs.reverse := fun c hc => h c (List.mem_reverse.mp hc)
  rw [Numeral.trimmed, dropWhile_isBlank h, dropWhile_isBlank hr, List.reverse_reverse]

theorem joined_of_ne {before : Char} {cs : List Char} (hb : before ≠ '_') (h : IsScanned cs) :
    joined? before cs = some cs := by
  induction cs generalizing before with
  | nil => rw [joined?, if_neg (by simpa using hb)]
  | cons c cs ih =>
    have hc : c ≠ '_' := ne_of_toNat (by
      have := (h.toNat (List.mem_cons_self)).2
      have : '_'.toNat = 95 := rfl
      omega)
    rw [joined?, if_neg (by simpa using hc), if_neg (by simp [hb]),
      ih hc fun d hd => h d (List.mem_cons_of_mem _ hd)]
    rfl

theorem IsScanned.signOf {cs : List Char} (h : IsScanned cs) : signOf cs = (false, cs) := by
  unfold Numeral.signOf
  split
  · have := (h.toNat (List.mem_cons_self)).1
    contradiction
  · have := (h.toNat (List.mem_cons_self)).1
    contradiction
  · rfl

end Numeral

namespace Grammar

theorem Digits.isScanned {ds : List Char} (h : Digits ds) : Numeral.IsScanned ds :=
  fun d hd => .inl (h.2 d hd)

theorem Digits.not_mem_point {ds : List Char} (h : Digits ds) : '.' ∉ ds := fun hd =>
  absurd (h.2 _ hd) (by decide)

theorem toLower_digit {d : Char} (h : IntText.isDigit d = true) : d.toLower = d := by
  have hd := IntText.toNat_of_isDigit h
  have hv : d.toNat = d.val.toNat := rfl
  unfold Char.toLower
  simp [UInt32.le_iff_toNat_le]
  omega

/-- A text that starts with a digit is none of the words for infinity and NaN. -/
theorem lower_ne_word {d w : Char} (hd : IntText.isDigit d = true) (hw : IntText.isDigit w = false)
    (cs word : List Char) :
    (String.ofList ((d :: cs).map Char.toLower) == String.ofList (w :: word)) = false := by
  refine beq_false_of_ne fun h => ?_
  have hl := String.ofList_injective h
  rw [List.map_cons, List.cons.injEq, toLower_digit hd] at hl
  rw [hl.1, hw] at hd
  cases hd

theorem Digits.cons {ds : List Char} (h : Digits ds) :
    ∃ d rest, ds = d :: rest ∧ IntText.isDigit d = true := by
  obtain ⟨d, rest, rfl⟩ := List.exists_cons_of_ne_nil h.1
  exact ⟨d, rest, rfl, h.2 d List.mem_cons_self⟩

theorem Digits.any {ds : List Char} (h : Digits ds) : ds.any (!IntText.isDigit ·) = false := by
  rw [List.any_eq_false]
  intro d hd
  rw [h.2 d hd]
  decide

theorem Digits.int {ds : List Char} (h : Digits ds) :
    Numeral.int? ds =
      if IntText.maxDigits < ds.length then none else some (.ofNat (IntText.ofDigits ds)) := by
  have hne : ds.isEmpty = false := by rw [List.isEmpty_eq_false_iff]; exact h.1
  rw [Numeral.int?, h.isScanned.trimmed, Numeral.joined_of_ne (by decide) h.isScanned]
  simp only [Option.bind_eq_bind, Option.bind_some, h.isScanned.signOf, hne, h.any, Bool.false_or]
  simp only [decide_eq_true_eq, Binary64.signed]
  rfl

/-- The reader of floats on a text that starts with a digit. -/
theorem float_of_isScanned {d : Char} {cs : List Char} (hd : IntText.isDigit d = true)
    (h : Numeral.IsScanned (d :: cs)) :
    Numeral.float? (d :: cs) = Numeral.decimal? false (d :: cs) := by
  rw [Numeral.float?, h.trimmed, Numeral.joined_of_ne (by decide) h]
  simp only [Option.bind_eq_bind, Option.bind_some, h.signOf]
  rw [show "inf" = String.ofList ['i', 'n', 'f'] from rfl,
    show "infinity" = String.ofList ['i', 'n', 'f', 'i', 'n', 'i', 't', 'y'] from rfl,
    show "nan" = String.ofList ['n', 'a', 'n'] from rfl, lower_ne_word hd (by decide),
    lower_ne_word hd (by decide), lower_ne_word hd (by decide)]
  rfl

theorem Digits.takeWhile {ds : List Char} (h : Digits ds) : ds.takeWhile IntText.isDigit = ds :=
  List.takeWhile_eq_self_iff.mpr h.2

theorem Digits.takeWhile_append {ds : List Char} (h : Digits ds) (rest : List Char) :
    (ds ++ '.' :: rest).takeWhile IntText.isDigit = ds := by
  refine IntText.takeWhile_digits h.2 ?_
  rintro c ⟨⟩
  decide

theorem Digits.float {ds : List Char} (h : Digits ds) :
    Numeral.float? ds = some (Binary64.ofDecimal false (IntText.ofDigits ds) 0) := by
  have hs := h.isScanned
  have hw := h.takeWhile
  obtain ⟨d, rest, rfl, hd⟩ := h.cons
  rw [float_of_isScanned hd hs, Numeral.decimal?, hw]
  simp [Numeral.exponent?]

theorem Digits.isScanned_point {whole fraction : List Char} (hw : Digits whole)
    (hf : Digits fraction) : Numeral.IsScanned (whole ++ '.' :: fraction) := by
  intro c hc
  rcases List.mem_append.mp hc with hc | hc
  · exact hw.isScanned c hc
  · rcases List.mem_cons.mp hc with rfl | hc
    · exact .inr rfl
    · exact hf.isScanned c hc

theorem Digits.float_point {whole fraction : List Char} (hw : Digits whole)
    (hf : Digits fraction) :
    Numeral.float? (whole ++ '.' :: fraction) =
      some (Binary64.ofDecimal false (IntText.ofDigits (whole ++ fraction))
        (-(fraction.length : Int))) := by
  have hs := hw.isScanned_point hf
  have ht := hw.takeWhile_append fraction
  have hl : (whole ++ '.' :: fraction).drop whole.length = '.' :: fraction := List.drop_left
  have hne := hw.1
  obtain ⟨d, rest, rfl, hd⟩ := hw.cons
  rw [List.cons_append] at hs ht hl ⊢
  rw [float_of_isScanned hd hs, Numeral.decimal?, ht, hl]
  simp [Numeral.exponent?, hf.takeWhile]

/-- A number is read as its value. -/
theorem NumberValue.read {text : String} {n : Json} (h : NumberValue text n) :
    Numeral.read? text = some n := by
  rw [Numeral.read?]
  cases h with
  | integer hd hl =>
    rw [String.toList_ofList, hd.isScanned.map_plain, if_neg (by simpa using hd.not_mem_point),
      hd.int, if_neg (by omega)]
    rfl
  | long hd hl =>
    rw [String.toList_ofList, hd.isScanned.map_plain, if_neg (by simpa using hd.not_mem_point),
      hd.int, if_pos hl, hd.float]
    rfl
  | decimal hw hf =>
    rw [String.toList_ofList, (hw.isScanned_point hf).map_plain, if_pos (by simp),
      hw.float_point hf]
    rfl

/-! ## Scanned numbers -/

theorem wordKind_mem (word : String) :
    Lexeme.wordKind word ∈ TokenKind.identifier :: Lexeme.keywords.map (·.2) := by
  rw [Lexeme.wordKind]
  cases h : Lexeme.keywords.lookup word with
  | none => exact List.mem_cons_self
  | some kind =>
    obtain ⟨before, after, hs, -⟩ := List.lookup_eq_some_iff.mp h
    exact List.mem_cons_of_mem _ (List.mem_map.mpr ⟨(word, kind), by rw [hs]; simp, rfl⟩)

theorem punctuation_kind {c : Char} {kind : TokenKind} (h : Lexeme.punctuation? c = some kind) :
    kind ≠ .number ∧ kind ≠ .endOfInput := by
  unfold Lexeme.punctuation? at h
  split at h <;> cases h <;> exact ⟨by decide, by decide⟩

theorem operator_kind {c : Char} {rest : List Char} {kind : TokenKind} {text : String} {extra : Nat}
    (h : Lexeme.operator c rest = .token kind text extra) :
    kind ≠ .number ∧ kind ≠ .endOfInput := by
  unfold Lexeme.operator at h
  split at h
  · cases h
    exact ⟨by decide, by decide⟩
  · split at h
    · cases h
      exact ⟨by decide, by decide⟩
    · split at h
      · cases h
      · cases h
        exact ⟨by decide, by decide⟩

theorem string_kind {rest : List Char} {kind : TokenKind} {text : String} {extra : Nat}
    (h : Lexeme.string rest = .token kind text extra) :
    kind ≠ .number ∧ kind ≠ .endOfInput := by
  unfold Lexeme.string at h
  dsimp only at h
  split at h <;> cases h
  exact ⟨by decide, by decide⟩

theorem word_kind {c : Char} {rest : List Char} {kind : TokenKind} {text : String} {extra : Nat}
    (h : Lexeme.word c rest = .token kind text extra) :
    kind ≠ .number ∧ kind ≠ .endOfInput := by
  unfold Lexeme.word at h
  cases h
  have hall : ∀ k ∈ TokenKind.identifier :: Lexeme.keywords.map (·.2),
      k ≠ .number ∧ k ≠ .endOfInput := by decide
  exact hall _ (wordKind_mem _)

/-- What the scanner makes of a character is a number that starts with a digit, or it is neither a
number nor the end of the input. -/
theorem first_token {c : Char} {rest : List Char} {kind : TokenKind} {text : String} {extra : Nat}
    (h : Lexeme.first c rest = .token kind text extra) :
    IntText.isDigit c = true ∧ Lexeme.number c rest = .token kind text extra ∨
      kind ≠ .number ∧ kind ≠ .endOfInput := by
  unfold Lexeme.first at h
  split at h
  · cases h
  · split at h
    · next k hp =>
      cases h
      exact .inr (punctuation_kind hp)
    · split at h
      · cases h
      · split at h
        · cases h
          exact .inr ⟨by decide, by decide⟩
        · split at h
          · exact .inr (operator_kind h)
          · split at h
            · exact .inr (string_kind h)
            · split at h
              · next hd => exact .inl ⟨hd, h⟩
              · split at h
                · exact .inr (word_kind h)
                · cases h

/-- The text of a scanned number, as the rules write it. -/
theorem number_value {c : Char} {rest : List Char} {kind : TokenKind} {text : String} {extra : Nat}
    (hc : IntText.isDigit c = true) (h : Lexeme.number c rest = .token kind text extra) :
    kind = .number ∧ ∃ n, NumberValue text n := by
  have hw : Digits (c :: rest.takeWhile IntText.isDigit) :=
    ⟨List.cons_ne_nil _ _, fun d hd => by
      rcases List.mem_cons.mp hd with rfl | hd
      · exact hc
      · exact List.mem_takeWhile_imp hd⟩
  have hwhole : ∃ n, NumberValue (String.ofList (c :: rest.takeWhile IntText.isDigit)) n := by
    rcases Nat.lt_or_ge IntText.maxDigits (c :: rest.takeWhile IntText.isDigit).length with hl | hl
    · exact ⟨_, .long hw hl⟩
    · exact ⟨_, .integer hw hl⟩
  unfold Lexeme.number at h
  dsimp only at h
  obtain ⟨rfl, rfl, -⟩ := Lexeme.token.inj h
  refine ⟨rfl, ?_⟩
  split
  · next after _ =>
    split
    · rw [List.append_nil]
      exact hwhole
    · next hne =>
      have hf : Digits (after.takeWhile IntText.isDigit) :=
        ⟨by simpa using hne, fun d hd => List.mem_takeWhile_imp hd⟩
      exact ⟨_, .decimal hw hf⟩
  · rw [List.append_nil]
    exact hwhole

theorem Lexed.number {t : Token} (h : Lexed t) (hk : t.kind = .number) :
    ∃ n, NumberValue t.text n := by
  obtain ⟨c, rest, extra, hf⟩ := h
  rcases first_token hf with ⟨hc, hn⟩ | ⟨hn, -⟩
  · exact (number_value hc hn).2
  · exact absurd hk hn

theorem Lexed.ne_endOfInput {t : Token} (h : Lexed t) : t.kind ≠ .endOfInput := by
  obtain ⟨c, rest, extra, hf⟩ := h
  rcases first_token hf with ⟨hc, hn⟩ | ⟨-, hn⟩
  · rw [(number_value hc hn).1]
    decide
  · exact hn

end Grammar

end ScriptLang
