import ScriptLang.Proofs.Grammar.Numbers
import ScriptLang.Proofs.Node.WellFormed

/-!
# Words

Which texts the tokens of each class have, and how they are written. The scanner makes a token exactly
of these words; written with a space after each of them, they are scanned one by one, because a space
ends every word and belongs to none but strings.

Results:
* `Word.lexed_iff`: the words of scanned tokens;
* `Word.scan_line`: a line of words is scanned as these words.
-/
namespace ScriptLang

/-- A token without its place. -/
structure Word where
  kind : TokenKind
  text : String
  deriving DecidableEq, Repr

def Token.word (t : Token) : Word := ⟨t.kind, t.text⟩

namespace Word

/-- The word as it is written: only strings are not written as their text. -/
def spelling (w : Word) : String := if w.kind = .string then "\"" ++ w.text ++ "\"" else w.text

/-- The words of the language. -/
inductive IsLexical : Word → Prop
  | keyword {text : String} {kind : TokenKind} : (text, kind) ∈ Lexeme.keywords →
      IsLexical ⟨kind, text⟩
  | name {text : String} : IsName text → IsLexical ⟨.identifier, text⟩
  | number {text : String} {n : Json} : Grammar.NumberValue text n → IsLexical ⟨.number, text⟩
  | string {text : String} : IsQuotable text → IsLexical ⟨.string, text⟩
  | mark {c : Char} {kind : TokenKind} : Lexeme.punctuation? c = some kind →
      IsLexical ⟨kind, String.ofList [c]⟩
  | equals : IsLexical ⟨.equals, "="⟩
  | arithmetic {text : String} : text ∈ ["+", "-", "*", "/"] → IsLexical ⟨.binaryOperator, text⟩
  | comparison {text : String} : text ∈ ["==", "!=", "<", ">", "<=", ">="] →
      IsLexical ⟨.comparison, text⟩

theorem wordKind_cases (word : String) :
    (word, Lexeme.wordKind word) ∈ Lexeme.keywords ∨
      Lexeme.wordKind word = .identifier ∧ word ∉ Lexeme.keywords.map (·.1) := by
  rw [Lexeme.wordKind]
  cases hk : Lexeme.keywords.lookup word with
  | some kind =>
    obtain ⟨before, after, hs, -⟩ := List.lookup_eq_some_iff.mp hk
    exact .inl (by rw [hs]; simp)
  | none =>
    refine .inr ⟨rfl, fun hmem => ?_⟩
    obtain ⟨entry, hentry, rfl⟩ := List.mem_map.mp hmem
    exact absurd (List.lookup_eq_none_iff.mp hk entry hentry) (by simp)

/-! ## Scanned words are words of the language -/

section Scanned

variable {c : Char} {rest : List Char} {kind : TokenKind} {text : String} {extra : Nat}

theorem isLexical_operator
    (hc : (c == '=' || c == '<' || c == '>' || c == '!') = true)
    (h : Lexeme.operator c rest = .token kind text extra) : IsLexical ⟨kind, text⟩ := by
  simp only [Bool.or_eq_true, beq_iff_eq] at hc
  unfold Lexeme.operator at h
  split at h
  · cases h
    refine .comparison ?_
    rcases hc with ((rfl | rfl) | rfl) | rfl <;> decide
  · split at h
    · cases h
      exact .equals
    · next hne =>
      split at h
      · cases h
      · next hmark =>
        cases h
        refine .comparison ?_
        rcases hc with ((rfl | rfl) | rfl) | rfl
        · exact absurd rfl hne
        · decide
        · decide
        · exact absurd rfl hmark

theorem isLexical_string (h : Lexeme.string rest = .token kind text extra) :
    IsLexical ⟨kind, text⟩ := by
  unfold Lexeme.string at h
  dsimp only at h
  split at h
  · cases h
  · cases h
    refine .string fun hmem => ?_
    rw [String.toList_ofList] at hmem
    exact absurd (List.mem_takeWhile_imp hmem) (by decide)

theorem isLexical_word (hc : Lexeme.isNameStart c = true)
    (h : Lexeme.word c rest = .token kind text extra) : IsLexical ⟨kind, text⟩ := by
  unfold Lexeme.word at h
  cases h
  rcases wordKind_cases (String.ofList (c :: rest.takeWhile Lexeme.isNamePart)) with hk | ⟨hk, hno⟩
  · exact .keyword hk
  · rw [hk]
    exact .name ⟨⟨c, _, rfl, hc, fun d hd => List.mem_takeWhile_imp hd⟩, hno⟩

theorem isLexical_first (h : Lexeme.first c rest = .token kind text extra) :
    IsLexical ⟨kind, text⟩ := by
  unfold Lexeme.first at h
  split at h
  · cases h
  · split at h
    · next k hp =>
      cases h
      exact .mark hp
    · split at h
      · cases h
      · split at h
        · next hc =>
          cases h
          simp only [Bool.or_eq_true, beq_iff_eq] at hc
          refine .arithmetic ?_
          rcases hc with ((rfl | rfl) | rfl) | rfl <;> decide
        · split at h
          · next hc => exact isLexical_operator hc h
          · split at h
            · exact isLexical_string h
            · split at h
              · next hd =>
                obtain ⟨rfl, n, hn⟩ := Grammar.number_value hd h
                exact .number hn
              · split at h
                · next hc => exact isLexical_word hc h
                · cases h

end Scanned

/-! ## Words of the language are scanned -/

/-- What can come after a word on a line. -/
def Ends (rest : List Char) : Prop := rest = [] ∨ ∃ more, rest = ' ' :: more

theorem Ends.takeWhile {rest : List Char} (h : Ends rest) {p : Char → Bool} (hp : p ' ' = false)
    {cs : List Char} (hcs : ∀ c ∈ cs, p c = true) : (cs ++ rest).takeWhile p = cs := by
  rw [List.takeWhile_append_of_pos hcs]
  rcases h with rfl | ⟨more, rfl⟩ <;> simp [hp]

/-- The characters that start something else than a number or a word. -/
def specials : List Char :=
  [' ', '\t', '\r', '\n', '(', ')', '\x7b', '\x7d', ';', ',', '/', '+', '-', '*', '=', '<', '>',
    '!', '"']

theorem ne_of_isNamePart {c : Char} (h : Lexeme.isNamePart c = true) : ∀ d ∈ specials, c ≠ d := by
  have hs : specials.all (fun d => !Lexeme.isNamePart d) = true := by decide
  rintro d hd rfl
  have hnot := List.all_eq_true.mp hs c hd
  rw [h] at hnot
  cases hnot

theorem first_of_ne {c : Char} (h : ∀ d ∈ specials, c ≠ d) (rest : List Char) :
    Lexeme.first c rest =
      if IntText.isDigit c then Lexeme.number c rest
      else if Lexeme.isNameStart c then Lexeme.word c rest else .unexpected := by
  simp only [specials, List.forall_mem_cons] at h
  have hp : Lexeme.punctuation? c = none := by
    unfold Lexeme.punctuation?
    split <;> simp_all
  simp [Lexeme.first, Lexeme.isBlank, hp, h]

theorem not_isDigit_of_isNameStart {c : Char} (h : Lexeme.isNameStart c = true) :
    IntText.isDigit c = false := by
  refine Bool.eq_false_iff.mpr fun hd => ?_
  have hc := IntText.toNat_of_isDigit hd
  simp only [Lexeme.isNameStart, Bool.or_eq_true, Bool.and_eq_true, beq_iff_eq, decide_eq_true_eq,
    Char.le_def, UInt32.le_iff_toNat_le] at h
  have ha : 'a'.val.toNat = 97 := rfl
  have hA : 'A'.val.toNat = 65 := rfl
  have hv : c.val.toNat = c.toNat := rfl
  rcases h with (rfl | h) | h
  · exact absurd hc.2 (by decide)
  · omega
  · omega

/-- How the word is scanned from the text that it starts. -/
def ScansAs (w : Word) (cs : List Char) : Prop :=
  ∀ rest, Ends rest → ∃ c tail, cs = c :: tail ∧
    Lexeme.first c (tail ++ rest) = .token w.kind w.text tail.length

theorem scansAs_word {c : Char} {cs : List Char} (hc : Lexeme.isNameStart c = true)
    (hcs : ∀ d ∈ cs, Lexeme.isNamePart d = true) :
    ScansAs ⟨Lexeme.wordKind (String.ofList (c :: cs)), String.ofList (c :: cs)⟩ (c :: cs) := by
  intro rest hrest
  have hpart : Lexeme.isNamePart c = true := by rw [Lexeme.isNamePart, hc, Bool.true_or]
  refine ⟨c, cs, rfl, ?_⟩
  rw [first_of_ne (ne_of_isNamePart hpart), not_isDigit_of_isNameStart hc, if_neg Bool.false_ne_true,
    if_pos hc, Lexeme.word, hrest.takeWhile (by decide) hcs]

theorem scansAs_keyword {text : String} {kind : TokenKind} (h : (text, kind) ∈ Lexeme.keywords) :
    ScansAs ⟨kind, text⟩ text.toList := by
  have hall : ∀ e ∈ Lexeme.keywords, Lexeme.wordKind e.1 = e.2 ∧
      e.1.toList.head?.any Lexeme.isNameStart = true ∧
      e.1.toList.tail.all Lexeme.isNamePart = true := by decide
  obtain ⟨hk, hhead, htail⟩ := hall _ h
  dsimp only at hk hhead htail
  have ht : String.ofList text.toList = text := String.ofList_toList
  cases hl : text.toList with
  | nil => simp [hl] at hhead
  | cons c cs =>
    rw [hl] at hhead htail ht
    have := @scansAs_word c cs (by simpa using hhead) (by simpa using htail)
    rwa [ht, hk] at this

theorem scansAs_name {text : String} (h : IsName text) :
    ScansAs ⟨.identifier, text⟩ text.toList := by
  obtain ⟨⟨c, cs, rfl, hc, hcs⟩, hno⟩ := h
  have hword := scansAs_word hc hcs
  rcases wordKind_cases (String.ofList (c :: cs)) with hk | ⟨hk, -⟩
  · exact absurd (List.mem_map.mpr ⟨_, hk, rfl⟩) hno
  · rw [hk] at hword
    rwa [String.toList_ofList]

theorem first_digit {c : Char} (hc : IntText.isDigit c = true) (rest : List Char) :
    Lexeme.first c rest = Lexeme.number c rest := by
  have hpart : Lexeme.isNamePart c = true := by rw [Lexeme.isNamePart, hc, Bool.or_true]
  rw [first_of_ne (ne_of_isNamePart hpart), if_pos hc]

theorem scansAs_whole {ds : List Char} (h : Grammar.Digits ds) :
    ScansAs ⟨.number, String.ofList ds⟩ ds := by
  intro rest hrest
  obtain ⟨c, cs, rfl, hc⟩ := h.cons
  have hcs : ∀ d ∈ cs, IntText.isDigit d = true := (List.forall_mem_cons.mp h.2).2
  refine ⟨c, cs, rfl, ?_⟩
  rw [first_digit hc, Lexeme.number, hrest.takeWhile (by decide) hcs, List.drop_left]
  rcases hrest with rfl | ⟨more, rfl⟩ <;> simp

theorem scansAs_decimal {whole fraction : List Char} (hw : Grammar.Digits whole)
    (hf : Grammar.Digits fraction) :
    ScansAs ⟨.number, String.ofList (whole ++ '.' :: fraction)⟩ (whole ++ '.' :: fraction) := by
  intro rest hrest
  obtain ⟨c, cs, rfl, hc⟩ := hw.cons
  have hcs : ∀ d ∈ cs, IntText.isDigit d = true := (List.forall_mem_cons.mp hw.2).2
  refine ⟨c, cs ++ '.' :: fraction, rfl, ?_⟩
  have htake : (cs ++ '.' :: fraction ++ rest).takeWhile IntText.isDigit = cs := by
    rw [List.append_assoc, List.takeWhile_append_of_pos hcs]
    simp [show IntText.isDigit '.' = false from by decide]
  have hdrop : (cs ++ '.' :: fraction ++ rest).drop cs.length = '.' :: (fraction ++ rest) := by
    rw [List.append_assoc, List.drop_left, List.cons_append]
  have hne : fraction.isEmpty = false := List.isEmpty_eq_false_iff.mpr hf.1
  have hfraction := hrest.takeWhile (by decide) hf.2
  rw [first_digit hc, Lexeme.number, htake, hdrop]
  simp only [hfraction, hne]
  simp

theorem scansAs_number {text : String} {n : Json} (h : Grammar.NumberValue text n) :
    ScansAs ⟨.number, text⟩ text.toList := by
  cases h with
  | integer hd _ | long hd _ =>
    rw [String.toList_ofList]
    exact scansAs_whole hd
  | decimal hw hf =>
    rw [String.toList_ofList]
    exact scansAs_decimal hw hf

theorem scansAs_string {text : String} (h : IsQuotable text) :
    ScansAs ⟨.string, text⟩ ('"' :: (text.toList ++ ['"'])) := by
  intro rest _
  refine ⟨'"', text.toList ++ ['"'], rfl, ?_⟩
  have hbody : (text.toList ++ ['"'] ++ rest).takeWhile (· != '"') = text.toList := by
    rw [List.append_assoc, List.takeWhile_append_of_pos fun c hc => ?_]
    · simp
    · exact bne_iff_ne.mpr fun heq => h (heq ▸ hc)
  rw [show Lexeme.first '"' (text.toList ++ ['"'] ++ rest) =
    Lexeme.string (text.toList ++ ['"'] ++ rest) from rfl, Lexeme.string, hbody]
  dsimp only
  rw [if_neg (by simp)]
  simp [String.ofList_toList]

theorem scansAs_mark {c : Char} {kind : TokenKind} (h : Lexeme.punctuation? c = some kind) :
    ScansAs ⟨kind, String.ofList [c]⟩ [c] := by
  intro rest _
  refine ⟨c, [], rfl, ?_⟩
  unfold Lexeme.punctuation? at h
  split at h <;> cases h <;> rfl

theorem scansAs_arithmetic {text : String} (h : text ∈ ["+", "-", "*", "/"]) :
    ScansAs ⟨.binaryOperator, text⟩ text.toList := by
  intro rest hrest
  simp only [List.mem_cons, List.not_mem_nil, or_false] at h
  rcases hrest with rfl | ⟨more, rfl⟩ <;> rcases h with rfl | rfl | rfl | rfl <;>
    exact ⟨_, [], rfl, rfl⟩

theorem scansAs_comparison {text : String} (h : text ∈ ["==", "!=", "<", ">", "<=", ">="]) :
    ScansAs ⟨.comparison, text⟩ text.toList := by
  intro rest hrest
  simp only [List.mem_cons, List.not_mem_nil, or_false] at h
  rcases hrest with rfl | ⟨more, rfl⟩ <;> rcases h with rfl | rfl | rfl | rfl | rfl | rfl <;>
    exact ⟨_, _, rfl, rfl⟩

theorem IsLexical.scansAs {w : Word} (h : w.IsLexical) : ScansAs w w.spelling.toList := by
  cases h with
  | keyword h =>
    have hne : ∀ e ∈ Lexeme.keywords, e.2 ≠ .string := by decide
    rw [spelling, if_neg (hne _ h)]
    exact scansAs_keyword h
  | name h => exact scansAs_name h
  | number h => exact scansAs_number h
  | string h => simpa [spelling] using scansAs_string h
  | @mark c kind h =>
    have hne : kind ≠ .string := by
      unfold Lexeme.punctuation? at h
      split at h <;> cases h <;> decide
    rw [spelling, if_neg hne, String.toList_ofList]
    exact scansAs_mark h
  | equals =>
    intro rest hrest
    rcases hrest with rfl | ⟨more, rfl⟩ <;> exact ⟨_, [], rfl, rfl⟩
  | arithmetic h => exact scansAs_arithmetic h
  | comparison h => exact scansAs_comparison h

/-- The scanner makes tokens of the words of the language, and of no others. -/
theorem lexed_iff {t : Token} : Grammar.Lexed t ↔ t.word.IsLexical := by
  constructor
  · rintro ⟨c, rest, extra, h⟩
    exact isLexical_first h
  · intro h
    obtain ⟨c, tail, -, hf⟩ := h.scansAs [] (.inl rfl)
    exact ⟨c, _, _, hf⟩

/-- The texts of the words of a class. -/
theorem IsLexical.text {w : Word} (h : w.IsLexical) :
    (w.kind = .identifier → IsName w.text) ∧ (w.kind = .string → IsQuotable w.text) ∧
      (w.kind = .comparison → w.text ∈ ["==", "!=", "<", ">", "<=", ">="]) := by
  cases h with
  | keyword h =>
    have hne : ∀ e ∈ Lexeme.keywords,
        e.2 ≠ .identifier ∧ e.2 ≠ .string ∧ e.2 ≠ .comparison := by decide
    obtain ⟨hi, hs, hc⟩ := hne _ h
    exact ⟨fun h => absurd h hi, fun h => absurd h hs, fun h => absurd h hc⟩
  | name h => exact ⟨fun _ => h, nofun, nofun⟩
  | string h => exact ⟨nofun, fun _ => h, nofun⟩
  | mark h =>
    unfold Lexeme.punctuation? at h
    split at h <;> cases h <;> exact ⟨nofun, nofun, nofun⟩
  | comparison h => exact ⟨nofun, nofun, fun _ => h⟩
  | number | equals | arithmetic => exact ⟨nofun, nofun, nofun⟩

/-! ## Lines of words -/

/-- Words with a space between any two. -/
def line (ws : List Word) : String := " ".intercalate (ws.map spelling)

theorem scan_skip {skip : Nat} {p : Position} {cs rest : List Char} (h : cs.length = skip) :
    Lexeme.scan skip p (cs ++ rest) = Lexeme.scan 0 (cs.foldl Position.advance p) rest := by
  induction cs generalizing skip p with
  | nil =>
    subst h
    rfl
  | cons c cs ih =>
    subst h
    rw [List.cons_append, List.length_cons, Lexeme.scan, ih rfl]
    rfl

/-- A word that has been scanned comes before the words after it. -/
theorem IsLexical.scan {w : Word} (h : w.IsLexical) {rest : List Char} (hrest : Ends rest)
    (p : Position) {tokens : List Token} {final : Position}
    (htokens : Lexeme.scan 0 (w.spelling.toList.foldl Position.advance p) rest =
      .ok (tokens, final)) :
    Lexeme.scan 0 p (w.spelling.toList ++ rest) = .ok (⟨w.kind, w.text, p⟩ :: tokens, final) := by
  obtain ⟨c, tail, hs, hf⟩ := h.scansAs rest hrest
  rw [hs] at htokens ⊢
  rw [List.cons_append, Lexeme.scan, hf]
  dsimp only
  rw [scan_skip rfl, show tail.foldl Position.advance (p.advance c) =
    (c :: tail).foldl Position.advance p from rfl, htokens]

theorem scan_line {ws : List Word} (h : ∀ w ∈ ws, w.IsLexical) (p : Position) :
    ∃ tokens final, Lexeme.scan 0 p (line ws).toList = .ok (tokens, final) ∧
      tokens.map Token.word = ws := by
  induction ws generalizing p with
  | nil => exact ⟨[], p, rfl, rfl⟩
  | cons w ws ih =>
    obtain ⟨hw, hws⟩ := List.forall_mem_cons.mp h
    cases ws with
    | nil =>
      have hscan := hw.scan (.inl rfl) p rfl
      rw [List.append_nil] at hscan
      exact ⟨_, _, by simpa [line] using hscan, rfl⟩
    | cons next ws =>
      obtain ⟨tokens, final, hscan, hmap⟩ :=
        ih hws ((w.spelling.toList.foldl Position.advance p).advance ' ')
      have hspace : Lexeme.scan 0 (w.spelling.toList.foldl Position.advance p)
          (' ' :: (line (next :: ws)).toList) = .ok (tokens, final) := hscan
      have hall := hw.scan (.inr ⟨_, rfl⟩) p hspace
      refine ⟨⟨w.kind, w.text, p⟩ :: tokens, final, ?_, congrArg (w :: ·) hmap⟩
      rw [line, List.map_cons, List.map_cons, String.intercalate_cons_cons, String.toList_append,
        String.toList_append, List.append_assoc]
      exact hall

end Word

end ScriptLang
