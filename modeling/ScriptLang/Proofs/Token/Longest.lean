import ScriptLang.Proofs.Token.Words

/-!
# The longest word

What the scanner takes at a place, without its order of tests: the longest word of the language that
the text starts with. A word is not made longer by a blank or a slash that comes after it, because
none of these belongs to a word of more than one character, strings apart, and a string ends with
its quote whatever comes next.

Results:
* `first_token_iff`: the scanner makes a token of the longest word, unless a comment starts there;
* `Longest.append_separator`: what comes behind a blank or a slash does not change the longest word;
* `noLexeme_iff`: where no word starts.
-/
namespace ScriptLang

/-- A comment starts here. -/
def StartsComment (cs : List Char) : Prop := ∃ more, cs = '/' :: '/' :: more

/-- The text starts with the word, and with no longer one. -/
structure Longest (w : Word) (cs : List Char) : Prop where
  lexical : w.IsLexical
  begins : w.spelling.toList <+: cs
  longest : ∀ v : Word, v.IsLexical → v.spelling.toList <+: cs →
    v.spelling.toList.length ≤ w.spelling.toList.length

/-! ## What the scanner looks at -/

/-- The character starts neither layout nor a word. -/
structure StartsNothing (c : Char) : Prop where
  blank : Lexeme.isBlank c = false
  mark : Lexeme.punctuation? c = none
  sign : c ∉ ['+', '-', '*', '/', '=', '<', '>', '!', '"']
  digit : IntText.isDigit c = false
  letter : Lexeme.isNameStart c = false

/-- The lexeme that starts at a character, by the class of the character. -/
inductive StartsWith (c : Char) (rest : List Char) : Lexeme → Prop
  | blank : Lexeme.isBlank c = true → StartsWith c rest (.layout 0)
  | mark {kind : TokenKind} : Lexeme.punctuation? c = some kind →
      StartsWith c rest (.token kind (String.ofList [c]) 0)
  | comment : StartsComment (c :: rest) →
      StartsWith c rest (.layout (rest.takeWhile (· != '\n')).length)
  | arithmetic : c ∈ ['+', '-', '*', '/'] → ¬ StartsComment (c :: rest) →
      StartsWith c rest (.token .binaryOperator (String.ofList [c]) 0)
  | operator : c ∈ ['=', '<', '>', '!'] → StartsWith c rest (Lexeme.operator c rest)
  | string : c = '"' → StartsWith c rest (Lexeme.string rest)
  | number : IntText.isDigit c = true → StartsWith c rest (Lexeme.number c rest)
  | word : Lexeme.isNameStart c = true → StartsWith c rest (Lexeme.word c rest)
  | nothing : StartsNothing c → StartsWith c rest .unexpected

theorem startsComment_cons {c : Char} {rest : List Char} :
    StartsComment (c :: rest) ↔ (c == '/' && rest.head? == some '/') = true := by
  cases rest <;> simp [StartsComment]

theorem startsWith_first (c : Char) (rest : List Char) :
    StartsWith c rest (Lexeme.first c rest) := by
  unfold Lexeme.first
  split
  · next hc => exact .blank hc
  · next hblank =>
    split
    · next hc => exact .mark hc
    · next hmark =>
      split
      · next hc => exact .comment (startsComment_cons.mpr hc)
      · next hcomment =>
        have hcomment' : ¬ StartsComment (c :: rest) := fun h => hcomment (startsComment_cons.mp h)
        split
        · next hc => exact .arithmetic (by simpa [or_assoc] using hc) hcomment'
        · next hsign =>
          split
          · next hc => exact .operator (by simpa [or_assoc] using hc)
          · next hcompare =>
            split
            · next hc => exact .string (by simpa using hc)
            · next hquote =>
              split
              · next hc => exact .number hc
              · next hdigit =>
                split
                · next hc => exact .word hc
                · next hletter =>
                  exact .nothing {
                    blank := by simpa using hblank
                    mark := hmark
                    sign := by simp_all
                    digit := by simpa using hdigit
                    letter := by simpa using hletter }

/-! ## Scanned words -/

section Scanned

variable {c : Char} {rest : List Char} {kind : TokenKind} {text : String} {extra : Nat}

/-- A token is written at its place, and nothing else is taken for it. -/
def Written (c : Char) (rest : List Char) (w : Word) (extra : Nat) : Prop :=
  ∃ tail, c :: tail = w.spelling.toList ∧ tail <+: rest ∧ tail.length = extra

theorem spelling_of_ne {kind : TokenKind} (h : kind ≠ .string) (text : String) :
    (Word.mk kind text).spelling = text := if_neg h

theorem written_one {kind : TokenKind} (h : kind ≠ .string) :
    Written c rest ⟨kind, String.ofList [c]⟩ 0 :=
  ⟨[], by rw [spelling_of_ne h, String.toList_ofList], List.nil_prefix, rfl⟩

theorem written_of_operator (h : Lexeme.operator c rest = .token kind text extra) :
    Written c rest ⟨kind, text⟩ extra := by
  unfold Lexeme.operator at h
  split at h
  · next heq =>
    cases h
    refine ⟨['='], by rw [spelling_of_ne (by decide), String.toList_ofList], ?_, rfl⟩
    cases rest with
    | nil => cases heq
    | cons d rest => simpa [eq_comm] using heq
  · split at h
    · next hc =>
      cases h
      subst hc
      exact written_one (by decide)
    · split at h
      · cases h
      · cases h
        exact written_one (by decide)

theorem written_of_string (h : Lexeme.string rest = .token kind text extra) :
    Written '"' rest ⟨kind, text⟩ extra := by
  unfold Lexeme.string at h
  dsimp only at h
  split at h
  · cases h
  · next hlen =>
    cases h
    have happend := List.takeWhile_append_dropWhile (p := (· != '"')) (l := rest)
    refine ⟨rest.takeWhile (· != '"') ++ ['"'], ?_, ?_, by simp⟩
    · simp [Word.spelling]
    · cases hdrop : rest.dropWhile (· != '"') with
      | nil =>
        rw [hdrop, List.append_nil] at happend
        exact absurd (congrArg List.length happend) hlen
      | cons d more =>
        have hd : d = '"' := by
          have := List.head?_dropWhile_not (· != '"') rest
          simpa [hdrop] using this
        rw [hdrop, hd] at happend
        exact ⟨more, by simpa using happend⟩

theorem written_of_number (h : Lexeme.number c rest = .token kind text extra) :
    Written c rest ⟨kind, text⟩ extra := by
  unfold Lexeme.number at h
  dsimp only at h
  cases h
  refine ⟨_, by rw [spelling_of_ne (by decide), String.toList_ofList]; rfl, ?_, rfl⟩
  have hwhole : rest.takeWhile IntText.isDigit <+: rest := List.takeWhile_prefix _
  conv => rhs; rw [← List.prefix_iff_eq_append.mp hwhole]
  rw [List.prefix_append_right_inj]
  split
  · next after hdrop =>
    split
    · exact List.nil_prefix
    · rw [hdrop]
      exact List.cons_prefix_cons.mpr ⟨rfl, List.takeWhile_prefix _⟩
  · exact List.nil_prefix

theorem wordKind_ne_string (word : String) : Lexeme.wordKind word ≠ .string := by
  have hne : ∀ e ∈ Lexeme.keywords, e.2 ≠ .string := by decide
  rcases Word.wordKind_cases word with h | ⟨h, -⟩
  · exact hne _ h
  · rw [h]
    decide

theorem written_of_word (h : Lexeme.word c rest = .token kind text extra) :
    Written c rest ⟨kind, text⟩ extra := by
  unfold Lexeme.word at h
  cases h
  refine ⟨rest.takeWhile Lexeme.isNamePart, ?_, List.takeWhile_prefix _, rfl⟩
  rw [spelling_of_ne (wordKind_ne_string _), String.toList_ofList]

/-- The scanner makes a token of what is written at its place. -/
theorem written_of_first (h : Lexeme.first c rest = .token kind text extra) :
    Written c rest ⟨kind, text⟩ extra := by
  have hview := startsWith_first c rest
  rw [h] at hview
  generalize hl : Lexeme.token kind text extra = lexeme at hview
  cases hview with
  | blank | comment | nothing => cases hl
  | mark hmark =>
    cases hl
    unfold Lexeme.punctuation? at hmark
    split at hmark <;> cases hmark <;> exact written_one (by decide)
  | arithmetic =>
    cases hl
    exact written_one (by decide)
  | operator => exact written_of_operator hl.symm
  | string hc =>
    subst hc
    exact written_of_string hl.symm
  | number => exact written_of_number hl.symm
  | word => exact written_of_word hl.symm

end Scanned

/-! ## No longer words -/

section Munch

variable {c : Char} {cs rest : List Char}

/-- From this text the scanner takes a token of at least this length. -/
def TakesAtLeast (n : Nat) (cs : List Char) : Prop :=
  ∃ c rest kind text extra, cs = c :: rest ∧
    Lexeme.first c rest = .token kind text extra ∧ n ≤ extra + 1

theorem takesAtLeast_of_one {kind : TokenKind} {text : String} {extra : Nat}
    (h : Lexeme.first c rest = .token kind text extra) : TakesAtLeast 1 (c :: rest) :=
  ⟨c, rest, kind, text, extra, rfl, h, Nat.le_add_left _ _⟩

theorem first_letter (hc : Lexeme.isNameStart c = true) (rest : List Char) :
    Lexeme.first c rest = Lexeme.word c rest := by
  have hpart : Lexeme.isNamePart c = true := by rw [Lexeme.isNamePart, hc, Bool.true_or]
  rw [Word.first_of_ne (Word.ne_of_isNamePart hpart), Word.not_isDigit_of_isNameStart hc,
    if_neg Bool.false_ne_true, if_pos hc]

theorem takesAtLeast_word (hc : Lexeme.isNameStart c = true)
    (hcs : ∀ d ∈ cs, Lexeme.isNamePart d = true) (rest : List Char) :
    TakesAtLeast (c :: cs).length (c :: cs ++ rest) := by
  refine ⟨c, cs ++ rest, _, _, _, rfl, (first_letter hc _).trans rfl, ?_⟩
  rw [List.takeWhile_append_of_pos hcs, List.length_append, List.length_cons]
  omega

theorem takesAtLeast_whole {ds : List Char} (h : Grammar.Digits ds) (rest : List Char) :
    TakesAtLeast ds.length (ds ++ rest) := by
  obtain ⟨c, cs, rfl, hc⟩ := h.cons
  have hcs : ∀ d ∈ cs, IntText.isDigit d = true := (List.forall_mem_cons.mp h.2).2
  refine ⟨c, cs ++ rest, _, _, _, rfl, (Word.first_digit hc _).trans rfl, ?_⟩
  rw [List.takeWhile_append_of_pos hcs, List.length_append, List.length_append, List.length_cons]
  omega

theorem takesAtLeast_decimal {whole fraction : List Char} (hw : Grammar.Digits whole)
    (hf : Grammar.Digits fraction) (rest : List Char) :
    TakesAtLeast (whole ++ '.' :: fraction).length (whole ++ '.' :: fraction ++ rest) := by
  obtain ⟨c, cs, rfl, hc⟩ := hw.cons
  have hcs : ∀ d ∈ cs, IntText.isDigit d = true := (List.forall_mem_cons.mp hw.2).2
  have htake : (cs ++ '.' :: (fraction ++ rest)).takeWhile IntText.isDigit = cs := by
    rw [List.takeWhile_append_of_pos hcs]
    simp [show IntText.isDigit '.' = false from by decide]
  have hdigits : ((fraction ++ rest).takeWhile IntText.isDigit).isEmpty = false := by
    rw [List.takeWhile_append_of_pos hf.2]
    simpa using fun h => absurd h hf.1
  have htext : c :: cs ++ '.' :: fraction ++ rest =
      c :: (cs ++ '.' :: (fraction ++ rest)) := by simp
  refine ⟨c, cs ++ '.' :: (fraction ++ rest), _, _, _, htext, (Word.first_digit hc _).trans rfl, ?_⟩
  simp only [htake, List.drop_left, hdigits]
  rw [if_neg Bool.false_ne_true, List.takeWhile_append_of_pos hf.2]
  simp only [List.length_append, List.length_cons]
  omega

theorem first_string {text : String} (h : IsQuotable text) (rest : List Char) :
    Lexeme.first '"' (text.toList ++ '"' :: rest) =
      .token .string text (text.toList.length + 1) := by
  have hinside : ∀ d ∈ text.toList, (d != '"') = true :=
    fun d hd => bne_iff_ne.mpr fun heq => h (heq ▸ hd)
  have hbody : (text.toList ++ '"' :: rest).takeWhile (· != '"') = text.toList := by
    rw [List.takeWhile_append_of_pos hinside]
    simp
  show Lexeme.string _ = _
  rw [Lexeme.string, hbody]
  simp [String.ofList_toList]

theorem first_mark {kind : TokenKind} (h : Lexeme.punctuation? c = some kind) (rest : List Char) :
    Lexeme.first c rest = .token kind (String.ofList [c]) 0 := by
  unfold Lexeme.punctuation? at h
  split at h <;> cases h <;> rfl

/-- The operators of one character are words, a lone `!` excepted. -/
theorem takesAtLeast_operator (hc : c ∈ ['=', '<', '>']) (rest : List Char) :
    TakesAtLeast 1 (c :: rest) := by
  have hfirst : Lexeme.first c rest = Lexeme.operator c rest := by
    simp only [List.mem_cons, List.not_mem_nil, or_false] at hc
    rcases hc with rfl | rfl | rfl <;> rfl
  have hmark : c ≠ '!' := by
    rintro rfl
    exact absurd hc (by decide)
  rw [Lexeme.operator, if_neg hmark] at hfirst
  split at hfirst
  · exact takesAtLeast_of_one hfirst
  · split at hfirst <;> exact takesAtLeast_of_one hfirst

theorem first_slash (h : ¬ StartsComment ('/' :: rest)) :
    Lexeme.first '/' rest = .token .binaryOperator "/" 0 := by
  rw [startsComment_cons, Bool.not_eq_true] at h
  show (if ('/' == '/' && rest.head? == some '/') = true then _ else _) = _
  rw [h]
  rfl

/-- No word of the language that the text starts with is longer than what the scanner takes. -/
theorem takesAtLeast_of_lexical {v : Word} (hv : v.IsLexical)
    (hno : ¬ StartsComment (v.spelling.toList ++ rest)) :
    TakesAtLeast v.spelling.toList.length (v.spelling.toList ++ rest) := by
  cases hv with
  | @keyword text kind h =>
    have hall : ∀ e ∈ Lexeme.keywords, e.2 ≠ .string ∧
        e.1.toList.head?.any Lexeme.isNameStart = true ∧
        e.1.toList.tail.all Lexeme.isNamePart = true := by decide
    obtain ⟨hk, hhead, htail⟩ := hall _ h
    rw [spelling_of_ne hk]
    dsimp only at hhead htail
    cases hl : text.toList with
    | nil => simp [hl] at hhead
    | cons c cs =>
      rw [hl] at hhead htail
      exact takesAtLeast_word (by simpa using hhead) (by simpa using htail) rest
  | name h =>
    obtain ⟨⟨c, cs, rfl, hc, hcs⟩, -⟩ := h
    rw [spelling_of_ne (by decide), String.toList_ofList]
    exact takesAtLeast_word hc hcs rest
  | number h =>
    rw [spelling_of_ne (by decide)]
    cases h with
    | integer hd _ | long hd _ =>
      rw [String.toList_ofList]
      exact takesAtLeast_whole hd rest
    | decimal hw hf =>
      rw [String.toList_ofList]
      exact takesAtLeast_decimal hw hf rest
  | @string text h =>
    have hspelling : (Word.mk .string text).spelling.toList ++ rest =
        '"' :: (text.toList ++ '"' :: rest) := by simp [Word.spelling]
    rw [hspelling]
    exact ⟨_, _, _, _, _, rfl, first_string h rest, by simp [Word.spelling]⟩
  | @mark c kind h =>
    have hk : kind ≠ .string := by
      unfold Lexeme.punctuation? at h
      split at h <;> cases h <;> decide
    rw [spelling_of_ne hk, String.toList_ofList]
    exact takesAtLeast_of_one (first_mark h rest)
  | equals => exact takesAtLeast_operator (by decide) rest
  | arithmetic h =>
    rw [spelling_of_ne (by decide)] at hno ⊢
    simp only [List.mem_cons, List.not_mem_nil, or_false] at h
    rcases h with rfl | rfl | rfl | rfl
    · exact ⟨_, _, _, _, _, rfl, rfl, by decide⟩
    · exact ⟨_, _, _, _, _, rfl, rfl, by decide⟩
    · exact ⟨_, _, _, _, _, rfl, rfl, by decide⟩
    · exact takesAtLeast_of_one (first_slash hno)
  | comparison h =>
    rw [spelling_of_ne (by decide)]
    simp only [List.mem_cons, List.not_mem_nil, or_false] at h
    rcases h with rfl | rfl | rfl | rfl | rfl | rfl
    · exact ⟨_, _, _, _, _, rfl, rfl, by decide⟩
    · exact ⟨_, _, _, _, _, rfl, rfl, by decide⟩
    · exact takesAtLeast_operator (by decide) rest
    · exact takesAtLeast_operator (by decide) rest
    · exact ⟨_, _, _, _, _, rfl, rfl, by decide⟩
    · exact ⟨_, _, _, _, _, rfl, rfl, by decide⟩

end Munch

/-! ## The longest word -/

/-- A word is known by how it is written. -/
theorem Word.IsLexical.eq_of_spelling {v w : Word} (hv : v.IsLexical) (hw : w.IsLexical)
    (h : v.spelling.toList = w.spelling.toList) : v = w := by
  obtain ⟨c, tail, hs, hv⟩ := hv.scansAs [] (.inl rfl)
  obtain ⟨d, tail', hs', hw⟩ := hw.scansAs [] (.inl rfl)
  obtain ⟨rfl, rfl⟩ := List.cons.inj (hs.symm.trans (h.trans hs'))
  obtain ⟨hkind, htext, -⟩ := Lexeme.token.inj (hv.symm.trans hw)
  cases v
  cases w
  cases hkind
  cases htext
  rfl

namespace Longest

variable {v w : Word} {c : Char} {cs rest : List Char}

theorem unique (h : Longest v cs) (h' : Longest w cs) : v = w := by
  have hlength := Nat.le_antisymm (h'.longest v h.lexical h.begins)
    (h.longest w h'.lexical h'.begins)
  have hbegins := List.prefix_of_prefix_length_le h.begins h'.begins (Nat.le_of_eq hlength)
  exact h.lexical.eq_of_spelling h'.lexical (hbegins.eq_of_length hlength)

end Longest

theorem not_startsComment_of_token {c : Char} {rest : List Char} {kind : TokenKind} {text : String}
    {extra : Nat} (h : Lexeme.first c rest = .token kind text extra) :
    ¬ StartsComment (c :: rest) := by
  rintro ⟨more, heq⟩
  obtain ⟨rfl, rfl⟩ := List.cons.inj heq
  cases h

theorem longest_of_first {c : Char} {rest : List Char} {kind : TokenKind} {text : String}
    {extra : Nat} (h : Lexeme.first c rest = .token kind text extra) :
    Longest ⟨kind, text⟩ (c :: rest) ∧ (Word.mk kind text).spelling.toList.length = extra + 1 := by
  obtain ⟨tail, hspelling, htail, hlength⟩ := written_of_first h
  have hlength' : (Word.mk kind text).spelling.toList.length = extra + 1 := by
    rw [← hspelling, List.length_cons, hlength]
  refine ⟨⟨Word.isLexical_first h, ?_, fun v hv hbegins => ?_⟩, hlength'⟩
  · rw [← hspelling]
    exact List.cons_prefix_cons.mpr ⟨rfl, htail⟩
  · obtain ⟨more, hmore⟩ := hbegins
    have hno : ¬ StartsComment (v.spelling.toList ++ more) :=
      hmore ▸ not_startsComment_of_token h
    obtain ⟨c', rest', kind', text', extra', heq, hfirst, hle⟩ := takesAtLeast_of_lexical hv hno
    obtain ⟨rfl, rfl⟩ := List.cons.inj (hmore.symm.trans heq)
    obtain ⟨-, -, rfl⟩ := Lexeme.token.inj (h.symm.trans hfirst)
    rwa [hlength']

/-- The scanner makes a token of the longest word that starts at its place, unless a comment does.
-/
theorem first_token_iff {c : Char} {rest : List Char} {w : Word} {extra : Nat} :
    Lexeme.first c rest = .token w.kind w.text extra ↔
      ¬ StartsComment (c :: rest) ∧ Longest w (c :: rest) ∧
        w.spelling.toList.length = extra + 1 := by
  constructor
  · exact fun h => ⟨not_startsComment_of_token h, longest_of_first h⟩
  · rintro ⟨hno, hw, hlength⟩
    obtain ⟨more, hmore⟩ := hw.begins
    obtain ⟨c', rest', kind, text, extra', heq, hfirst, -⟩ :=
      takesAtLeast_of_lexical hw.lexical (hmore ▸ hno)
    obtain ⟨rfl, rfl⟩ := List.cons.inj (hmore.symm.trans heq)
    obtain ⟨hlongest, hlength'⟩ := longest_of_first hfirst
    obtain rfl := hw.unique hlongest
    obtain rfl : extra = extra' := Nat.succ.inj (hlength.symm.trans hlength')
    exact hfirst

/-! ## What comes behind a word -/

/-- The character ends every word before it. -/
def Separates (d : Char) : Prop := Lexeme.isBlank d = true ∨ d = '/'

theorem not_separates_of_isNamePart {d : Char} (h : Lexeme.isNamePart d = true) :
    ¬ Separates d := by
  have hne := Word.ne_of_isNamePart h
  rintro (hblank | rfl)
  · simp only [Lexeme.isBlank, Bool.or_eq_true, beq_iff_eq] at hblank
    rcases hblank with ((rfl | rfl) | rfl) | rfl <;> exact hne _ (by decide) rfl
  · exact hne '/' (by decide) rfl

theorem isNamePart_of_isDigit {d : Char} (h : IntText.isDigit d = true) :
    Lexeme.isNamePart d = true := by
  rw [Lexeme.isNamePart, h, Bool.or_true]

instance (d : Char) : Decidable (Separates d) := inferInstanceAs (Decidable (_ ∨ _))

namespace Word.IsLexical

/-- Only strings and words of one character hold a blank or a slash. -/
theorem not_separates {w : Word} (h : w.IsLexical) (hk : w.kind ≠ .string)
    (hlength : w.spelling.toList.length ≠ 1) : ∀ d ∈ w.spelling.toList, ¬ Separates d := by
  rw [spelling, if_neg hk] at hlength ⊢
  cases h with
  | keyword h =>
    have hall : ∀ e ∈ Lexeme.keywords, e.1.toList.all (¬ Separates ·) = true := by decide
    simpa using hall _ h
  | name h =>
    obtain ⟨⟨c, cs, rfl, hc, hcs⟩, -⟩ := h
    rw [String.toList_ofList]
    refine List.forall_mem_cons.mpr ⟨not_separates_of_isNamePart ?_, fun d hd => ?_⟩
    · rw [Lexeme.isNamePart, hc, Bool.true_or]
    · exact not_separates_of_isNamePart (hcs d hd)
  | number h =>
    have hdigits : ∀ {ds}, Grammar.Digits ds → ∀ d ∈ ds, ¬ Separates d := fun hds d hd =>
      not_separates_of_isNamePart (isNamePart_of_isDigit (hds.2 d hd))
    cases h with
    | integer hd _ | long hd _ =>
      rw [String.toList_ofList]
      exact hdigits hd
    | decimal hw hf =>
      rw [String.toList_ofList]
      refine List.forall_mem_append.mpr ⟨hdigits hw, List.forall_mem_cons.mpr ⟨?_, hdigits hf⟩⟩
      decide
  | string => exact absurd rfl hk
  | mark =>
    rw [String.toList_ofList] at hlength
    exact absurd rfl hlength
  | equals => exact absurd (by decide) hlength
  | arithmetic h =>
    have hone : ∀ text ∈ ["+", "-", "*", "/"], text.toList.length = 1 := by decide
    exact absurd (hone _ h) hlength
  | comparison h =>
    have hall : ∀ text ∈ ["==", "!=", "<", ">", "<=", ">="],
        text.toList.all (¬ Separates ·) = true := by decide
    simpa using hall _ h

/-- What starts with a quote is a string. -/
theorem kind_of_quote {w : Word} (h : w.IsLexical) {cs : List Char}
    (hs : w.spelling.toList = '"' :: cs) : w.kind = .string := by
  obtain ⟨c, tail, hs', hf⟩ := h.scansAs [] (.inl rfl)
  obtain ⟨rfl, -⟩ := List.cons.inj (hs'.symm.trans hs)
  have hstring : Lexeme.string (tail ++ []) = .token w.kind w.text tail.length := hf
  unfold Lexeme.string at hstring
  dsimp only at hstring
  split at hstring
  · cases hstring
  · exact (Lexeme.token.inj hstring).1.symm

theorem spelling_ne_nil {w : Word} (h : w.IsLexical) : w.spelling.toList ≠ [] := by
  obtain ⟨c, tail, hs, -⟩ := h.scansAs [] (.inl rfl)
  rw [hs]
  exact List.cons_ne_nil _ _

end Word.IsLexical

namespace Longest

variable {w : Word} {d : Char} {cs more : List Char}

/-- A string ends with its quote, whatever comes behind it. -/
theorem of_string (h : w.IsLexical) (hk : w.kind = .string) (rest : List Char) :
    Longest w (w.spelling.toList ++ rest) := by
  obtain ⟨kind, text⟩ := w
  cases hk
  have hspelling : (Word.mk .string text).spelling.toList ++ rest =
      '"' :: (text.toList ++ '"' :: rest) := by simp [Word.spelling]
  rw [hspelling]
  exact (longest_of_first (first_string (h.text.2.1 rfl) rest)).1

theorem of_lexical (h : w.IsLexical) : Longest w w.spelling.toList :=
  ⟨h, List.prefix_rfl, fun _ _ hbegins => hbegins.length_le⟩

/-- What comes behind a blank or a slash does not make the word longer. -/
theorem append_separator (h : Longest w cs) (hd : Separates d) (more : List Char) :
    Longest w (cs ++ d :: more) := by
  obtain ⟨rest, rfl⟩ := h.begins
  by_cases hk : w.kind = .string
  · rw [List.append_assoc]
    exact of_string h.lexical hk _
  refine ⟨h.lexical, h.begins.trans (List.prefix_append _ _), fun v hv hbegins => ?_⟩
  rcases Nat.lt_or_ge (w.spelling.toList ++ rest).length v.spelling.toList.length with hlt | hle
  · -- a longer word holds the separator, so it is a string, and the shorter one is as well
    exfalso
    have hone : w.spelling.toList ++ rest ++ [d] <+: w.spelling.toList ++ rest ++ d :: more :=
      (List.prefix_append_right_inj _).mpr (List.cons_prefix_cons.mpr ⟨rfl, List.nil_prefix⟩)
    have hseparator : w.spelling.toList ++ rest ++ [d] <+: v.spelling.toList := by
      refine List.prefix_of_prefix_length_le hone hbegins ?_
      rwa [List.length_append]
    obtain ⟨c, tail, hc⟩ := List.exists_cons_of_ne_nil h.lexical.spelling_ne_nil
    have hv1 : v.spelling.toList.length ≠ 1 := by
      rw [hc] at hlt
      simp at hlt
      omega
    have hmem : d ∈ v.spelling.toList := hseparator.subset (by simp)
    have hvk : v.kind = .string := by
      by_contra hvk
      exact hv.not_separates hvk hv1 d hmem hd
    obtain ⟨kind, text⟩ := v
    cases hvk
    have hquote : (Word.mk .string text).spelling.toList = '"' :: (text.toList ++ ['"']) := by
      simp [Word.spelling]
    rw [hquote, hc] at hseparator
    obtain rfl : c = '"' := (List.cons_prefix_cons.mp hseparator).1
    exact hk (h.lexical.kind_of_quote hc)
  · exact h.longest v hv (List.prefix_of_prefix_length_le hbegins (List.prefix_append _ _) hle)

end Longest

theorem startsComment_of_append {cs more : List Char} {d : Char} (hcs : cs ≠ []) (hd : d ≠ '/')
    (h : StartsComment (cs ++ d :: more)) : StartsComment cs := by
  obtain ⟨rest, heq⟩ := h
  match cs, hcs with
  | [c], _ => exact absurd (List.cons.inj (List.cons.inj heq).2).1 hd
  | c :: c' :: cs, _ =>
    obtain ⟨hc, heq⟩ := List.cons.inj heq
    obtain ⟨hc', -⟩ := List.cons.inj heq
    exact ⟨cs, by rw [hc, hc']⟩

/-! ## No word -/

/-- Neither layout nor a word starts at the character. A comment need not be named, because the
slash that it starts with is a word. -/
structure NoLexeme (c : Char) (rest : List Char) : Prop where
  blank : Lexeme.isBlank c = false
  word : ∀ v : Word, v.IsLexical → ¬ v.spelling.toList <+: c :: rest

/-- A character that starts nothing, an exclamation mark without an equals sign, or an opening quote
without a closing one. -/
inductive StandsAlone (c : Char) (rest : List Char) : Prop
  | character : StartsNothing c → StandsAlone c rest
  | exclamation : c = '!' → rest.head? ≠ some '=' → StandsAlone c rest
  | quote : c = '"' → '"' ∉ rest → StandsAlone c rest

/-- What the scanner sees where nothing starts. -/
def nothingAt (c : Char) : Lexeme := if c = '"' then .unterminatedString else .unexpected

theorem NoLexeme.standsAlone {c : Char} {rest : List Char} (h : NoLexeme c rest) :
    StandsAlone c rest := by
  have hno : ∀ kind text extra, Lexeme.first c rest ≠ .token kind text extra :=
    fun kind text extra hf =>
      h.word _ (longest_of_first hf).1.lexical (longest_of_first hf).1.begins
  have hview := startsWith_first c rest
  generalize Lexeme.first c rest = lexeme at hno hview
  cases hview with
  | blank hc => exact absurd (h.blank.symm.trans hc) Bool.false_ne_true
  | mark | arithmetic | number | word => exact absurd rfl (hno _ _ _)
  | comment hc =>
    obtain ⟨more, heq⟩ := hc
    have hslash : (Word.mk .binaryOperator "/").IsLexical := .arithmetic (by decide)
    refine absurd ?_ (h.word _ hslash)
    rw [heq]
    exact List.cons_prefix_cons.mpr ⟨rfl, List.nil_prefix⟩
  | operator hc =>
    unfold Lexeme.operator at hno
    split at hno
    · exact absurd rfl (hno _ _ _)
    · next heq =>
      split at hno
      · exact absurd rfl (hno _ _ _)
      · split at hno
        · next hc => exact .exclamation hc heq
        · exact absurd rfl (hno _ _ _)
  | string hc =>
    unfold Lexeme.string at hno
    dsimp only at hno
    split at hno
    · next hlength =>
      refine .quote hc fun hmem => ?_
      have hall := List.takeWhile_eq_self_iff.mp (List.takeWhile_prefix _ |>.eq_of_length hlength)
      exact absurd (hall _ hmem) (by decide)
    · exact absurd rfl (hno _ _ _)
  | nothing hc => exact .character hc

theorem StandsAlone.first {c : Char} {rest : List Char} (h : StandsAlone c rest) :
    Lexeme.first c rest = nothingAt c := by
  cases h with
  | character hc =>
    have hquote : c ≠ '"' := by
      rintro rfl
      exact hc.sign (by decide)
    have hsign : ∀ {signs : List Char}, c ∈ signs →
        signs ⊆ ['+', '-', '*', '/', '=', '<', '>', '!', '"'] → False :=
      fun hmem hsub => hc.sign (hsub hmem)
    rw [nothingAt, if_neg hquote]
    have hview := startsWith_first c rest
    generalize Lexeme.first c rest = lexeme at hview ⊢
    cases hview with
    | blank h => exact absurd (hc.blank.symm.trans h) Bool.false_ne_true
    | mark h => cases hc.mark.symm.trans h
    | comment h =>
      obtain ⟨more, heq⟩ := h
      exact (hsign (List.mem_singleton.mpr (List.cons.inj heq).1) (by decide)).elim
    | arithmetic h => exact (hsign h (by decide)).elim
    | operator h => exact (hsign h (by decide)).elim
    | string h => exact absurd h hquote
    | number h => exact absurd (hc.digit.symm.trans h) Bool.false_ne_true
    | word h => exact absurd (hc.letter.symm.trans h) Bool.false_ne_true
    | nothing => rfl
  | exclamation hc hne =>
    subst hc
    show Lexeme.operator '!' rest = _
    rw [Lexeme.operator, if_neg hne]
    rfl
  | quote hc hno =>
    subst hc
    have hbody : rest.takeWhile (· != '"') = rest :=
      List.takeWhile_eq_self_iff.mpr fun d hd => bne_iff_ne.mpr fun heq => hno (heq ▸ hd)
    show Lexeme.string rest = _
    rw [Lexeme.string, hbody]
    exact if_pos rfl

theorem noLexeme_of_first {c : Char} {rest : List Char}
    (h : Lexeme.first c rest = nothingAt c) : NoLexeme c rest := by
  constructor
  · refine Bool.eq_false_iff.mpr fun hblank => ?_
    rw [Lexeme.first, if_pos hblank, nothingAt] at h
    split at h <;> cases h
  · rintro v hv ⟨more, hmore⟩
    by_cases hcomment : StartsComment (c :: rest)
    · obtain ⟨more, heq⟩ := hcomment
      obtain ⟨rfl, rfl⟩ := List.cons.inj heq
      cases h
    · obtain ⟨c', rest', kind, text, extra, heq, hfirst, -⟩ :=
        takesAtLeast_of_lexical hv (hmore ▸ hcomment)
      obtain ⟨rfl, rfl⟩ := List.cons.inj (hmore.symm.trans heq)
      rw [hfirst, nothingAt] at h
      split at h <;> cases h

/-- Where neither layout nor a word starts. -/
theorem noLexeme_iff {c : Char} {rest : List Char} : NoLexeme c rest ↔ StandsAlone c rest :=
  ⟨NoLexeme.standsAlone, fun h => noLexeme_of_first h.first⟩

end ScriptLang
