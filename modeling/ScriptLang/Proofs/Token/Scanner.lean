import ScriptLang.Proofs.Token.Layout
import ScriptLang.Proofs.Token.Longest

/-!
# The scanner step by step

The scanner as a relation: at each place it passes over a blank or a comment, and otherwise takes
the longest word. `Lexeme.scan`, which tests one character after another, makes the same steps; they
go on until the text is over or nothing starts at the next character.

Results:
* `scan_step`: what one step takes off the front of the text;
* `Scanning.scan`: what a run has found so far and what is left to scan;
* `ofSource_longest_match`: a text is scanned as the relation says, and an error names the place
  where no lexeme starts.
-/
namespace ScriptLang

/-! ## Places -/

/-- The place after a text, from the number of its line feeds and the length of its last line. -/
def Position.after (cs : List Char) : Position :=
  ⟨1 + cs.count '\n', 1 + (cs.reverse.takeWhile (· != '\n')).length⟩

theorem Position.after_concat (cs : List Char) (c : Char) :
    Position.after (cs ++ [c]) = (Position.after cs).advance c := by
  unfold Position.after Position.advance
  rw [List.reverse_concat, List.takeWhile_cons, List.count_append, List.count_singleton]
  by_cases hc : c = '\n'
  · simp [hc]
    omega
  · simp [hc]
    omega

theorem Position.after_append (before cs : List Char) :
    Position.after (before ++ cs) = cs.foldl Position.advance (Position.after before) := by
  induction cs generalizing before with
  | nil => rw [List.append_nil, List.foldl_nil]
  | cons c cs ih => rw [List.append_cons, ih, Position.after_concat, List.foldl_cons]

namespace Lexeme

/-! ## Steps -/

/-- What the scanner takes off the front of a text, and the word of it unless it is layout: a blank,
a comment up to the end of its line, or the longest word. -/
inductive Takes : List Char → Option Word → List Char → Prop
  | blank {c : Char} {rest : List Char} : isBlank c = true → Takes [c] none rest
  | comment {body rest : List Char} : '\n' ∉ body → EndsLine rest →
      Takes ('/' :: '/' :: body) none rest
  | word {w : Word} {rest : List Char} : ¬ StartsComment (w.spelling.toList ++ rest) →
      Longest w (w.spelling.toList ++ rest) → Takes w.spelling.toList (some w) rest

/-- The token of a word that stands after some text. -/
def found (before : List Char) (w : Option Word) : List Token :=
  (w.map fun w => ⟨w.kind, w.text, .after before⟩).toList

/-- The scanner of a source text comes to the place between `before` and `rest`, and has found some
tokens on the way. -/
inductive Scanning (source : List Char) : List Char → List Char → List Token → Prop
  | start : Scanning source [] source []
  | step {before piece rest : List Char} {tokens : List Token} {w : Option Word} :
      Scanning source before (piece ++ rest) tokens → Takes piece w rest →
      Scanning source (before ++ piece) rest (tokens ++ found before w)

/-- The tokens that were found come before those that are still to be found. -/
def prepend (tokens : List Token) (result : Except LexError (List Token × Position)) :
    Except LexError (List Token × Position) :=
  result.map fun r => (tokens ++ r.1, r.2)

theorem prepend_nil (result : Except LexError (List Token × Position)) :
    prepend [] result = result := by
  cases result <;> rfl

theorem prepend_append (ts us : List Token) (result : Except LexError (List Token × Position)) :
    prepend (ts ++ us) result = prepend ts (prepend us result) := by
  cases result with
  | error => rfl
  | ok r => simp [prepend, Except.map]

theorem scan_layout {c : Char} {tail rest : List Char}
    (h : first c (tail ++ rest) = .layout tail.length) (before : List Char) :
    scan 0 (.after before) (c :: tail ++ rest) = scan 0 (.after (before ++ c :: tail)) rest := by
  rw [List.cons_append, scan, h]
  dsimp only
  rw [Word.scan_skip rfl, Position.after_append]
  rfl

theorem scan_token {c : Char} {tail rest : List Char} {kind : TokenKind} {text : String}
    (h : first c (tail ++ rest) = .token kind text tail.length) (before : List Char) :
    scan 0 (.after before) (c :: tail ++ rest) =
      prepend [⟨kind, text, .after before⟩] (scan 0 (.after (before ++ c :: tail)) rest) := by
  rw [List.cons_append, scan, h]
  dsimp only
  rw [Word.scan_skip rfl, Position.after_append]
  show _ = prepend _ (scan 0 (tail.foldl Position.advance ((Position.after before).advance c)) rest)
  cases scan 0 (tail.foldl Position.advance ((Position.after before).advance c)) rest <;> rfl

theorem takeWhile_comment {body rest : List Char} (hbody : '\n' ∉ body) (hrest : EndsLine rest) :
    (body ++ rest).takeWhile (· != '\n') = body := by
  have inside : ∀ c ∈ body, (c != '\n') = true :=
    fun c hc => bne_iff_ne.mpr fun heq => hbody (heq ▸ hc)
  rw [List.takeWhile_append_of_pos inside]
  rcases hrest with rfl | ⟨more, rfl⟩ <;> simp

/-- One step of the scanner. -/
theorem scan_step {piece rest : List Char} {w : Option Word} (h : Takes piece w rest)
    (before : List Char) :
    scan 0 (.after before) (piece ++ rest) =
      prepend (found before w) (scan 0 (.after (before ++ piece)) rest) := by
  cases h with
  | @blank c _ hc =>
    have hf : first c ([] ++ rest) = .layout 0 := by rw [first, if_pos hc]
    rw [scan_layout hf]
    exact (prepend_nil _).symm
  | @comment body _ hbody hrest =>
    have hf : first '/' ('/' :: body ++ rest) = .layout ('/' :: body).length := by
      show Lexeme.layout (('/' :: (body ++ rest)).takeWhile (· != '\n')).length = _
      rw [List.takeWhile_cons_of_pos (by decide), takeWhile_comment hbody hrest]
    exact (scan_layout hf before).trans (prepend_nil _).symm
  | @word w _ hno hw =>
    obtain ⟨c, tail, hc⟩ := List.exists_cons_of_ne_nil hw.lexical.spelling_ne_nil
    rw [hc] at hno hw ⊢
    have hlength : w.spelling.toList.length = tail.length + 1 := by rw [hc, List.length_cons]
    exact scan_token (first_token_iff.mpr ⟨hno, hw, hlength⟩) before

/-- At the next character something is taken, or nothing starts there. -/
theorem takes_or_noLexeme (c : Char) (rest : List Char) :
    (∃ piece w after, c :: rest = piece ++ after ∧ piece ≠ [] ∧ Takes piece w after) ∨
      NoLexeme c rest := by
  by_cases hblank : isBlank c = true
  · exact .inl ⟨[c], none, rest, rfl, List.cons_ne_nil _ _, .blank hblank⟩
  by_cases hcomment : StartsComment (c :: rest)
  · obtain ⟨more, heq⟩ := hcomment
    refine .inl ⟨'/' :: '/' :: more.takeWhile (· != '\n'), none, more.dropWhile (· != '\n'), ?_,
      List.cons_ne_nil _ _, .comment ?_ ?_⟩
    · rw [heq, List.cons_append, List.cons_append, List.takeWhile_append_dropWhile]
    · exact fun hmem => absurd (List.mem_takeWhile_imp hmem) (by decide)
    · cases hdrop : more.dropWhile (· != '\n') with
      | nil => exact .inl rfl
      | cons d after =>
        refine .inr ⟨after, ?_⟩
        have hd := List.head?_dropWhile_not (· != '\n') more
        rw [hdrop] at hd
        simpa using hd
  by_cases hword : ∃ v : Word, v.IsLexical ∧ v.spelling.toList <+: c :: rest
  · obtain ⟨v, hv, more, hmore⟩ := hword
    obtain ⟨c', rest', kind, text, extra, heq, hf, -⟩ :=
      takesAtLeast_of_lexical hv (hmore ▸ hcomment)
    obtain ⟨rfl, rfl⟩ := List.cons.inj (hmore.symm.trans heq)
    have hlongest := (longest_of_first hf).1
    obtain ⟨after, hafter⟩ := hlongest.begins
    refine .inl ⟨_, some ⟨kind, text⟩, after, hafter.symm, hlongest.lexical.spelling_ne_nil, ?_⟩
    exact .word (hafter ▸ hcomment) (hafter ▸ hlongest)
  · exact .inr ⟨Bool.not_eq_true _ ▸ hblank, fun v hv hbegins => hword ⟨v, hv, hbegins⟩⟩

namespace Scanning

variable {source before rest : List Char} {tokens : List Token}

theorem source_eq (h : Scanning source before rest tokens) : source = before ++ rest := by
  induction h with
  | start => rfl
  | step _ _ ih => rw [ih, List.append_assoc]

/-- A run has found its tokens, and the rest of the text is still to be scanned. -/
theorem scan (h : Scanning source before rest tokens) :
    Lexeme.scan 0 .start source = prepend tokens (Lexeme.scan 0 (.after before) rest) := by
  induction h with
  | start => exact (prepend_nil _).symm
  | step _ htakes ih => rw [ih, scan_step htakes, ← prepend_append]

/-- From every place the scanner goes on until the text is over or nothing starts. -/
theorem exists_end (h : Scanning source before rest tokens) :
    ∃ before' rest' tokens', Scanning source before' rest' tokens' ∧
      (rest' = [] ∨ ∃ c more, rest' = c :: more ∧ NoLexeme c more) := by
  induction hn : rest.length using Nat.strongRecOn generalizing before rest tokens with
  | ind n ih =>
    cases rest with
    | nil => exact ⟨before, [], tokens, h, .inl rfl⟩
    | cons c more =>
      rcases takes_or_noLexeme c more with ⟨piece, w, after, heq, hne, htakes⟩ | hno
      · rw [heq] at h hn
        have hlt : after.length < n := by
          have := List.length_pos_iff.mpr hne
          rw [← hn, List.length_append]
          omega
        exact ih _ hlt (h.step htakes) rfl
      · exact ⟨before, _, tokens, h, .inr ⟨c, more, rfl, hno⟩⟩

end Scanning

end Lexeme

/-! ## Whole texts -/

/-- The error of a text of which the rest cannot be scanned from a character on. -/
def LexError.noLexeme (c : Char) (p : Position) : LexError :=
  if c = '"' then .unterminatedString p else .unexpected c p

def endOf (source : String) : Token := ⟨.endOfInput, "EOF", .after source.toList⟩

section Source

open Lexeme

variable {source : String} {before rest : List Char} {tokens : List Token}

theorem ofSource_of_scanning (h : Scanning source.toList source.toList [] tokens) :
    TokenStream.ofSource source = .ok ⟨tokens, endOf source⟩ := by
  have hscan : scan 0 .start source.toList = .ok (tokens, .after source.toList) := by
    rw [h.scan, scan]
    exact congrArg Except.ok (Prod.ext (List.append_nil tokens) rfl)
  rw [TokenStream.ofSource, hscan]
  rfl

theorem ofSource_of_noLexeme {c : Char} (h : Scanning source.toList before (c :: rest) tokens)
    (hno : NoLexeme c rest) :
    TokenStream.ofSource source = .error (.noLexeme c (.after before)) := by
  have hstop : scan 0 (.after before) (c :: rest) = .error (.noLexeme c (.after before)) := by
    rw [scan, hno.standsAlone.first, nothingAt, LexError.noLexeme]
    by_cases hc : c = '"'
    · rw [if_pos hc, if_pos hc]
    · rw [if_neg hc, if_neg hc]
  rw [TokenStream.ofSource, h.scan, hstop]
  rfl

/-- The scanner comes to the end of a text or to a place where nothing starts. -/
theorem scanning_ends (source : List Char) :
    (∃ tokens, Scanning source source [] tokens) ∨
      ∃ before c rest tokens, Scanning source before (c :: rest) tokens ∧ NoLexeme c rest := by
  obtain ⟨before, rest, tokens, h, rfl | ⟨c, more, rfl, hno⟩⟩ := Scanning.start.exists_end
  · have hsource : source = before := h.source_eq.trans (List.append_nil before)
    exact .inl ⟨tokens, hsource ▸ h⟩
  · exact .inr ⟨before, c, more, tokens, h, hno⟩

theorem scanning_of_ofSource {s : TokenStream} (h : TokenStream.ofSource source = .ok s) :
    Scanning source.toList source.toList [] s.tokens ∧ s.last = endOf source := by
  rcases scanning_ends source.toList with ⟨tokens, hscan⟩ | ⟨before, c, rest, tokens, hscan, hno⟩
  · cases h.symm.trans (ofSource_of_scanning hscan)
    exact ⟨hscan, rfl⟩
  · cases h.symm.trans (ofSource_of_noLexeme hscan hno)

theorem startsNothing_of_not_ascii {c : Char} (h : 128 ≤ c.toNat) : StartsNothing c := by
  constructor
  · refine Bool.eq_false_iff.mpr fun hblank => ?_
    simp only [isBlank, Bool.or_eq_true, beq_iff_eq] at hblank
    rcases hblank with ((rfl | rfl) | rfl) | rfl <;> exact absurd h (by decide)
  · cases hmark : punctuation? c with
    | none => rfl
    | some kind =>
      unfold punctuation? at hmark
      split at hmark <;> cases hmark <;> exact absurd h (by decide)
  · intro hsign
    have hall : ['+', '-', '*', '/', '=', '<', '>', '!', '"'].all (·.toNat < 128) = true := by decide
    have hlt : c.toNat < 128 := by simpa using List.all_eq_true.mp hall c hsign
    omega
  · refine Bool.eq_false_iff.mpr fun hdigit => ?_
    have := IntText.toNat_of_isDigit hdigit
    omega
  · refine Bool.eq_false_iff.mpr fun hletter => ?_
    simp only [isNameStart, Bool.or_eq_true, Bool.and_eq_true, beq_iff_eq, decide_eq_true_eq,
      Char.le_def, UInt32.le_iff_toNat_le] at hletter
    have hz : 'z'.val.toNat = 122 := rfl
    have hZ : 'Z'.val.toNat = 90 := rfl
    have hv : c.val.toNat = c.toNat := rfl
    rcases hletter with (rfl | hletter) | hletter
    · exact absurd h (by decide)
    · omega
    · omega

/-- A text is scanned by taking at each place a blank, a comment or else the longest word. It cannot
be scanned exactly when the scanner comes to a place where neither layout nor a word starts, that
is, to a character that starts nothing, to an exclamation mark without an equals sign or to a quote
without another; and the error names this place. -/
theorem ofSource_longest_match (source : String) :
    (∀ s, TokenStream.ofSource source = .ok s ↔
      Scanning source.toList source.toList [] s.tokens ∧ s.last = endOf source) ∧
    (∀ e, TokenStream.ofSource source = .error e ↔
      ∃ before c rest tokens, Scanning source.toList before (c :: rest) tokens ∧
        NoLexeme c rest ∧ e = .noLexeme c (.after before)) ∧
    (∀ c rest, NoLexeme c rest ↔ StandsAlone c rest) ∧
    (∀ c : Char, c = '.' ∨ 128 ≤ c.toNat → StartsNothing c) ∧
    ∀ c p, ∃ text, ∀ file, (LexError.noLexeme c p).message file = text ++ p.inFile file := by
  refine ⟨fun s => ⟨scanning_of_ofSource, ?_⟩, fun e => ⟨fun h => ?_, ?_⟩, ?_, ?_, ?_⟩
  · rintro ⟨hscan, hlast⟩
    rw [ofSource_of_scanning hscan, ← hlast]
  · rcases scanning_ends source.toList with ⟨tokens, hscan⟩ | ⟨before, c, rest, tokens, hscan, hno⟩
    · cases h.symm.trans (ofSource_of_scanning hscan)
    · cases h.symm.trans (ofSource_of_noLexeme hscan hno)
      exact ⟨before, c, rest, tokens, hscan, hno, rfl⟩
  · rintro ⟨before, c, rest, tokens, hscan, hno, rfl⟩
    exact ofSource_of_noLexeme hscan hno
  · exact fun c rest => noLexeme_iff
  · rintro c (rfl | hc)
    · exact ⟨by decide, rfl, by decide, by decide, by decide⟩
    · exact startsNothing_of_not_ascii hc
  · intro c p
    unfold LexError.noLexeme
    split
    · exact ⟨_, fun file => rfl⟩
    · exact ⟨_, fun file => rfl⟩

/-- A mark that begins a comparison, alone on the second line. -/
def loneMark : String := "x // y\n  !z"

theorem loneMark_unexpected :
    TokenStream.ofSource loneMark = .error (.unexpected '!' ⟨2, 3⟩) ∧
      (∃ before c rest tokens, Scanning loneMark.toList before (c :: rest) tokens ∧
        NoLexeme c rest ∧ LexError.unexpected '!' ⟨2, 3⟩ = .noLexeme c (.after before)) ∧
      StartsNothing 'é' :=
  ⟨rfl, ((ofSource_longest_match loneMark).2.1 _).mp rfl,
    (ofSource_longest_match loneMark).2.2.2.1 'é' (.inr (by decide))⟩

end Source

end ScriptLang
