import ScriptLang.Proofs.Grammar.Sources
import ScriptLang.Proofs.Grammar.Tracking

/-!
# Parsing any tokens

The parser on tokens that no scanner has made: of any classes, in any order, with ends of the input in
the middle. A parse ends, with a program or with an error about one of the tokens up to the first end
of the input, and nothing behind that is looked at or makes a difference.

Results:
* `TokenSplit.exists_split`: a list that ends with an end of the input has a first one;
* `Program.ofTokens_safe`: what a parse looks at and how it ends.
-/
namespace ScriptLang

open Grammar

namespace TokenSplit

variable {s : TokenSplit}

theorem exists_split {tokens : List Token} {final : Token} (hfinal : tokens.getLast? = some final)
    (hend : final.kind = .endOfInput) : ∃ s : TokenSplit, s.tokens = tokens := by
  let plain (t : Token) : Bool := decide (t.kind ≠ .endOfInput)
  have hplain : ∀ t ∈ tokens.takeWhile plain, t.kind ≠ .endOfInput := by
    intro t ht
    have hpos : plain t = true := List.mem_takeWhile_imp ht
    exact of_decide_eq_true hpos
  cases hrest : tokens.dropWhile plain with
  | nil =>
    have hall := List.dropWhile_eq_nil_iff.mp hrest final (List.mem_of_getLast? hfinal)
    exact absurd hend (of_decide_eq_true hall)
  | cons last after =>
    have htokens : tokens.takeWhile plain ++ last :: after = tokens := by
      rw [← hrest, List.takeWhile_append_dropWhile]
    have hlast : last.kind = .endOfInput := by
      have hhead := List.head?_dropWhile_not plain tokens
      rw [hrest] at hhead
      exact of_decide_eq_true (by simpa [plain] using hhead)
    exact ⟨⟨tokens.takeWhile plain, last, after, hplain, hlast⟩, htokens⟩

theorem mem_tokens {t : Token} (ht : t ∈ s.before ++ [s.last]) : t ∈ s.tokens := by
  rw [List.mem_append, List.mem_singleton] at ht
  rw [tokens, List.mem_append, List.mem_cons]
  exact ht.imp_right .inl

theorem before_eq (s : TokenSplit) :
    s.tokens.takeWhile (fun t => decide (t.kind ≠ .endOfInput)) = s.before := by
  rw [tokens, List.takeWhile_append_of_pos fun t ht => decide_eq_true (s.plain t ht),
    List.takeWhile_cons_of_neg (by simp [s.ends]), List.append_nil]

/-- The tokens before the first end and that end are the stream that is parsed. -/
theorem ofTokens_tokens (s : TokenSplit) {final : Token} (hfinal : s.tokens.getLast? = some final)
    (hend : final.kind = .endOfInput) :
    Program.ofTokens s.tokens = Program.ofStream ⟨s.before, s.last⟩ := by
  have hstream : TokenStream.ofTokens? s.tokens = some ⟨s.before, s.last⟩ := by
    rw [TokenStream.ofTokens?, hfinal]
    simp only [hend, if_true, before_eq]
    rw [tokens, List.drop_left]
    rfl
  rw [Program.ofTokens, hstream]

/-! ## A parse at a cursor -/

/-- The result of the parser as that of a parse at a cursor. -/
def result {α : Type} : Except ParseError α → Except Cursor.Stop α
  | .ok a => .ok a
  | .error e => .error (.error e)

/-- The parse of the tokens before the first end. -/
def parsed (s : TokenSplit) : Except ParseError Program := Program.ofStream ⟨s.before, s.last⟩

theorem parse_tracked (s : TokenSplit) :
    Tracked s (s.parsed.map (·, [])) (Cursor.parse (fuelFor s.before.length) s.tokens) := by
  have htracks : Tracks s 0
      (toEnd s.last (fuelFor s.before.length) >>= fun nodes => return ⟨nodes⟩ : Parse Program)
      (Cursor.topLevel (fuelFor s.before.length) >>= fun nodes => return ⟨nodes⟩) :=
    (toEnd_tracks _ 0).bind fun _ _ => .pure _
  have hrun : (toEnd s.last (fuelFor s.before.length) >>= fun nodes => return ⟨nodes⟩ :
      Parse Program) s.before = s.parsed.map (·, []) := by
    show (Except.map _ (topLevel s.last (fuelFor s.before.length) s.before) >>= _) =
      Except.map _ (topLevel s.last (fuelFor s.before.length) s.before >>= _)
    cases topLevel s.last (fuelFor s.before.length) s.before <;> rfl
  have hstart := htracks (Nat.zero_le _) [] (by simp [Within])
  rw [List.drop_zero, hrun] at hstart
  exact hstart

theorem tracked_result {α : Type} {r : Except ParseError (α × List Token)}
    {r' : Except Cursor.Stop α × Cursor.State} (h : Tracked s r r') :
    r'.1 = result (r.map Prod.fst) ∧ s.Within r'.2.seen ∧ ∀ e, r = .error e → s.Blames e := by
  cases h with
  | ok _ hseen => exact ⟨rfl, hseen, fun _ herror => by cases herror⟩
  | error he hseen => exact ⟨rfl, hseen, fun _ herror => by cases herror; exact he⟩

/-- A parse at a cursor looks at nothing behind the first end, ends as the parse of the tokens before
it does, and stops because of one of these tokens if it stops. -/
theorem parse_result (s : TokenSplit) :
    (Cursor.parse (fuelFor s.before.length) s.tokens).1 = result s.parsed ∧
      s.Within (Cursor.parse (fuelFor s.before.length) s.tokens).2.seen ∧
      ∀ e, s.parsed = .error e → s.Blames e := by
  obtain ⟨hresult, hseen, hblames⟩ := tracked_result s.parse_tracked
  refine ⟨hresult.trans ?_, hseen, fun e he => hblames e (by rw [he]; rfl)⟩
  cases s.parsed <;> rfl

/-- In a scanned text every number can be read. -/
theorem readable_of_ofSource {source : String} {stream : TokenStream}
    (hsource : TokenStream.ofSource source = .ok stream) (hstream : stream.toList = s.tokens) :
    ∀ t ∈ s.before, t.kind = .number → Numeral.read? t.text ≠ none := by
  obtain ⟨hscanned, hlast⟩ := scanned_ofSource hsource
  have hbefore : s.before = stream.tokens := by
    have hne : ∀ t ∈ stream.tokens, t.kind ≠ .endOfInput := fun t ht => (hscanned t ht).ne_endOfInput
    rw [← s.before_eq, ← hstream]
    exact before_eq ⟨stream.tokens, stream.last, [], hne, hlast⟩
  intro t ht hkind
  obtain ⟨n, hn⟩ := (hscanned t (hbefore ▸ ht)).number hkind
  rw [hn.read]
  exact Option.some_ne_none n

/-- A parse does not run out of fuel. -/
theorem parsed_ne_outOfFuel (s : TokenSplit) : s.parsed ≠ .error .outOfFuel := by
  intro h
  have hrun : toEnd s.last (fuelFor s.before.length) s.before = .error .outOfFuel := by
    rw [toEnd, error_of_bind_pure h]
    rfl
  exact (toEnd_enough s.ends (by rw [fuelFor]; omega)).fuel hrun

end TokenSplit

/-- Tokens whose last one is an end of the input can be parsed, whatever they are. There is a first end
among them, nothing behind it is looked at, and other tokens there make no difference. What the parse
gives is a program or an error about one of the tokens up to this end, or about a number that cannot
be read, which no text has. -/
theorem Program.ofTokens_safe {tokens : List Token} {final : Token}
    (hfinal : tokens.getLast? = some final) (hend : final.kind = .endOfInput) :
    ∃ s : TokenSplit, s.tokens = tokens ∧
      (∃ state, Cursor.parse (fuelFor s.before.length) tokens =
          (TokenSplit.result (Program.ofTokens tokens), state) ∧ s.Within state.seen) ∧
      (∀ after, (Cursor.parse (fuelFor s.before.length) (s.before ++ s.last :: after)).1 =
        TokenSplit.result (Program.ofTokens tokens)) ∧
      (∀ after other, (s.before ++ s.last :: after).getLast? = some other →
        other.kind = .endOfInput →
          Program.ofTokens (s.before ++ s.last :: after) = Program.ofTokens tokens) ∧
      (∀ e, Program.ofTokens tokens = .error e →
        (∃ t ∈ s.before ++ [s.last], e.PointsAt t) ∨
          ∃ t ∈ s.before, t.kind = .number ∧ Numeral.read? t.text = none ∧
            e = .badNumber t.text) ∧
      ∀ source stream, TokenStream.ofSource source = .ok stream → stream.toList = tokens →
        ∀ e, Program.ofTokens tokens = .error e → ∃ t ∈ tokens, e.PointsAt t := by
  obtain ⟨s, rfl⟩ := TokenSplit.exists_split hfinal hend
  have hparsed : Program.ofTokens s.tokens = s.parsed := s.ofTokens_tokens hfinal hend
  obtain ⟨hresult, hseen, hblames⟩ := s.parse_result
  rw [hparsed]
  refine ⟨s, rfl, ⟨_, Prod.ext hresult rfl, hseen⟩, fun after => ?_,
    fun after other hother hend' => ?_, fun e he => ?_,
    fun source stream hsource hstream e he => ?_⟩
  · exact (TokenSplit.parse_result ⟨s.before, s.last, after, s.plain, s.ends⟩).1
  · let s' : TokenSplit := ⟨s.before, s.last, after, s.plain, s.ends⟩
    exact s'.ofTokens_tokens hother hend'
  · cases hblames e he with
    | token ht hpoints => exact .inl ⟨_, ht, hpoints⟩
    | number ht hkind hread => exact .inr ⟨_, ht, hkind, hread, rfl⟩
    | outOfFuel => exact absurd he s.parsed_ne_outOfFuel
  · cases hblames e he with
    | token ht hpoints => exact ⟨_, TokenSplit.mem_tokens ht, hpoints⟩
    | number ht hkind hread =>
      exact absurd hread (TokenSplit.readable_of_ofSource hsource hstream _ ht hkind)
    | outOfFuel => exact absurd he s.parsed_ne_outOfFuel

/-- A name and a token of no known class, and more tokens behind a first end of the input. -/
def strayTokens : List Token :=
  [⟨.identifier, "x", ⟨1, 1⟩⟩, ⟨.other "WAT", "?", ⟨1, 3⟩⟩, ⟨.endOfInput, "EOF", ⟨1, 4⟩⟩,
    ⟨.semicolon, ";", ⟨1, 4⟩⟩, ⟨.endOfInput, "EOF", ⟨1, 5⟩⟩]

theorem strayTokens_safe :
    strayTokens.getLast? = some ⟨.endOfInput, "EOF", ⟨1, 5⟩⟩ ∧
    Program.ofTokens strayTokens =
      .error (.missing .semicolonAfterExpression ⟨.other "WAT", "?", ⟨1, 3⟩⟩) ∧
    ∃ s : TokenSplit, s.tokens = strayTokens ∧ s.before.length = 2 ∧
      ∃ state, Cursor.parse (fuelFor 2) strayTokens =
        (TokenSplit.result (Program.ofTokens strayTokens), state) ∧ ∀ k ∈ state.seen, k ≤ 2 := by
  have hlast : strayTokens.getLast? = some ⟨.endOfInput, "EOF", ⟨1, 5⟩⟩ := rfl
  obtain ⟨s, htokens, ⟨state, hparse, hseen⟩, -⟩ := Program.ofTokens_safe hlast rfl
  have hlength : s.before.length = 2 := by
    rw [← s.before_eq, htokens]
    rfl
  have hwithin : ∀ k ∈ state.seen, k ≤ 2 := fun k hk => hlength ▸ hseen k hk
  rw [hlength] at hparse
  exact ⟨hlast, rfl, s, htokens, hlength, state, hparse, hwithin⟩

end ScriptLang
