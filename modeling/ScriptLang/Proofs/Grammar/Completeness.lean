import ScriptLang.Proofs.Grammar.Soundness

/-!
# Completeness of the parser

On the tokens of any phrase the parser builds the tree of that phrase, if what follows the tokens
cannot go on with the phrase. By induction on the derivation; the left-recursive rule of the
operators is followed by saying what a level has left to do after the tokens of a phrase.

Results:
* `complete`: each function of the parser takes the phrases that the grammar derives;
* `topLevel_complete`: tokens that derive some statements are parsed as these statements.
-/
namespace ScriptLang.Grammar

/-! ## First tokens -/

def openers : List TokenKind :=
  [.identifier, .number, .string, .trueWord, .falseWord, .nullWord, .leftParen]

/-- The tokens start as those of the phrase do. -/
def Phrase.Opens : Phrase → List Token → Prop
  | .statements _, ts =>
    ts = [] ∨ ∃ t us, ts = t :: us ∧ t.kind ≠ .elseWord ∧ t.kind ≠ .rightBrace
  | .statement _, ts => ∃ t us, ts = t :: us ∧ t.kind ≠ .elseWord ∧ t.kind ≠ .rightBrace
  | .block _, ts => ∃ t us, ts = t :: us ∧ t.kind = .leftBrace
  | .parameters _, ts => ∃ t us, ts = t :: us ∧ t.kind = .identifier
  | .parameterList _, _ | .argumentList _, _ => True
  | .expression _, ts | .target _, ts | .level _ _, ts | .operand _, ts | .arguments _, ts
  | .primary _, ts => ∃ t us, ts = t :: us ∧ t.kind ∈ openers

theorem Level.opens_inner {level : Level} {value : Node} {ts : List Token}
    (h : (level.inner value).Opens ts) : ∃ t us, ts = t :: us ∧ t.kind ∈ openers := by
  cases level <;> exact h

theorem opens_of_kind {t : Token} {ts : List Token} {k : TokenKind} (h : t.kind = k)
    (hk : k ∈ openers) : ∃ u us, t :: ts = u :: us ∧ u.kind ∈ openers :=
  ⟨t, ts, rfl, h ▸ hk⟩

theorem statement_opens_of_kind {t : Token} {ts : List Token} {k : TokenKind} (h : t.kind = k)
    (hk : k ≠ .elseWord ∧ k ≠ .rightBrace) :
    ∃ u us, t :: ts = u :: us ∧ u.kind ≠ .elseWord ∧ u.kind ≠ .rightBrace :=
  ⟨t, ts, rfl, h ▸ hk.1, h ▸ hk.2⟩

theorem opens {p : Phrase} {ts : List Token} (h : Derives p ts) : p.Opens ts := by
  induction h with
  | noStatements => exact .inl rfl
  | moreStatements _ _ ih _ =>
    obtain ⟨t, us, rfl, ht⟩ := ih
    exact .inr ⟨t, _, rfl, ht⟩
  | evaluate _ _ ih =>
    obtain ⟨t, us, rfl, ht⟩ := ih
    refine ⟨t, _, rfl, ?_, ?_⟩ <;> rintro hk <;> rw [hk] at ht <;> exact absurd ht (by decide)
  | declare hword | function hword | branch hword | branchElse hword | loop hword | ret hword
  | retValue hword | importFile hword => exact statement_opens_of_kind hword (by decide)
  | nested _ ih =>
    obtain ⟨t, us, rfl, ht⟩ := ih
    exact statement_opens_of_kind ht (by decide)
  | block hstart => exact ⟨_, _, rfl, hstart⟩
  | noParameters => trivial
  | someParameters => trivial
  | parameter hx => exact ⟨_, _, rfl, hx⟩
  | moreParameters hx => exact ⟨_, _, rfl, hx⟩
  | assign _ _ _ ih =>
    obtain ⟨t, us, rfl, ht⟩ := ih
    exact ⟨t, _, rfl, ht⟩
  | chain _ ih => exact ih
  | targetName hx => exact opens_of_kind hx (by decide)
  | targetGroup hstart => exact opens_of_kind hstart (by decide)
  | single _ ih => exact Level.opens_inner ih
  | binary _ _ _ ih =>
    obtain ⟨t, us, rfl, ht⟩ := ih
    exact ⟨t, _, rfl, ht⟩
  | call hx => exact opens_of_kind hx (by decide)
  | simple _ ih => exact ih
  | noArguments => trivial
  | someArguments => trivial
  | argument _ ih => exact ih
  | moreArguments _ _ _ ih =>
    obtain ⟨t, us, rfl, ht⟩ := ih
    exact ⟨t, _, rfl, ht⟩
  | name hx => exact opens_of_kind hx (by decide)
  | number ht | string ht | true ht | false ht | null ht => exact opens_of_kind ht (by decide)
  | group hstart => exact opens_of_kind hstart (by decide)

/-! ## Next tokens -/

def Level.rank : Level → Nat
  | .comparison => 0
  | .additive => 1
  | .multiplicative => 2

def Level.Ends (level : Level) (t : Token) : Prop :=
  t.kind ≠ .leftParen ∧ ∀ tighter : Level, level.rank < tighter.rank → ¬ tighter.Has t

/-- The token ends an expression of any kind. -/
def Stops (t : Token) : Prop := t.kind ≠ .leftParen ∧ ∀ level : Level, ¬ level.Has t

theorem Stops.ends {t : Token} (h : Stops t) (level : Level) : level.Ends t :=
  ⟨h.1, fun tighter _ => h.2 tighter⟩

theorem stops_of_kind {t : Token}
    (h : t.kind = .equals ∨ t.kind = .semicolon ∨ t.kind = .rightParen ∨ t.kind = .comma) :
    Stops t := by
  rcases h with h | h | h | h <;>
    refine ⟨by rw [h]; decide, fun level => ?_⟩ <;> cases level <;> simp [Level.Has, h]

/-- An operator of a level is none of a tighter one. -/
theorem Level.not_has_tighter {level tighter : Level} {t : Token} (h : level.Has t)
    (hr : level.rank < tighter.rank) : ¬ tighter.Has t := by
  intro ht
  cases level with
  | comparison =>
    have hk : t.kind = .comparison := h
    cases tighter with
    | comparison => exact absurd hr (by decide)
    | additive | multiplicative => exact absurd (hk.symm.trans ht.1) (by decide)
  | additive =>
    cases tighter with
    | comparison | additive => exact absurd hr (by decide)
    | multiplicative =>
      obtain ⟨-, h | h⟩ := h <;> obtain ⟨-, ht | ht⟩ := ht <;>
        exact absurd (h.symm.trans ht) (by decide)
  | multiplicative => cases tighter <;> exact absurd hr (by decide)

theorem Level.ends_of_has {level : Level} {t : Token} (h : level.Has t) : level.Ends t := by
  refine ⟨?_, fun tighter hr => not_has_tighter h hr⟩
  cases level with
  | comparison =>
    rw [show t.kind = .comparison from h]
    decide
  | additive | multiplicative =>
    rw [h.1]
    decide

/-- The token can come after the phrase, and the phrase cannot go on with it. -/
def Phrase.Before : Phrase → Token → Prop
  | .statements _, t => t.kind = .rightBrace
  | .statement _, t => t.kind ≠ .elseWord
  | .parameterList _, t | .parameters _, t | .argumentList _, t | .arguments _, t =>
    t.kind = .rightParen
  | .expression _, t => t.kind = .semicolon ∨ t.kind = .rightParen ∨ t.kind = .comma
  | .level l _, t => l.Ends t
  | .operand _, t => t.kind ≠ .leftParen
  | .block _, _ | .target _, _ | .primary _, _ => True

/-! ## Parsing a phrase -/

/-- Fuel that a phrase needs beside that for its tokens. -/
def Phrase.overhead : Phrase → Nat
  | .primary _ | .target _ | .parameters _ | .parameterList _ => 0
  | .operand _ => 1
  | .level l _ => 4 - l.rank
  | .expression _ | .block _ => 5
  | .arguments _ | .argumentList _ | .statement _ => 6
  | .statements _ => 7

/-- The parser takes the phrase off the front of `ts ++ rest`. After the tokens of a phrase of some
level, the level goes on with what it has of the fuel. -/
def Parsed (last : Token) (fuel : Nat) (ts rest : List Token) : Phrase → Prop
  | .statements nodes => statements last fuel (ts ++ rest) = .ok (nodes, rest)
  | .statement node => statement last fuel (ts ++ rest) = .ok (node, rest)
  | .block body => block last fuel (ts ++ rest) = .ok (body, rest)
  | .parameterList names =>
    (if (peek last (ts ++ rest)).kind = .rightParen then .ok ([], ts ++ rest)
      else parameters last ((ts ++ rest).length + 1) (ts ++ rest)) = .ok (names, rest)
  | .parameters names =>
    ∀ fuel, ts.length ≤ fuel → parameters last fuel (ts ++ rest) = .ok (names, rest)
  | .expression value => expression last fuel (ts ++ rest) = .ok (value, rest)
  | .target name => primary last fuel (ts ++ rest) = .ok (.identifier (.str name), rest)
  | .level l value => ∃ left, fuel ≤ left + 1 + ts.length ∧
    infixLevel last fuel l (ts ++ rest) = infixRest last left l value rest
  | .operand value => call last fuel (ts ++ rest) = .ok (value, rest)
  | .argumentList values =>
    (if (peek last (ts ++ rest)).kind = .rightParen then .ok ([], ts ++ rest)
      else arguments last fuel (ts ++ rest)) = .ok (values, rest)
  | .arguments values => arguments last fuel (ts ++ rest) = .ok (values, rest)
  | .primary value => primary last fuel (ts ++ rest) = .ok (value, rest)

section Steps

variable {last : Token} {fuel : Nat} {ts rest : List Token} {value : Node} {level : Level}

theorem infixRest_stops (hf : 0 < fuel) (h : ¬ level.Has (peek last rest)) :
    infixRest last fuel level value rest = .ok (value, rest) := by
  obtain ⟨fuel, rfl⟩ := Nat.exists_eq_succ_of_ne_zero (Nat.ne_of_gt hf)
  rw [infixRest_succ, if_neg (mt (level.admits_iff _).mp h)]

theorem call_of_primary (h : primary last fuel ts = .ok (value, rest))
    (hr : (peek last rest).kind ≠ .leftParen) :
    call last (fuel + 1) ts = .ok (value, rest) := by
  unfold call
  simp only [bind_ok, Prod.exists]
  exact ⟨value, rest, h, by rw [if_neg hr]; rfl⟩

theorem infixLevel_of_operand (h : operandOf last fuel level ts = .ok (value, rest))
    (hf : 0 < fuel) (hr : ¬ level.Has (peek last rest)) :
    infixLevel last (fuel + 1) level ts = .ok (value, rest) := by
  rw [infixLevel_succ, h]
  exact infixRest_stops hf hr

/-- A primary expression is an operand of any level. -/
theorem infixLevel_of_primary (h : primary last fuel ts = .ok (value, rest))
    (hr : Stops (peek last rest)) :
    infixLevel last (fuel + 4) .comparison ts = .ok (value, rest) := by
  have hc : call last (fuel + 1) ts = .ok (value, rest) := call_of_primary h hr.1
  have hm : infixLevel last (fuel + 2) .multiplicative ts = .ok (value, rest) :=
    infixLevel_of_operand hc (by omega) (hr.2 _)
  have ha : infixLevel last (fuel + 3) .additive ts = .ok (value, rest) :=
    infixLevel_of_operand hm (by omega) (hr.2 _)
  exact infixLevel_of_operand ha (by omega) (hr.2 _)

theorem expression_of_infixLevel (h : infixLevel last fuel .comparison ts = .ok (value, rest))
    (hr : (peek last rest).kind ≠ .equals) :
    expression last (fuel + 1) ts = .ok (value, rest) := by
  unfold expression
  simp only [bind_ok, Prod.exists]
  exact ⟨value, rest, h, by rw [if_neg hr]; rfl⟩

/-- What the rule for the operand of a level says of the level. -/
theorem operandOf_of_parsed (hlevel : level.Ends (peek last rest))
    (hf : (12 * ts.length + (level.inner value).overhead) ≤ fuel)
    (h : Parsed last fuel ts rest (level.inner value)) :
    operandOf last fuel level (ts ++ rest) = .ok (value, rest) := by
  cases level with
  | comparison =>
    obtain ⟨left, hl, h⟩ := h
    rw [show (Level.inner .comparison value).overhead = 3 from rfl] at hf
    rw [operandOf, Level.tighter?]
    dsimp only
    rw [h]
    exact infixRest_stops (by omega) (hlevel.2 .additive (by decide))
  | additive =>
    obtain ⟨left, hl, h⟩ := h
    rw [show (Level.inner .additive value).overhead = 2 from rfl] at hf
    rw [operandOf, Level.tighter?]
    dsimp only
    rw [h]
    exact infixRest_stops (by omega) (hlevel.2 .multiplicative (by decide))
  | multiplicative => exact h

theorem before_inner (h : level.Ends (peek last rest)) :
    (level.inner value).Before (peek last rest) := by
  cases level with
  | comparison => exact ⟨h.1, fun tighter hr => h.2 tighter (Nat.lt_trans (by decide) hr)⟩
  | additive => exact ⟨h.1, fun tighter hr => h.2 tighter (Nat.lt_trans (by decide) hr)⟩
  | multiplicative => exact h.1

theorem overhead_inner (level : Level) (value : Node) :
    (level.inner value).overhead + 1 = (Phrase.level level value).overhead := by
  cases level <;> rfl

end Steps

/-- The parser takes the phrase off the front of the tokens, whatever comes after it and may. -/
def Complete (last : Token) (p : Phrase) (ts : List Token) : Prop :=
  ∀ {rest : List Token} {fuel : Nat}, p.Before (peek last rest) →
    12 * ts.length + p.overhead ≤ fuel → Parsed last fuel ts rest p

theorem peek_cons (last t : Token) (ts : List Token) : peek last (t :: ts) = t := rfl

theorem exists_succ {n fuel : Nat} (h : n ≤ fuel) (hn : 0 < n) : ∃ k, fuel = k + 1 :=
  Nat.exists_eq_succ_of_ne_zero (by omega)

theorem statement_of_opener {last : Token} {ts : List Token} (h : (peek last ts).kind ∈ openers)
    (fuel : Nat) :
    statement last (fuel + 1) ts =
      expression last fuel ts >>= fun r =>
        expect last .semicolonAfterExpression r.2 >>= fun s => pure (.expression r.1, s.2) := by
  unfold statement
  simp only [openers, List.mem_cons, List.not_mem_nil, or_false] at h
  rcases h with h | h | h | h | h | h | h <;> rw [h]

namespace Complete

variable {last : Token} {ts us vs : List Token} {word x eq op start stop comma other t : Token}
  {node value test left right : Node} {body consequent alternate nodes args values : List Node}
  {names : List Json}

/-! ### Statements -/

theorem noStatements : Complete last (.statements []) [] := by
  intro rest fuel hb hf
  obtain ⟨fuel, rfl⟩ := exists_succ hf (by decide)
  simp only [Parsed, List.nil_append]
  unfold Grammar.statements
  rw [if_pos]
  simp only [Bool.or_eq_true, decide_eq_true_eq]
  exact .inr hb

theorem moreStatements (hus : Derives (.statements nodes) us) (hts : Derives (.statement node) ts)
    (ih : Complete last (.statement node) ts) (ihs : Complete last (.statements nodes) us) :
    Complete last (.statements (node :: nodes)) (ts ++ us) := by
  intro rest fuel hb hf
  obtain ⟨fuel, rfl⟩ := exists_succ hf (by simp [Phrase.overhead])
  simp only [List.length_append, Phrase.overhead] at hf
  obtain ⟨t, ts', rfl, ht⟩ := opens hts
  have hfirst : Parsed last fuel (t :: ts') (us ++ rest) (.statement node) := by
    refine ih ?_ (by simp only [Phrase.overhead]; omega)
    rcases opens hus with rfl | ⟨u, us', rfl, hu⟩
    · rw [List.nil_append, Phrase.Before, show (peek last rest).kind = .rightBrace from hb]
      decide
    · exact hu.1
  have hmore : Parsed last fuel us rest (.statements nodes) := by
    refine ihs hb ?_
    simp only [List.length_cons, Phrase.overhead] at hf ⊢
    omega
  simp only [Parsed, List.append_assoc] at hfirst hmore ⊢
  unfold Grammar.statements
  rw [if_neg (by simpa [peek] using ht.2)]
  simp only [bind_ok, Prod.exists]
  exact ⟨_, _, hfirst, _, _, hmore, rfl⟩

theorem evaluate (hlast : last.kind = .endOfInput) (hts : Derives (.expression value) ts)
    (hstop : stop.kind = .semicolon) (ih : Complete last (.expression value) ts) :
    Complete last (.statement (.expression value)) (ts ++ [stop]) := by
  intro rest fuel hb hf
  obtain ⟨fuel, rfl⟩ := exists_succ hf (by simp [Phrase.overhead])
  simp only [List.length_append, List.length_singleton, Phrase.overhead] at hf
  have hv : Parsed last fuel ts (stop :: rest) (.expression value) :=
    ih (.inl hstop) (by simp only [Phrase.overhead]; omega)
  simp only [Parsed, List.append_assoc, List.singleton_append] at hv ⊢
  have ho : (peek last (ts ++ stop :: rest)).kind ∈ openers := by
    obtain ⟨t, ts, rfl, ht⟩ := opens hts
    exact ht
  rw [statement_of_opener ho]
  simp only [bind_ok, Prod.exists, expect_ok hlast]
  exact ⟨_, _, hv, _, _, ⟨rfl, hstop⟩, rfl⟩

theorem declare (hlast : last.kind = .endOfInput) (hword : word.kind = .letWord)
    (hx : x.kind = .identifier) (heq : eq.kind = .equals) (hstop : stop.kind = .semicolon)
    (ih : Complete last (.expression value) ts) :
    Complete last (.statement (.declare (.str x.text) value))
      (word :: x :: eq :: (ts ++ [stop])) := by
  intro rest fuel hb hf
  obtain ⟨fuel, rfl⟩ := exists_succ hf (by simp [Phrase.overhead])
  simp only [List.length_cons, List.length_append, Phrase.overhead] at hf
  have hv : Parsed last fuel ts (stop :: rest) (.expression value) :=
    ih (.inl hstop) (by simp only [Phrase.overhead]; omega)
  simp only [Parsed, List.cons_append, List.append_assoc, List.nil_append] at hv ⊢
  unfold Grammar.statement
  simp only [peek_cons, hword, List.tail_cons, bind_ok, Prod.exists, expect_ok hlast]
  exact ⟨_, _, ⟨rfl, hx⟩, _, _, ⟨rfl, heq⟩, _, _, hv, _, _, ⟨rfl, hstop⟩, rfl⟩

theorem function (hlast : last.kind = .endOfInput) (hword : word.kind = .funcWord)
    (hx : x.kind = .identifier) (hstart : start.kind = .leftParen) (hstop : stop.kind = .rightParen)
    (ihp : Complete last (.parameterList names) ts) (ihb : Complete last (.block body) us) :
    Complete last (.statement (.function (.str x.text) names body))
      (word :: x :: start :: (ts ++ stop :: us)) := by
  intro rest fuel hb hf
  obtain ⟨fuel, rfl⟩ := exists_succ hf (by simp [Phrase.overhead])
  simp only [List.length_cons, List.length_append, Phrase.overhead] at hf
  have hp : Parsed last fuel ts (stop :: (us ++ rest)) (.parameterList names) :=
    ihp hstop (by simp only [Phrase.overhead]; omega)
  have hbody : Parsed last fuel us rest (.block body) :=
    ihb trivial (by simp only [Phrase.overhead]; omega)
  simp only [Parsed, List.cons_append, List.append_assoc] at hp hbody ⊢
  unfold Grammar.statement
  simp only [peek_cons, hword, List.tail_cons, bind_ok, Prod.exists, expect_ok hlast]
  refine ⟨_, _, ⟨rfl, hx⟩, _, _, ⟨rfl, hstart⟩, ?_⟩
  split at hp
  · next hk =>
    rw [if_pos hk]
    simp only [bind_ok, Prod.exists, expect_ok hlast]
    exact ⟨_, _, hp, _, _, ⟨rfl, hstop⟩, _, _, hbody, rfl⟩
  · next hk =>
    rw [if_neg hk]
    simp only [bind_ok, Prod.exists, expect_ok hlast]
    exact ⟨_, _, hp, _, _, ⟨rfl, hstop⟩, _, _, hbody, rfl⟩

theorem branch (hlast : last.kind = .endOfInput) (hword : word.kind = .ifWord)
    (hstart : start.kind = .leftParen) (hstop : stop.kind = .rightParen)
    (iht : Complete last (.expression test) ts) (ihc : Complete last (.block consequent) us) :
    Complete last (.statement (.branch test consequent none))
      (word :: start :: (ts ++ stop :: us)) := by
  intro rest fuel hb hf
  obtain ⟨fuel, rfl⟩ := exists_succ hf (by simp [Phrase.overhead])
  simp only [List.length_cons, List.length_append, Phrase.overhead] at hf
  have ht : Parsed last fuel ts (stop :: (us ++ rest)) (.expression test) :=
    iht (.inr (.inl hstop)) (by simp only [Phrase.overhead]; omega)
  have hc : Parsed last fuel us rest (.block consequent) :=
    ihc trivial (by simp only [Phrase.overhead]; omega)
  simp only [Parsed, List.cons_append, List.append_assoc] at ht hc ⊢
  unfold Grammar.statement
  simp only [peek_cons, hword, List.tail_cons, bind_ok, Prod.exists, expect_ok hlast]
  refine ⟨_, _, ⟨rfl, hstart⟩, _, _, ht, _, _, ⟨rfl, hstop⟩, _, _, hc, ?_⟩
  rw [if_neg hb]
  rfl

theorem branchElse (hlast : last.kind = .endOfInput) (hword : word.kind = .ifWord)
    (hstart : start.kind = .leftParen) (hstop : stop.kind = .rightParen)
    (hother : other.kind = .elseWord) (iht : Complete last (.expression test) ts)
    (ihc : Complete last (.block consequent) us) (iha : Complete last (.block alternate) vs) :
    Complete last (.statement (.branch test consequent (some alternate)))
      (word :: start :: (ts ++ stop :: (us ++ other :: vs))) := by
  intro rest fuel hb hf
  obtain ⟨fuel, rfl⟩ := exists_succ hf (by simp [Phrase.overhead])
  simp only [List.length_cons, List.length_append, Phrase.overhead] at hf
  have ht : Parsed last fuel ts (stop :: (us ++ other :: (vs ++ rest))) (.expression test) :=
    iht (.inr (.inl hstop)) (by simp only [Phrase.overhead]; omega)
  have hc : Parsed last fuel us (other :: (vs ++ rest)) (.block consequent) :=
    ihc trivial (by simp only [Phrase.overhead]; omega)
  have ha : Parsed last fuel vs rest (.block alternate) :=
    iha trivial (by simp only [Phrase.overhead]; omega)
  simp only [Parsed, List.cons_append, List.append_assoc] at ht hc ha ⊢
  unfold Grammar.statement
  simp only [peek_cons, hword, List.tail_cons, bind_ok, Prod.exists, expect_ok hlast]
  refine ⟨_, _, ⟨rfl, hstart⟩, _, _, ht, _, _, ⟨rfl, hstop⟩, _, _, hc, ?_⟩
  rw [peek_cons, if_pos hother]
  simp only [bind_ok, Prod.exists]
  exact ⟨_, _, ha, rfl⟩

theorem loop (hlast : last.kind = .endOfInput) (hword : word.kind = .whileWord)
    (hstart : start.kind = .leftParen) (hstop : stop.kind = .rightParen)
    (iht : Complete last (.expression test) ts) (ihb : Complete last (.block body) us) :
    Complete last (.statement (.loop test body)) (word :: start :: (ts ++ stop :: us)) := by
  intro rest fuel hb hf
  obtain ⟨fuel, rfl⟩ := exists_succ hf (by simp [Phrase.overhead])
  simp only [List.length_cons, List.length_append, Phrase.overhead] at hf
  have ht : Parsed last fuel ts (stop :: (us ++ rest)) (.expression test) :=
    iht (.inr (.inl hstop)) (by simp only [Phrase.overhead]; omega)
  have hbody : Parsed last fuel us rest (.block body) :=
    ihb trivial (by simp only [Phrase.overhead]; omega)
  simp only [Parsed, List.cons_append, List.append_assoc] at ht hbody ⊢
  unfold Grammar.statement
  simp only [peek_cons, hword, List.tail_cons, bind_ok, Prod.exists, expect_ok hlast]
  exact ⟨_, _, ⟨rfl, hstart⟩, _, _, ht, _, _, ⟨rfl, hstop⟩, _, _, hbody, rfl⟩

theorem ret (hword : word.kind = .returnWord) (hstop : stop.kind = .semicolon) :
    Complete last (.statement (.ret none)) [word, stop] := by
  intro rest fuel hb hf
  obtain ⟨fuel, rfl⟩ := exists_succ hf (by simp [Phrase.overhead])
  simp only [Parsed, List.cons_append, List.nil_append]
  unfold Grammar.statement
  simp only [peek_cons, hword, List.tail_cons]
  exact if_pos hstop

theorem retValue (hlast : last.kind = .endOfInput) (hword : word.kind = .returnWord)
    (hts : Derives (.expression value) ts) (hstop : stop.kind = .semicolon)
    (ih : Complete last (.expression value) ts) :
    Complete last (.statement (.ret (some value))) (word :: (ts ++ [stop])) := by
  intro rest fuel hb hf
  obtain ⟨fuel, rfl⟩ := exists_succ hf (by simp [Phrase.overhead])
  simp only [List.length_cons, List.length_append, Phrase.overhead] at hf
  have hv : Parsed last fuel ts (stop :: rest) (.expression value) :=
    ih (.inl hstop) (by simp only [Phrase.overhead]; omega)
  have ho : ¬ (peek last (ts ++ stop :: rest)).kind = .semicolon := by
    obtain ⟨t, ts, rfl, ht⟩ := opens hts
    intro hk
    rw [show t.kind = .semicolon from hk] at ht
    exact absurd ht (by decide)
  simp only [Parsed, List.cons_append, List.append_assoc, List.nil_append] at hv ⊢
  unfold Grammar.statement
  simp only [peek_cons, hword, List.tail_cons]
  refine (if_neg ho).trans ?_
  simp only [bind_ok, Prod.exists, expect_ok hlast]
  exact ⟨_, _, hv, _, _, ⟨rfl, hstop⟩, rfl⟩

theorem importFile (hlast : last.kind = .endOfInput) (hword : word.kind = .importWord)
    (hx : x.kind = .string) (hstop : stop.kind = .semicolon) :
    Complete last (.statement (.importFile x.text)) [word, x, stop] := by
  intro rest fuel hb hf
  obtain ⟨fuel, rfl⟩ := exists_succ hf (by simp [Phrase.overhead])
  simp only [Parsed, List.cons_append, List.nil_append]
  unfold Grammar.statement
  simp only [peek_cons, hword, List.tail_cons, bind_ok, Prod.exists, expect_ok hlast]
  exact ⟨_, _, ⟨rfl, hx⟩, _, _, ⟨rfl, hstop⟩, rfl⟩

theorem nested (hts : Derives (.block body) ts) (ih : Complete last (.block body) ts) :
    Complete last (.statement (.block body)) ts := by
  intro rest fuel hb hf
  obtain ⟨fuel, rfl⟩ := exists_succ hf (by simp [Phrase.overhead])
  simp only [Phrase.overhead] at hf
  have hbody : Parsed last fuel ts rest (.block body) :=
    ih trivial (by simp only [Phrase.overhead]; omega)
  obtain ⟨t, ts, rfl, ht⟩ := opens hts
  simp only [Parsed, List.cons_append] at hbody ⊢
  unfold Grammar.statement
  simp only [peek_cons, ht, bind_ok, Prod.exists]
  exact ⟨_, _, hbody, rfl⟩

theorem block (hlast : last.kind = .endOfInput) (hstart : start.kind = .leftBrace)
    (hstop : stop.kind = .rightBrace) (ih : Complete last (.statements body) ts) :
    Complete last (.block body) (start :: (ts ++ [stop])) := by
  intro rest fuel hb hf
  obtain ⟨fuel, rfl⟩ := exists_succ hf (by simp [Phrase.overhead])
  simp only [List.length_cons, List.length_append, Phrase.overhead] at hf
  have hbody : Parsed last fuel ts (stop :: rest) (.statements body) :=
    ih hstop (by simp only [Phrase.overhead]; omega)
  simp only [Parsed, List.cons_append, List.append_assoc, List.nil_append] at hbody ⊢
  unfold Grammar.block
  simp only [bind_ok, Prod.exists, expect_ok hlast]
  exact ⟨_, _, ⟨rfl, hstart⟩, _, _, hbody, _, _, ⟨rfl, hstop⟩, rfl⟩

/-! ### Parameters -/

theorem noParameters : Complete last (.parameterList []) [] := by
  intro rest fuel hb hf
  exact if_pos hb

theorem someParameters (hts : Derives (.parameters names) ts)
    (ih : Complete last (.parameters names) ts) : Complete last (.parameterList names) ts := by
  intro rest fuel hb hf
  have hk : ¬ (peek last (ts ++ rest)).kind = .rightParen := by
    obtain ⟨t, ts, rfl, ht⟩ := opens hts
    rw [show (peek last (t :: ts ++ rest)).kind = .identifier from ht]
    decide
  have hp : Parsed last fuel ts rest (.parameters names) := ih hb hf
  exact (if_neg hk).trans (hp _ (by rw [List.length_append]; omega))

theorem parameter (hlast : last.kind = .endOfInput) (hx : x.kind = .identifier) :
    Complete last (.parameters [.str x.text]) [x] := by
  intro rest _ hb _ fuel hf
  obtain ⟨fuel, rfl⟩ := exists_succ hf Nat.zero_lt_one
  have hk : ¬ (peek last rest).kind = .comma := by
    rw [show (peek last rest).kind = .rightParen from hb]
    decide
  unfold Grammar.parameters
  simp only [bind_ok, Prod.exists, expect_ok hlast]
  exact ⟨_, _, ⟨rfl, hx⟩, if_neg hk⟩

theorem moreParameters (hlast : last.kind = .endOfInput) (hx : x.kind = .identifier)
    (hcomma : comma.kind = .comma) (ih : Complete last (.parameters names) ts) :
    Complete last (.parameters (.str x.text :: names)) (x :: comma :: ts) := by
  intro rest fuel hb hf fuel' hf'
  simp only [List.length_cons] at hf hf'
  obtain ⟨fuel', rfl⟩ := exists_succ hf' (by omega)
  have hp : Parsed last fuel ts rest (.parameters names) :=
    ih hb (by simp only [Phrase.overhead] at hf ⊢; omega)
  unfold Grammar.parameters
  simp only [bind_ok, Prod.exists, expect_ok hlast]
  refine ⟨_, _, ⟨rfl, hx⟩, ?_⟩
  rw [if_pos (by exact hcomma)]
  simp only [bind_ok, Prod.exists]
  exact ⟨_, _, hp fuel' (by omega), rfl⟩

/-! ### Expressions -/

theorem assign {name : String} (heq : eq.kind = .equals) (iht : Complete last (.target name) ts)
    (ihv : Complete last (.expression value) us) :
    Complete last (.expression (.binary (.identifier (.str name)) (.str "=") value))
      (ts ++ eq :: us) := by
  intro rest fuel hb hf
  obtain ⟨fuel, rfl⟩ : ∃ k, fuel = k + 5 :=
    Nat.exists_eq_add_of_le' (by simp only [Phrase.overhead] at hf; omega)
  simp only [List.length_append, List.length_cons, Phrase.overhead] at hf
  have hv : Parsed last (fuel + 4) us rest (.expression value) :=
    ihv hb (by simp only [Phrase.overhead]; omega)
  have ht : Parsed last fuel ts (eq :: (us ++ rest)) (.target name) :=
    iht trivial (by simp only [Phrase.overhead]; omega)
  have hl := infixLevel_of_primary ht (stops_of_kind (.inl heq))
  simp only [Parsed, List.append_assoc, List.cons_append] at hv ⊢
  unfold Grammar.expression
  simp only [bind_ok, Prod.exists]
  refine ⟨_, _, hl, ?_⟩
  rw [peek_cons, if_pos heq]
  simp only [bind_ok, Prod.exists]
  exact ⟨_, _, hv, rfl⟩

theorem chain (ih : Complete last (.level .comparison value) ts) :
    Complete last (.expression value) ts := by
  intro rest fuel hb hf
  obtain ⟨fuel, rfl⟩ := exists_succ hf (by simp [Phrase.overhead])
  simp only [Phrase.overhead] at hf
  have hs : Stops (peek last rest) := stops_of_kind (.inr hb)
  obtain ⟨left, hl, h⟩ : Parsed last fuel ts rest (.level .comparison value) :=
    ih (hs.ends _) (by simp only [Phrase.overhead, Level.rank]; omega)
  rw [infixRest_stops (by omega) (hs.2 _)] at h
  refine expression_of_infixLevel h ?_
  rcases hb with hb | hb | hb <;> rw [hb] <;> decide

theorem targetName (hx : x.kind = .identifier) : Complete last (.target x.text) [x] := by
  intro rest fuel hb hf
  obtain ⟨fuel, rfl⟩ := exists_succ hf (by simp [Phrase.overhead])
  simp only [Parsed]
  unfold Grammar.primary
  simp only [List.cons_append, peek_cons, hx]
  rfl

theorem targetGroup (hlast : last.kind = .endOfInput) {name : String}
    (hstart : start.kind = .leftParen) (hstop : stop.kind = .rightParen)
    (ih : Complete last (.target name) ts) :
    Complete last (.target name) (start :: (ts ++ [stop])) := by
  intro rest fuel hb hf
  obtain ⟨fuel, rfl⟩ : ∃ k, fuel = k + 6 :=
    Nat.exists_eq_add_of_le' (by simp at hf; omega)
  simp only [List.length_append, List.length_cons, Phrase.overhead] at hf
  have ht : Parsed last fuel ts (stop :: rest) (.target name) :=
    ih trivial (by simp only [Phrase.overhead]; omega)
  have hl := infixLevel_of_primary ht (stops_of_kind (.inr (.inr (.inl hstop))))
  have he := expression_of_infixLevel hl (by rw [peek_cons, hstop]; decide)
  simp only [Parsed, List.append_assoc, List.cons_append, List.nil_append]
  unfold Grammar.primary
  simp only [peek_cons, hstart, List.tail_cons, bind_ok, Prod.exists, expect_ok hlast]
  exact ⟨_, _, he, _, _, ⟨rfl, hstop⟩, rfl⟩

theorem single {level : Level} (ih : Complete last (level.inner value) ts) :
    Complete last (.level level value) ts := by
  intro rest fuel hb hf
  have hover := overhead_inner level value
  obtain ⟨fuel, rfl⟩ := exists_succ hf (by omega)
  have hv : Parsed last fuel ts rest (level.inner value) := ih (before_inner hb) (by omega)
  have ho := operandOf_of_parsed hb (by omega) hv
  exact ⟨fuel, by omega, by rw [infixLevel_succ, ho]; rfl⟩

theorem binary {level : Level} (hop : level.Has op) (ihl : Complete last (.level level left) ts)
    (ihr : Complete last (level.inner right) us) :
    Complete last (.level level (.binary left (.str op.text) right)) (ts ++ op :: us) := by
  intro rest fuel hb hf
  have hover := overhead_inner level right
  simp only [List.length_append, List.length_cons] at hf
  obtain ⟨left', hl, h⟩ : Parsed last fuel ts (op :: (us ++ rest)) (.level level left) :=
    ihl (Level.ends_of_has hop) (by simp only [Phrase.overhead] at hf ⊢; omega)
  have hle : (Phrase.level level right).overhead =
      (Phrase.level level (.binary left (.str op.text) right)).overhead := rfl
  obtain ⟨k, rfl⟩ : ∃ k, left' = k + 1 := Nat.exists_eq_succ_of_ne_zero (by omega)
  have hr : Parsed last k us rest (level.inner right) := ihr (before_inner hb) (by omega)
  have ho := operandOf_of_parsed hb (by omega) hr
  refine ⟨k, by simp only [List.length_append, List.length_cons]; omega, ?_⟩
  rw [List.append_assoc, List.cons_append, h, infixRest_succ, peek_cons,
    if_pos ((level.admits_iff op).mpr hop), List.tail_cons, ho]
  rfl

/-! ### Operands -/

theorem call (hlast : last.kind = .endOfInput) (hx : x.kind = .identifier)
    (hstart : start.kind = .leftParen) (hstop : stop.kind = .rightParen)
    (ih : Complete last (.argumentList args) ts) :
    Complete last (.operand (.call (.str x.text) args)) (x :: start :: (ts ++ [stop])) := by
  intro rest fuel hb hf
  obtain ⟨fuel, rfl⟩ : ∃ k, fuel = k + 2 :=
    Nat.exists_eq_add_of_le' (by simp only [List.length_cons] at hf; omega)
  simp only [List.length_append, List.length_cons, Phrase.overhead] at hf
  have hname : Parsed last (fuel + 1) [x] (start :: (ts ++ stop :: rest)) (.target x.text) :=
    targetName hx trivial (by simp only [Phrase.overhead, List.length_singleton]; omega)
  have ha : Parsed last (fuel + 1) ts (stop :: rest) (.argumentList args) :=
    ih hstop (by simp only [Phrase.overhead]; omega)
  simp only [Parsed, List.append_assoc, List.cons_append, List.nil_append] at hname ha ⊢
  unfold Grammar.call
  simp only [bind_ok, Prod.exists]
  refine ⟨_, _, hname, ?_⟩
  rw [peek_cons, if_pos hstart, peek_cons, if_pos hx, List.tail_cons]
  split at ha
  · next hk =>
    rw [if_pos hk]
    simp only [bind_ok, Prod.exists, expect_ok hlast]
    exact ⟨_, _, ha, _, _, ⟨rfl, hstop⟩, rfl⟩
  · next hk =>
    rw [if_neg hk]
    simp only [bind_ok, Prod.exists, expect_ok hlast]
    exact ⟨_, _, ha, _, _, ⟨rfl, hstop⟩, rfl⟩

theorem simple (ih : Complete last (.primary value) ts) : Complete last (.operand value) ts := by
  intro rest fuel hb hf
  obtain ⟨fuel, rfl⟩ := exists_succ hf (by simp [Phrase.overhead])
  simp only [Phrase.overhead] at hf
  have hv : Parsed last fuel ts rest (.primary value) :=
    ih trivial (by simp only [Phrase.overhead]; omega)
  exact call_of_primary hv hb

theorem noArguments : Complete last (.argumentList []) [] := by
  intro rest fuel hb hf
  exact if_pos hb

theorem someArguments (hts : Derives (.arguments values) ts)
    (ih : Complete last (.arguments values) ts) : Complete last (.argumentList values) ts := by
  intro rest fuel hb hf
  have hk : ¬ (peek last (ts ++ rest)).kind = .rightParen := by
    obtain ⟨t, ts, rfl, ht⟩ := opens hts
    intro hk
    rw [show t.kind = .rightParen from hk] at ht
    exact absurd ht (by decide)
  have ha : Parsed last fuel ts rest (.arguments values) := ih hb hf
  exact (if_neg hk).trans ha

theorem argument (ih : Complete last (.expression value) ts) :
    Complete last (.arguments [value]) ts := by
  intro rest fuel hb hf
  obtain ⟨fuel, rfl⟩ := exists_succ hf (by simp [Phrase.overhead])
  simp only [Phrase.overhead] at hf
  have hv : Parsed last fuel ts rest (.expression value) :=
    ih (.inr (.inl hb)) (by simp only [Phrase.overhead]; omega)
  have hk : ¬ (peek last rest).kind = .comma := by
    rw [show (peek last rest).kind = .rightParen from hb]
    decide
  simp only [Parsed] at hv ⊢
  unfold Grammar.arguments
  simp only [bind_ok, Prod.exists]
  exact ⟨_, _, hv, if_neg hk⟩

theorem moreArguments (hcomma : comma.kind = .comma) (ih : Complete last (.expression value) ts)
    (ihs : Complete last (.arguments values) us) :
    Complete last (.arguments (value :: values)) (ts ++ comma :: us) := by
  intro rest fuel hb hf
  obtain ⟨fuel, rfl⟩ := exists_succ hf (by simp [Phrase.overhead])
  simp only [List.length_append, List.length_cons, Phrase.overhead] at hf
  have hv : Parsed last fuel ts (comma :: (us ++ rest)) (.expression value) :=
    ih (.inr (.inr hcomma)) (by simp only [Phrase.overhead]; omega)
  have ha : Parsed last fuel us rest (.arguments values) :=
    ihs hb (by simp only [Phrase.overhead]; omega)
  simp only [Parsed, List.append_assoc, List.cons_append] at hv ha ⊢
  unfold Grammar.arguments
  simp only [bind_ok, Prod.exists]
  refine ⟨_, _, hv, ?_⟩
  rw [peek_cons, if_pos hcomma]
  simp only [bind_ok, Prod.exists]
  exact ⟨_, _, ha, rfl⟩

theorem name (hx : x.kind = .identifier) :
    Complete last (.primary (.identifier (.str x.text))) [x] := targetName hx

/-- A token that is a literal by itself. -/
theorem literal {k : LiteralKind} {j : Json}
    (h : ∀ fuel rest, primary last (fuel + 1) (t :: rest) = .ok (.literal k j, rest)) :
    Complete last (.primary (.literal k j)) [t] := by
  intro rest fuel _ hf
  obtain ⟨fuel, rfl⟩ := exists_succ hf (by simp [Phrase.overhead])
  exact h fuel rest

theorem number {n : Json} (ht : t.kind = .number) (hn : NumberValue t.text n) :
    Complete last (.primary (.literal .number n)) [t] := by
  refine literal fun fuel rest => ?_
  unfold Grammar.primary
  simp only [peek_cons, ht, hn.read, List.tail_cons]

theorem string (ht : t.kind = .string) :
    Complete last (.primary (.literal .string (.str t.text))) [t] := by
  refine literal fun fuel rest => ?_
  unfold Grammar.primary
  simp only [peek_cons, ht, List.tail_cons]

theorem true (ht : t.kind = .trueWord) :
    Complete last (.primary (.literal .boolean (.bool true))) [t] := by
  refine literal fun fuel rest => ?_
  unfold Grammar.primary
  simp only [peek_cons, ht, List.tail_cons]

theorem false (ht : t.kind = .falseWord) :
    Complete last (.primary (.literal .boolean (.bool false))) [t] := by
  refine literal fun fuel rest => ?_
  unfold Grammar.primary
  simp only [peek_cons, ht, List.tail_cons]

theorem null (ht : t.kind = .nullWord) : Complete last (.primary (.literal .null .null)) [t] := by
  refine literal fun fuel rest => ?_
  unfold Grammar.primary
  simp only [peek_cons, ht, List.tail_cons]

theorem group (hlast : last.kind = .endOfInput) (hstart : start.kind = .leftParen)
    (hstop : stop.kind = .rightParen) (ih : Complete last (.expression value) ts) :
    Complete last (.primary value) (start :: (ts ++ [stop])) := by
  intro rest fuel hb hf
  obtain ⟨fuel, rfl⟩ := exists_succ hf (by simp [Phrase.overhead])
  simp only [List.length_append, List.length_cons, Phrase.overhead] at hf
  have hv : Parsed last fuel ts (stop :: rest) (.expression value) :=
    ih (.inr (.inl hstop)) (by simp only [Phrase.overhead]; omega)
  simp only [Parsed, List.append_assoc, List.cons_append, List.nil_append] at hv ⊢
  unfold Grammar.primary
  simp only [peek_cons, hstart, List.tail_cons, bind_ok, Prod.exists, expect_ok hlast]
  exact ⟨_, _, hv, _, _, ⟨rfl, hstop⟩, rfl⟩

end Complete

/-- The parser takes every phrase. -/
theorem complete {last : Token} (hlast : last.kind = .endOfInput) {p : Phrase} {ts : List Token}
    (h : Derives p ts) : Complete last p ts := by
  induction h with
  | noStatements => exact Complete.noStatements
  | moreStatements hts hus ih ihs => exact Complete.moreStatements hus hts ih ihs
  | evaluate hts hstop ih => exact Complete.evaluate hlast hts hstop ih
  | declare hword hx heq _ hstop ih => exact Complete.declare hlast hword hx heq hstop ih
  | function hword hx hstart _ hstop _ ihp ihb =>
    exact Complete.function hlast hword hx hstart hstop ihp ihb
  | branch hword hstart _ hstop _ iht ihc => exact Complete.branch hlast hword hstart hstop iht ihc
  | branchElse hword hstart _ hstop _ hother _ iht ihc iha =>
    exact Complete.branchElse hlast hword hstart hstop hother iht ihc iha
  | loop hword hstart _ hstop _ iht ihb => exact Complete.loop hlast hword hstart hstop iht ihb
  | ret hword hstop => exact Complete.ret hword hstop
  | retValue hword hts hstop ih => exact Complete.retValue hlast hword hts hstop ih
  | importFile hword hx hstop => exact Complete.importFile hlast hword hx hstop
  | nested hts ih => exact Complete.nested hts ih
  | block hstart _ hstop ih => exact Complete.block hlast hstart hstop ih
  | noParameters => exact Complete.noParameters
  | someParameters hts ih => exact Complete.someParameters hts ih
  | parameter hx => exact Complete.parameter hlast hx
  | moreParameters hx hcomma _ ih => exact Complete.moreParameters hlast hx hcomma ih
  | assign _ heq _ iht ihv => exact Complete.assign heq iht ihv
  | chain _ ih => exact Complete.chain ih
  | targetName hx => exact Complete.targetName hx
  | targetGroup hstart _ hstop ih => exact Complete.targetGroup hlast hstart hstop ih
  | single _ ih => exact Complete.single ih
  | binary _ hop _ ihl ihr => exact Complete.binary hop ihl ihr
  | call hx hstart _ hstop ih => exact Complete.call hlast hx hstart hstop ih
  | simple _ ih => exact Complete.simple ih
  | noArguments => exact Complete.noArguments
  | someArguments hts ih => exact Complete.someArguments hts ih
  | argument _ ih => exact Complete.argument ih
  | moreArguments _ hcomma _ ih ihs => exact Complete.moreArguments hcomma ih ihs
  | name hx => exact Complete.name hx
  | number ht hn => exact Complete.number ht hn
  | string ht => exact Complete.string ht
  | true ht => exact Complete.true ht
  | false ht => exact Complete.false ht
  | null ht => exact Complete.null ht
  | group hstart _ hstop ih => exact Complete.group hlast hstart hstop ih

/-! ## Programs -/

theorem topLevel_complete {last : Token} (hlast : last.kind = .endOfInput) {nodes : List Node} :
    ∀ {ts : List Token} {fuel : Nat}, Derives (.statements nodes) ts → 12 * ts.length + 7 ≤ fuel →
      topLevel last fuel ts = .ok nodes := by
  induction nodes with
  | nil =>
    intro ts fuel h hf
    obtain ⟨fuel, rfl⟩ := exists_succ hf (by omega)
    cases h
    rfl
  | cons node nodes ih =>
    intro ts fuel h hf
    obtain ⟨fuel, rfl⟩ := exists_succ hf (by omega)
    cases h with
    | @moreStatements _ _ ts us hts hus =>
      obtain ⟨t, ts', rfl, ht⟩ := opens hts
      rw [List.length_append] at hf
      have hfirst : Parsed last (fuel + 1) (t :: ts') us (.statement node) := by
        refine complete hlast hts ?_ (by simp only [Phrase.overhead]; omega)
        rcases opens hus with rfl | ⟨u, us', rfl, hu⟩
        · rw [Phrase.Before, show (peek last []).kind = .endOfInput from hlast]
          decide
        · exact hu.1
      have hmore : topLevel last fuel us = .ok nodes :=
        ih hus (by simp only [List.length_cons] at hf; omega)
      simp only [Parsed] at hfirst
      unfold topLevel
      rw [if_neg (by simp)]
      simp only [bind_ok, Prod.exists]
      exact ⟨_, _, hfirst, _, hmore, rfl⟩

theorem ofTokens_append {ts : List Token} {last : Token} (hts : Scanned ts)
    (hlast : last.kind = .endOfInput) :
    Program.ofTokens (ts ++ [last]) =
      topLevel last (fuelFor ts.length) ts >>= fun nodes => pure ⟨nodes⟩ := by
  have hbefore : (ts ++ [last]).takeWhile (fun t => decide (t.kind ≠ .endOfInput)) = ts := by
    rw [List.takeWhile_append_of_pos fun t ht => decide_eq_true (hts t ht).ne_endOfInput]
    simp [hlast]
  have hstream : TokenStream.ofTokens? (ts ++ [last]) = some ⟨ts, last⟩ := by
    rw [TokenStream.ofTokens?, List.getLast?_concat]
    simp only [hlast, if_true, hbefore, List.drop_left]
    rfl
  rw [Program.ofTokens, hstream]
  rfl

/-- A list of scanned tokens before the end of the input is parsed as a program exactly if the
grammar derives it, and it derives no other. -/
theorem ofTokens_iff_derives (ts : List Token) (last : Token) (hts : Scanned ts)
    (hlast : last.kind = .endOfInput) :
    (∀ p : Program,
      Program.ofTokens (ts ++ [last]) = .ok p ↔ Derives (.statements p.statements) ts) ∧
      ∀ p q : Program, Derives (.statements p.statements) ts →
        Derives (.statements q.statements) ts → p = q := by
  have hiff : ∀ p : Program,
      Program.ofTokens (ts ++ [last]) = .ok p ↔ Derives (.statements p.statements) ts := by
    intro p
    rw [ofTokens_append hts hlast]
    simp only [bind_ok]
    constructor
    · rintro ⟨nodes, hn, h⟩
      cases h
      exact topLevel_sound hlast hts hn
    · intro h
      exact ⟨p.statements, topLevel_complete hlast h (by rw [fuelFor]; omega), rfl⟩
  refine ⟨hiff, fun p q hp hq => ?_⟩
  exact Except.ok.inj (((hiff p).mpr hp).symm.trans ((hiff q).mpr hq))

/-- The tokens of `a = (b) = c - d - e;`. -/
def assignments : List Token :=
  [⟨.identifier, "a", ⟨1, 1⟩⟩, ⟨.equals, "=", ⟨1, 3⟩⟩, ⟨.leftParen, "(", ⟨1, 5⟩⟩,
    ⟨.identifier, "b", ⟨1, 6⟩⟩, ⟨.rightParen, ")", ⟨1, 7⟩⟩, ⟨.equals, "=", ⟨1, 9⟩⟩,
    ⟨.identifier, "c", ⟨1, 11⟩⟩, ⟨.binaryOperator, "-", ⟨1, 13⟩⟩, ⟨.identifier, "d", ⟨1, 15⟩⟩,
    ⟨.binaryOperator, "-", ⟨1, 17⟩⟩, ⟨.identifier, "e", ⟨1, 19⟩⟩, ⟨.semicolon, ";", ⟨1, 20⟩⟩]

theorem scanned_assignments : Scanned assignments := by
  intro t ht
  simp only [assignments, List.mem_cons, List.not_mem_nil, or_false] at ht
  rcases ht with rfl | rfl | rfl | rfl | rfl | rfl | rfl | rfl | rfl | rfl | rfl | rfl
  · exact ⟨'a', [], 0, by decide⟩
  · exact ⟨'=', [], 0, by decide⟩
  · exact ⟨'(', [], 0, by decide⟩
  · exact ⟨'b', [], 0, by decide⟩
  · exact ⟨')', [], 0, by decide⟩
  · exact ⟨'=', [], 0, by decide⟩
  · exact ⟨'c', [], 0, by decide⟩
  · exact ⟨'-', [], 0, by decide⟩
  · exact ⟨'d', [], 0, by decide⟩
  · exact ⟨'-', [], 0, by decide⟩
  · exact ⟨'e', [], 0, by decide⟩
  · exact ⟨';', [], 0, by decide⟩

/-- Assignments group to the right and differences to the left. -/
theorem assignments_derive :
    Derives (.statements [.expression (.binary (.identifier (.str "a")) (.str "=")
      (.binary (.identifier (.str "b")) (.str "=")
        (.binary (.binary (.identifier (.str "c")) (.str "-") (.identifier (.str "d"))) (.str "-")
          (.identifier (.str "e")))))]) assignments :=
  ((ofTokens_iff_derives assignments ⟨.endOfInput, "EOF", ⟨1, 21⟩⟩ scanned_assignments rfl).1
    ⟨_⟩).mp rfl

end ScriptLang.Grammar
