import ScriptLang.Proofs.Grammar.Completeness
import ScriptLang.Proofs.Grammar.Steps

/-!
# The parser never runs out of fuel

The fuel of a parse is enough for its tokens, whatever they are. Each function of the parser needs
some fuel for every token and some beside, because a chain of calls that takes no token is short: from
a statement down to a primary expression there are seven.

Results:
* `enough`: each function of the parser gets by with the fuel it needs;
* `toEnd_enough`: so does a whole parse.
-/
namespace ScriptLang.Grammar

namespace Parse

variable {α β : Type}

/-- On these tokens the computation does not run out of fuel, and it takes at least `n` tokens if it
succeeds. -/
structure Bounded (n : Nat) (x : Parse α) (ts : List Token) : Prop where
  fuel : x ts ≠ .error .outOfFuel
  takes : ∀ a rest, x ts = .ok (a, rest) → rest.length + n ≤ ts.length

namespace Bounded

variable {n m : Nat} {x y : Parse α} {f : α → Parse β} {ts : List Token} {last : Token}

theorem mono (h : Bounded n x ts) (hle : m ≤ n) : Bounded m x ts where
  fuel := h.fuel
  takes a rest hok := by
    have := h.takes a rest hok
    omega

theorem pure (a : α) : Bounded 0 (Pure.pure a) ts where
  fuel := by rintro ⟨⟩
  takes := by
    rintro b rest ⟨⟩
    exact Nat.le_refl _

theorem fail {e : ParseError} (he : e ≠ .outOfFuel) : Bounded n (fail e : Parse α) ts where
  fuel h := he (Except.error.inj h)
  takes := by rintro a rest ⟨⟩

theorem bind (hx : Bounded n x ts)
    (hf : ∀ a rest, rest.length + n ≤ ts.length → Bounded (m - n) (f a) rest) :
    Bounded m (x >>= f) ts := by
  cases h : x ts with
  | error e =>
    have he : e ≠ .outOfFuel := fun he => hx.fuel (he ▸ h)
    refine ⟨fun hrun => ?_, fun a rest hrun => ?_⟩
    · exact he (Except.error.inj ((bind_of_error h).symm.trans hrun))
    · cases (bind_of_error h).symm.trans hrun
  | ok r =>
    obtain ⟨a, rest⟩ := r
    have htakes := hx.takes a rest h
    obtain ⟨hfuel, hrest⟩ := hf a rest htakes
    refine ⟨fun hrun => hfuel ((bind_of_ok h).symm.trans hrun), fun b rest' hrun => ?_⟩
    have := hrest b rest' ((bind_of_ok h).symm.trans hrun)
    omega

theorem expect (hlast : last.kind = .endOfInput) (slot : Slot) :
    Bounded 1 (Grammar.expect last slot) ts where
  fuel := by
    unfold Grammar.expect
    split <;> rintro ⟨⟩
  takes t rest h := by
    obtain ⟨rfl, -⟩ := (expect_ok hlast).mp h
    rfl

theorem next {f : Token → Parse β} (hf : Bounded n (f (peek last ts)) ts) :
    Bounded n (next last >>= f) ts where
  fuel := hf.fuel
  takes := hf.takes

theorem skip {t : Token} {f : Unit → Parse β} (hf : Bounded n (f ()) ts) :
    Bounded (n + 1) (skip >>= f) (t :: ts) where
  fuel := hf.fuel
  takes a rest h := by
    have := hf.takes a rest h
    rw [List.length_cons]
    omega

theorem ifNext {c : Token → Prop} [DecidablePred c] (hx : c (peek last ts) → Bounded n x ts)
    (hy : Bounded n y ts) : Bounded n (ifNext last c x y) ts := by
  by_cases h : c (peek last ts)
  · have hrun : Parse.ifNext last c x y ts = x ts := if_pos h
    exact ⟨hrun ▸ (hx h).fuel, fun a rest hok => (hx h).takes a rest (hrun ▸ hok)⟩
  · have hrun : Parse.ifNext last c x y ts = y ts := if_neg h
    exact ⟨hrun ▸ hy.fuel, fun a rest hok => hy.takes a rest (hrun ▸ hok)⟩

theorem byNext {x : TokenKind → Parse α} (hx : Bounded n (x (peek last ts).kind) ts) :
    Bounded n (byNext last x) ts where
  fuel := hx.fuel
  takes := hx.takes

/-- A choice of something to take if the next token is of one class. -/
theorem ifKind (hlast : last.kind = .endOfInput) {kind : TokenKind} (hkind : kind ≠ .endOfInput)
    {f : Unit → Parse α} (hf : ∀ t rest, ts = t :: rest → Bounded n (f ()) rest)
    (hy : Bounded n y ts) :
    Bounded n (Parse.ifNext last (·.kind = kind) (Parse.skip >>= f) y) ts := by
  refine ifNext (fun hk => ?_) hy
  obtain ⟨t, rest, rfl, -⟩ := cons_of_peek hlast hkind hk
  exact ⟨(hf t rest rfl).fuel, fun a rest' h => Nat.le_succ_of_le ((hf t rest rfl).takes a rest' h)⟩

/-- Nothing or some items before a closing parenthesis. -/
theorem upToParen {items : Parse (List α)} (h : Bounded n items ts) :
    Bounded 0 (upToParen last items) ts :=
  ifNext (fun _ => .pure _) (h.mono (Nat.zero_le _))

theorem untilStop {stop : List Token → Bool} {items : Parse (List α)}
    (h : stop ts = false → Bounded 0 items ts) : Bounded 0 (untilStop stop items) ts := by
  cases hstop : stop ts with
  | true =>
    have hrun : Parse.untilStop stop items ts = .ok ([], ts) := if_pos hstop
    refine ⟨by rw [hrun]; rintro ⟨⟩, fun a rest hok => ?_⟩
    cases hrun.symm.trans hok
    exact Nat.le_refl _
  | false =>
    have hrun : Parse.untilStop stop items ts = items ts := if_neg (by rw [hstop]; decide)
    exact ⟨hrun ▸ (h hstop).fuel, fun a rest hok => (h hstop).takes a rest (hrun ▸ hok)⟩

theorem single (hlast : last.kind = .endOfInput) {kind : TokenKind}
    (hk : (peek last ts).kind = kind) (hkind : kind ≠ .endOfInput) {g : Token → α} :
    Bounded 1 (single last g) ts := by
  obtain ⟨t, rest, rfl, -⟩ := cons_of_peek hlast hkind hk
  exact next (skip (.pure _))

end Bounded

end Parse

open Parse (Bounded)

variable {last : Token} {fuel : Nat}

theorem parameters_enough (hlast : last.kind = .endOfInput) {ts : List Token}
    (hf : ts.length + 1 ≤ fuel) : Bounded 1 (parameters last fuel) ts := by
  induction fuel generalizing ts with
  | zero => omega
  | succ fuel ih =>
    rw [parameters_steps]
    refine (Bounded.expect hlast _).bind fun name rest hrest => ?_
    refine Bounded.ifKind hlast (by decide) (fun t rest' hcons => ?_) (.pure _)
    rw [hcons, List.length_cons] at hrest
    exact (ih (by omega)).bind fun names _ _ => .pure _

/-- With this fuel each function of the parser gets by. -/
structure Enough (last : Token) (fuel : Nat) : Prop where
  statement : ∀ {ts : List Token}, 12 * ts.length + 7 ≤ fuel → Bounded 1 (statement last fuel) ts
  block : ∀ {ts : List Token}, 12 * ts.length + 1 ≤ fuel → Bounded 1 (block last fuel) ts
  statements : ∀ {ts : List Token}, 12 * ts.length + 8 ≤ fuel →
    Bounded 0 (statements last fuel) ts
  expression : ∀ {ts : List Token}, 12 * ts.length + 6 ≤ fuel →
    Bounded 1 (expression last fuel) ts
  infixLevel : ∀ {ts : List Token} (level : Level), 12 * ts.length + 5 ≤ fuel + level.rank →
    Bounded 1 (infixLevel last fuel level) ts
  infixRest : ∀ {ts : List Token} (level : Level) (left : Node), 12 * ts.length + 1 ≤ fuel →
    Bounded 0 (infixRest last fuel level left) ts
  call : ∀ {ts : List Token}, 12 * ts.length + 2 ≤ fuel → Bounded 1 (call last fuel) ts
  arguments : ∀ {ts : List Token}, 12 * ts.length + 7 ≤ fuel → Bounded 1 (arguments last fuel) ts
  primary : ∀ {ts : List Token}, 12 * ts.length + 1 ≤ fuel → Bounded 1 (primary last fuel) ts

namespace Enough

theorem zero (last : Token) : Enough last 0 where
  statement h := absurd h (by omega)
  block h := absurd h (by omega)
  statements h := absurd h (by omega)
  expression h := absurd h (by omega)
  infixLevel level h := absurd h (by cases level <;> simp only [Level.rank] <;> omega)
  infixRest _ _ h := absurd h (by omega)
  call h := absurd h (by omega)
  arguments h := absurd h (by omega)
  primary h := absurd h (by omega)

variable {ts : List Token}

theorem declaration (hlast : last.kind = .endOfInput) (ih : Enough last fuel)
    (hf : 12 * ts.length + 7 ≤ fuel + 1) (hk : (peek last ts).kind = .letWord) :
    Bounded 1 (declaration last fuel) ts := by
  obtain ⟨word, ts, rfl, -⟩ := cons_of_peek hlast (by decide) hk
  rw [List.length_cons] at hf
  refine Bounded.skip ((Bounded.expect hlast _).bind fun x ts₁ h₁ => ?_)
  refine (Bounded.expect hlast _).bind fun _ ts₂ h₂ => ?_
  refine (ih.expression (by omega)).bind fun value ts₃ h₃ => ?_
  exact (Bounded.expect hlast _).bind fun _ _ _ => .pure _

theorem functionDefinition (hlast : last.kind = .endOfInput) (ih : Enough last fuel)
    (hf : 12 * ts.length + 7 ≤ fuel + 1) (hk : (peek last ts).kind = .funcWord) :
    Bounded 1 (functionDefinition last fuel) ts := by
  obtain ⟨word, ts, rfl, -⟩ := cons_of_peek hlast (by decide) hk
  rw [List.length_cons] at hf
  refine Bounded.skip ((Bounded.expect hlast _).bind fun x ts₁ h₁ => ?_)
  refine (Bounded.expect hlast _).bind fun _ ts₂ h₂ => ?_
  have hparams : Bounded 1 (allParameters last) ts₂ :=
    have h := parameters_enough hlast (Nat.le_refl _)
    ⟨h.fuel, h.takes⟩
  refine (Bounded.upToParen hparams).bind fun params ts₃ h₃ => ?_
  refine (Bounded.expect hlast _).bind fun _ ts₄ h₄ => ?_
  exact (ih.block (by omega)).bind fun body _ _ => .pure _

theorem branching (hlast : last.kind = .endOfInput) (ih : Enough last fuel)
    (hf : 12 * ts.length + 7 ≤ fuel + 1) (hk : (peek last ts).kind = .ifWord) :
    Bounded 1 (branching last fuel) ts := by
  obtain ⟨word, ts, rfl, -⟩ := cons_of_peek hlast (by decide) hk
  rw [List.length_cons] at hf
  refine Bounded.skip ((Bounded.expect hlast _).bind fun _ ts₁ h₁ => ?_)
  refine (ih.expression (by omega)).bind fun test ts₂ h₂ => ?_
  refine (Bounded.expect hlast _).bind fun _ ts₃ h₃ => ?_
  refine (ih.block (by omega)).bind fun consequent ts₄ h₄ => ?_
  refine Bounded.ifKind hlast (by decide) (fun t ts₅ h₅ => ?_) (.pure _)
  rw [h₅, List.length_cons] at h₄
  exact (ih.block (by omega)).bind fun alternate _ _ => .pure _

theorem looping (hlast : last.kind = .endOfInput) (ih : Enough last fuel)
    (hf : 12 * ts.length + 7 ≤ fuel + 1) (hk : (peek last ts).kind = .whileWord) :
    Bounded 1 (looping last fuel) ts := by
  obtain ⟨word, ts, rfl, -⟩ := cons_of_peek hlast (by decide) hk
  rw [List.length_cons] at hf
  refine Bounded.skip ((Bounded.expect hlast _).bind fun _ ts₁ h₁ => ?_)
  refine (ih.expression (by omega)).bind fun test ts₂ h₂ => ?_
  refine (Bounded.expect hlast _).bind fun _ ts₃ h₃ => ?_
  exact (ih.block (by omega)).bind fun body _ _ => .pure _

theorem returning (hlast : last.kind = .endOfInput) (ih : Enough last fuel)
    (hf : 12 * ts.length + 7 ≤ fuel + 1) (hk : (peek last ts).kind = .returnWord) :
    Bounded 1 (returning last fuel) ts := by
  obtain ⟨word, ts, rfl, -⟩ := cons_of_peek hlast (by decide) hk
  rw [List.length_cons] at hf
  refine Bounded.skip (Bounded.ifKind hlast (by decide) (fun _ _ _ => .pure _) ?_)
  refine (ih.expression (by omega)).bind fun value ts₁ h₁ => ?_
  exact (Bounded.expect hlast _).bind fun _ _ _ => .pure _

theorem importing (hlast : last.kind = .endOfInput) (hk : (peek last ts).kind = .importWord) :
    Bounded 1 (importing last) ts := by
  obtain ⟨word, ts, rfl, -⟩ := cons_of_peek hlast (by decide) hk
  refine Bounded.skip ((Bounded.expect hlast _).bind fun path _ _ => ?_)
  exact (Bounded.expect hlast _).bind fun _ _ _ => .pure _

theorem statement_succ (hlast : last.kind = .endOfInput) (ih : Enough last fuel)
    (hf : 12 * ts.length + 7 ≤ fuel + 1) : Bounded 1 (Grammar.statement last (fuel + 1)) ts := by
  rw [statement_steps]
  refine Bounded.byNext ?_
  cases hk : (peek last ts).kind with
  | letWord => exact ih.declaration hlast hf hk
  | funcWord => exact ih.functionDefinition hlast hf hk
  | ifWord => exact ih.branching hlast hf hk
  | whileWord => exact ih.looping hlast hf hk
  | returnWord => exact ih.returning hlast hf hk
  | importWord => exact importing hlast hk
  | leftBrace => exact (ih.block (by omega)).bind fun body _ _ => .pure _
  | _ =>
    refine (ih.expression (by omega)).bind fun value _ _ => ?_
    exact (Bounded.expect hlast _).bind fun _ _ _ => .pure _

theorem block_succ (hlast : last.kind = .endOfInput) (ih : Enough last fuel)
    (hf : 12 * ts.length + 1 ≤ fuel + 1) : Bounded 1 (Grammar.block last (fuel + 1)) ts := by
  rw [block_steps]
  refine (Bounded.expect hlast _).bind fun _ ts₁ h₁ => ?_
  refine (ih.statements (by omega)).bind fun body ts₂ h₂ => ?_
  exact (Bounded.expect hlast _).bind fun _ _ _ => .pure _

theorem statements_succ (ih : Enough last fuel) (hf : 12 * ts.length + 8 ≤ fuel + 1) :
    Bounded 0 (Grammar.statements last (fuel + 1)) ts := by
  rw [statements_steps]
  refine Bounded.untilStop fun _ => (ih.statement (by omega)).bind fun first ts₁ h₁ => ?_
  exact (ih.statements (by omega)).bind fun more _ _ => .pure _

theorem expression_succ (hlast : last.kind = .endOfInput) (ih : Enough last fuel)
    (hf : 12 * ts.length + 6 ≤ fuel + 1) : Bounded 1 (Grammar.expression last (fuel + 1)) ts := by
  rw [expression_steps]
  refine (ih.infixLevel .comparison (by simp only [Level.rank]; omega)).bind fun left ts₁ h₁ => ?_
  cases left with
  | identifier x =>
    refine Bounded.ifKind hlast (by decide) (fun t ts₂ h₂ => ?_) (.pure _)
    rw [h₂, List.length_cons] at h₁
    exact (ih.expression (by omega)).bind fun value _ _ => .pure _
  | _ => exact Bounded.ifNext (fun _ => .next (.fail (by simp))) (.pure _)

theorem operandOf (ih : Enough last fuel) (level : Level)
    (hf : 12 * ts.length + 4 ≤ fuel + level.rank) :
    Bounded 1 (Grammar.operandOf last fuel level) ts := by
  cases level with
  | comparison => exact ih.infixLevel .additive (by simp only [Level.rank] at hf ⊢; omega)
  | additive => exact ih.infixLevel .multiplicative (by simp only [Level.rank] at hf ⊢; omega)
  | multiplicative => exact ih.call (by simp only [Level.rank] at hf; omega)

theorem infixLevel_succ (ih : Enough last fuel) (level : Level)
    (hf : 12 * ts.length + 5 ≤ fuel + 1 + level.rank) :
    Bounded 1 (Grammar.infixLevel last (fuel + 1) level) ts := by
  rw [infixLevel_steps]
  refine (ih.operandOf level (by omega)).bind fun left ts₁ h₁ => ih.infixRest level left ?_
  cases level <;> simp only [Level.rank] at hf <;> omega

theorem infixRest_succ (hlast : last.kind = .endOfInput) (ih : Enough last fuel) (level : Level)
    (left : Node) (hf : 12 * ts.length + 1 ≤ fuel + 1) :
    Bounded 0 (Grammar.infixRest last (fuel + 1) level left) ts := by
  rw [infixRest_steps]
  refine Bounded.ifNext (fun hop => .next ?_) (.pure _)
  obtain ⟨op, ts, rfl⟩ := cons_of_admits hlast hop
  rw [List.length_cons] at hf
  refine (Bounded.skip (n := 0) ?_).mono (Nat.zero_le _)
  refine (ih.operandOf level (by omega)).bind fun right ts₁ h₁ => ?_
  exact ih.infixRest level _ (by omega)

theorem call_succ (hlast : last.kind = .endOfInput) (ih : Enough last fuel)
    (hf : 12 * ts.length + 2 ≤ fuel + 1) : Bounded 1 (Grammar.call last (fuel + 1)) ts := by
  rw [call_steps]
  refine Bounded.next ((ih.primary (by omega)).bind fun callee ts₁ h₁ => ?_)
  refine Bounded.ifNext (fun hk => Bounded.ifNext (fun _ => ?_) (.next (.fail (by simp)))) (.pure _)
  obtain ⟨start, ts₂, rfl, -⟩ := cons_of_peek hlast (by decide) hk
  rw [List.length_cons] at h₁
  refine (Bounded.skip (n := 0) ?_).mono (Nat.zero_le _)
  refine (Bounded.upToParen (ih.arguments (by omega))).bind fun args ts₃ h₃ => ?_
  exact (Bounded.expect hlast _).bind fun _ _ _ => .pure _

theorem arguments_succ (hlast : last.kind = .endOfInput) (ih : Enough last fuel)
    (hf : 12 * ts.length + 7 ≤ fuel + 1) : Bounded 1 (Grammar.arguments last (fuel + 1)) ts := by
  rw [arguments_steps]
  refine (ih.expression (by omega)).bind fun first ts₁ h₁ => ?_
  refine Bounded.ifKind hlast (by decide) (fun t ts₂ h₂ => ?_) (.pure _)
  rw [h₂, List.length_cons] at h₁
  exact (ih.arguments (by omega)).bind fun more _ _ => .pure _

theorem primary_succ (hlast : last.kind = .endOfInput) (ih : Enough last fuel)
    (hf : 12 * ts.length + 1 ≤ fuel + 1) : Bounded 1 (Grammar.primary last (fuel + 1)) ts := by
  rw [primary_steps]
  refine Bounded.byNext ?_
  cases hk : (peek last ts).kind with
  | number =>
    unfold numberLiteral
    refine Bounded.next ?_
    cases Numeral.read? (peek last ts).text with
    | none => exact .fail (by simp)
    | some n => exact .single hlast hk (by decide)
  | leftParen =>
    obtain ⟨start, ts, rfl, -⟩ := cons_of_peek hlast (by decide) hk
    rw [List.length_cons] at hf
    refine Bounded.skip ((ih.expression (by omega)).bind fun value ts₁ h₁ => ?_)
    exact (Bounded.expect hlast _).bind fun _ _ _ => .pure _
  | identifier | string | trueWord | falseWord | nullWord =>
    exact .single hlast hk (by decide)
  | _ => exact .next (.fail (by simp))

end Enough

theorem enough (hlast : last.kind = .endOfInput) (fuel : Nat) : Enough last fuel := by
  induction fuel with
  | zero => exact .zero last
  | succ fuel ih =>
    exact {
      statement := ih.statement_succ hlast
      block := ih.block_succ hlast
      statements := ih.statements_succ
      expression := ih.expression_succ hlast
      infixLevel := ih.infixLevel_succ
      infixRest := ih.infixRest_succ hlast
      call := ih.call_succ hlast
      arguments := ih.arguments_succ hlast
      primary := ih.primary_succ hlast }

/-- A parse does not run out of fuel. -/
theorem toEnd_enough (hlast : last.kind = .endOfInput) {ts : List Token}
    (hf : 12 * ts.length + 7 ≤ fuel) : Bounded 0 (toEnd last fuel) ts := by
  induction fuel generalizing ts with
  | zero => omega
  | succ fuel ih =>
    rw [toEnd_steps]
    refine Bounded.untilStop fun _ => ?_
    refine ((enough hlast _).statement hf).bind fun first ts₁ h₁ => ?_
    exact (ih (by omega)).bind fun more _ _ => .pure _

end ScriptLang.Grammar
