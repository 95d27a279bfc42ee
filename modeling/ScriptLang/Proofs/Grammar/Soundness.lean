import ScriptLang.Proofs.Grammar.Numbers

/-!
# Soundness of the parser

What the parser takes off the front of the tokens is a phrase of the grammar, and the tree it builds
is the one that the grammar assigns to that phrase. By induction on the fuel, with one case for each
function of the parser.

Results:
* `sound`: whatever the fuel, each function takes a phrase;
* `topLevel_sound`: a list of tokens that is a program derives its statements.
-/
namespace ScriptLang.Grammar

/-! ## Single steps -/

theorem bind_ok {ε α β : Type} {x : Except ε α} {f : α → Except ε β} {b : β} :
    (x >>= f) = .ok b ↔ ∃ a, x = .ok a ∧ f a = .ok b := by
  constructor
  · intro h
    cases x with
    | ok a => exact ⟨a, rfl, h⟩
    | error e => cases h
  · rintro ⟨a, rfl, h⟩
    exact h

/-- A class of tokens that is not the end of the input can only be seen on a token of the list. -/
theorem cons_of_peek {last : Token} (hlast : last.kind = .endOfInput) {ts : List Token}
    {k : TokenKind} (hk : k ≠ .endOfInput) (h : (peek last ts).kind = k) :
    ∃ t rest, ts = t :: rest ∧ t.kind = k := by
  cases ts with
  | nil => exact absurd (h.symm.trans hlast) hk
  | cons t rest => exact ⟨t, rest, rfl, h⟩

theorem slot_kind_ne (slot : Slot) : slot.kind ≠ .endOfInput := by
  cases slot <;> decide

theorem expect_ok {last : Token} (hlast : last.kind = .endOfInput) {slot : Slot} {t : Token}
    {ts rest : List Token} :
    expect last slot ts = .ok (t, rest) ↔ ts = t :: rest ∧ t.kind = slot.kind := by
  constructor
  · intro h
    rw [expect] at h
    split at h
    · next hk =>
      obtain ⟨u, us, rfl, hu⟩ := cons_of_peek hlast (slot_kind_ne slot) hk
      cases h
      exact ⟨rfl, hu⟩
    · cases h
  · rintro ⟨rfl, hk⟩
    exact if_pos hk

theorem Level.admits_iff (level : Level) (t : Token) : level.admits t = true ↔ level.Has t := by
  cases level <;> simp [Level.admits, Level.Has]

theorem cons_of_admits {last : Token} (hlast : last.kind = .endOfInput) {level : Level}
    {ts : List Token} (h : level.admits (peek last ts) = true) : ∃ t rest, ts = t :: rest := by
  cases ts with
  | nil =>
    have hl : level.Has last := (level.admits_iff last).mp h
    cases level <;> simp [Level.Has, hlast] at hl
  | cons t rest => exact ⟨t, rest, rfl⟩

/-- Tokens that the scanner makes. -/
def Scanned (ts : List Token) : Prop := ∀ t ∈ ts, Lexed t

theorem Scanned.tail {t : Token} {ts : List Token} (h : Scanned (t :: ts)) : Scanned ts :=
  (List.forall_mem_cons.mp h).2

theorem Scanned.right {ts us : List Token} (h : Scanned (ts ++ us)) : Scanned us :=
  (List.forall_mem_append.mp h).2

/-! ## Levels -/

/-- Takes an operand of a level. -/
def operandOf (last : Token) (fuel : Nat) (level : Level) (ts : List Token) :
    Except ParseError (Node × List Token) :=
  match level.tighter? with
  | some tighter => infixLevel last fuel tighter ts
  | none => call last fuel ts

theorem infixLevel_succ (last : Token) (fuel : Nat) (level : Level) (ts : List Token) :
    infixLevel last (fuel + 1) level ts =
      operandOf last fuel level ts >>= fun r => infixRest last fuel level r.1 r.2 := by
  cases level <;> rw [infixLevel] <;> rfl

theorem infixRest_succ (last : Token) (fuel : Nat) (level : Level) (left : Node)
    (ts : List Token) :
    infixRest last (fuel + 1) level left ts =
      if level.admits (peek last ts) then
        operandOf last fuel level ts.tail >>= fun r =>
          infixRest last fuel level (.binary left (.str (peek last ts).text) r.1) r.2
      else .ok (left, ts) := by
  cases level <;> rw [infixRest] <;> rfl

/-! ## Names -/

/-- The tree of an expression of any kind. -/
def Phrase.value? : Phrase → Option Node
  | .expression value | .level _ value | .operand value | .primary value => some value
  | _ => none

theorem Level.value_inner (level : Level) (value : Node) :
    (level.inner value).value? = some value := by
  cases level <;> rfl

/-- An expression that is a name is one that can be assigned to. -/
theorem target_of_name {p : Phrase} {ts : List Token} (h : Derives p ts) {j : Json}
    (hj : p.value? = some (.identifier j)) : ∃ x, j = .str x ∧ Derives (.target x) ts := by
  induction h with
  | chain _ ih => exact ih hj
  | single _ ih =>
    obtain rfl := Option.some.inj hj
    exact ih (Level.value_inner _ _)
  | simple _ ih => exact ih hj
  | name hx =>
    cases hj
    exact ⟨_, rfl, .targetName hx⟩
  | group hstart _ hstop ih =>
    obtain ⟨x, rfl, hx⟩ := ih hj
    exact ⟨x, rfl, .targetGroup hstart hx hstop⟩
  | _ => cases hj

/-! ## Phrases -/

/-- The function takes phrases off the front of scanned tokens. -/
def Takes {α : Type} (p : α → Phrase) (f : List Token → Except ParseError (α × List Token)) :
    Prop :=
  ∀ {ts a rest}, Scanned ts → f ts = .ok (a, rest) → ∃ us, ts = us ++ rest ∧ Derives (p a) us

/-- The functions of the parser take phrases with a given amount of fuel. -/
structure Sound (last : Token) (fuel : Nat) : Prop where
  statement : Takes .statement (statement last fuel)
  block : Takes .block (block last fuel)
  statements : Takes .statements (statements last fuel)
  expression : Takes .expression (expression last fuel)
  infixLevel : ∀ level, Takes (.level level) (infixLevel last fuel level)
  /-- The level goes on from an expression `left` that has been taken. -/
  infixRest : ∀ {level left us ts a rest}, Derives (.level level left) us → Scanned ts →
    infixRest last fuel level left ts = .ok (a, rest) →
    ∃ vs, ts = vs ++ rest ∧ Derives (.level level a) (us ++ vs)
  call : Takes .operand (call last fuel)
  arguments : Takes .arguments (arguments last fuel)
  primary : Takes .primary (primary last fuel)

theorem parameters_takes {last : Token} (hlast : last.kind = .endOfInput) (fuel : Nat) :
    Takes .parameters (parameters last fuel) := by
  induction fuel with
  | zero =>
    intro ts a rest _ h
    cases h
  | succ fuel ih =>
    intro ts a rest hts h
    unfold parameters at h
    simp only [bind_ok, Prod.exists, expect_ok hlast] at h
    obtain ⟨x, ts₁, ⟨rfl, hx⟩, h⟩ := h
    split at h
    · next hk =>
      obtain ⟨comma, ts₂, rfl, hcomma⟩ := cons_of_peek hlast (by decide) hk
      simp only [bind_ok, Prod.exists] at h
      obtain ⟨names, ts₃, hnames, h⟩ := h
      obtain ⟨us, rfl, hus⟩ := ih hts.tail.tail hnames
      cases h
      exact ⟨x :: comma :: us, rfl, .moreParameters hx hcomma hus⟩
    · cases h
      exact ⟨[x], rfl, .parameter hx⟩

/-- The list of parameters between the parentheses of a function. -/
theorem parameterList_takes {last : Token} (hlast : last.kind = .endOfInput) :
    Takes .parameterList fun ts =>
      if (peek last ts).kind = .rightParen then .ok ([], ts)
      else parameters last (ts.length + 1) ts := by
  intro ts a rest hts h
  dsimp only at h
  split at h
  · cases h
    exact ⟨[], rfl, .noParameters⟩
  · obtain ⟨us, rfl, hus⟩ := parameters_takes hlast _ hts h
    exact ⟨us, rfl, .someParameters hus⟩

namespace Sound

variable {last : Token} {fuel : Nat}

theorem zero (last : Token) : Sound last 0 where
  statement _ h := by unfold Grammar.statement at h; cases h
  block _ h := by unfold Grammar.block at h; cases h
  statements _ h := by unfold Grammar.statements at h; cases h
  expression _ h := by unfold Grammar.expression at h; cases h
  infixLevel _ _ _ _ _ h := by unfold Grammar.infixLevel at h; cases h
  infixRest _ _ h := by unfold Grammar.infixRest at h; cases h
  call _ h := by unfold Grammar.call at h; cases h
  arguments _ h := by unfold Grammar.arguments at h; cases h
  primary _ h := by unfold Grammar.primary at h; cases h

theorem statement_succ (hlast : last.kind = .endOfInput) (ih : Sound last fuel) :
    Takes .statement (Grammar.statement last (fuel + 1)) := by
  intro ts a rest hts h
  unfold Grammar.statement at h
  split at h
  · next hk =>
    obtain ⟨word, ts, rfl, hword⟩ := cons_of_peek hlast (by decide) hk
    simp only [bind_ok, Prod.exists, expect_ok hlast] at h
    obtain ⟨x, ts₁, ⟨rfl, hx⟩, eq, ts₂, ⟨rfl, heq⟩, value, ts₃, hv, stop, ts₄, ⟨rfl, hstop⟩, h⟩ := h
    obtain ⟨us, rfl, hus⟩ := ih.expression hts.tail.tail.tail hv
    cases h
    refine ⟨_, ?_, .declare hword hx heq hus hstop⟩
    simp
  · next hk =>
    obtain ⟨word, ts, rfl, hword⟩ := cons_of_peek hlast (by decide) hk
    simp only [bind_ok, Prod.exists, expect_ok hlast] at h
    obtain ⟨x, ts₁, ⟨rfl, hx⟩, start, ts₂, ⟨rfl, hstart⟩, h⟩ := h
    have after : ∃ params ts₃, (∃ us, ts₂ = us ++ ts₃ ∧ Derives (.parameterList params) us) ∧
        ∃ stop ts₄, (ts₃ = stop :: ts₄ ∧ stop.kind = .rightParen) ∧
        ∃ body, Grammar.block last fuel ts₄ = .ok (body, rest) ∧
          a = .function (.str x.text) params body := by
      split at h
      · next hk =>
        simp only [bind_ok, Prod.exists, expect_ok hlast] at h
        obtain ⟨params, ts₃, hp, stop, ts₄, hstop, body, ts₅, hb, h⟩ := h
        cases h
        have hlist := parameterList_takes hlast hts.tail.tail.tail ((if_pos hk).trans hp)
        exact ⟨params, ts₃, hlist, stop, ts₄, hstop, body, hb, rfl⟩
      · next hk =>
        simp only [bind_ok, Prod.exists, expect_ok hlast] at h
        obtain ⟨params, ts₃, hp, stop, ts₄, hstop, body, ts₅, hb, h⟩ := h
        cases h
        have hlist := parameterList_takes hlast hts.tail.tail.tail ((if_neg hk).trans hp)
        exact ⟨params, ts₃, hlist, stop, ts₄, hstop, body, hb, rfl⟩
    obtain ⟨params, ts₃, ⟨us, rfl, hus⟩, stop, ts₄, ⟨rfl, hstop⟩, body, hb, rfl⟩ := after
    obtain ⟨vs, rfl, hvs⟩ := ih.block hts.tail.tail.tail.right.tail hb
    refine ⟨_, ?_, .function hword hx hstart hus hstop hvs⟩
    simp
  · next hk =>
    obtain ⟨word, ts, rfl, hword⟩ := cons_of_peek hlast (by decide) hk
    simp only [bind_ok, Prod.exists, expect_ok hlast] at h
    obtain ⟨start, ts₁, ⟨rfl, hstart⟩, test, ts₂, ht, stop, ts₃, ⟨rfl, hstop⟩, h⟩ := h
    obtain ⟨consequent, ts₄, hc, h⟩ := h
    obtain ⟨us, rfl, hus⟩ := ih.expression hts.tail.tail ht
    obtain ⟨vs, rfl, hvs⟩ := ih.block hts.tail.tail.right.tail hc
    split at h
    · next hk =>
      obtain ⟨other, ts₅, rfl, hother⟩ := cons_of_peek hlast (by decide) hk
      simp only [bind_ok, Prod.exists] at h
      obtain ⟨alternate, ts₆, ha, h⟩ := h
      obtain ⟨ws, rfl, hws⟩ := ih.block hts.tail.tail.right.tail.right.tail ha
      cases h
      refine ⟨_, ?_, .branchElse hword hstart hus hstop hvs hother hws⟩
      simp
    · cases h
      refine ⟨_, ?_, .branch hword hstart hus hstop hvs⟩
      simp
  · next hk =>
    obtain ⟨word, ts, rfl, hword⟩ := cons_of_peek hlast (by decide) hk
    simp only [bind_ok, Prod.exists, expect_ok hlast] at h
    obtain ⟨start, ts₁, ⟨rfl, hstart⟩, test, ts₂, ht, stop, ts₃, ⟨rfl, hstop⟩, h⟩ := h
    obtain ⟨body, ts₄, hb, h⟩ := h
    obtain ⟨us, rfl, hus⟩ := ih.expression hts.tail.tail ht
    obtain ⟨vs, rfl, hvs⟩ := ih.block hts.tail.tail.right.tail hb
    cases h
    refine ⟨_, ?_, .loop hword hstart hus hstop hvs⟩
    simp
  · next hk =>
    obtain ⟨word, ts, rfl, hword⟩ := cons_of_peek hlast (by decide) hk
    split at h
    · next hk =>
      obtain ⟨stop, ts₁, rfl, hstop⟩ := cons_of_peek hlast (by decide) hk
      cases h
      exact ⟨[word, stop], rfl, .ret hword hstop⟩
    · simp only [bind_ok, Prod.exists, expect_ok hlast] at h
      obtain ⟨value, ts₁, hv, stop, ts₂, ⟨rfl, hstop⟩, h⟩ := h
      obtain ⟨us, rfl, hus⟩ := ih.expression hts.tail hv
      cases h
      refine ⟨_, ?_, .retValue hword hus hstop⟩
      simp
  · next hk =>
    obtain ⟨word, ts, rfl, hword⟩ := cons_of_peek hlast (by decide) hk
    simp only [bind_ok, Prod.exists, expect_ok hlast] at h
    obtain ⟨x, ts₁, ⟨rfl, hx⟩, stop, ts₂, ⟨rfl, hstop⟩, h⟩ := h
    cases h
    exact ⟨[word, x, stop], rfl, .importFile hword hx hstop⟩
  · simp only [bind_ok, Prod.exists] at h
    obtain ⟨body, ts₁, hb, h⟩ := h
    obtain ⟨us, rfl, hus⟩ := ih.block hts hb
    cases h
    exact ⟨us, rfl, .nested hus⟩
  · simp only [bind_ok, Prod.exists, expect_ok hlast] at h
    obtain ⟨value, ts₁, hv, stop, ts₂, ⟨rfl, hstop⟩, h⟩ := h
    obtain ⟨us, rfl, hus⟩ := ih.expression hts hv
    cases h
    refine ⟨_, ?_, .evaluate hus hstop⟩
    simp

theorem block_succ (hlast : last.kind = .endOfInput) (ih : Sound last fuel) :
    Takes .block (Grammar.block last (fuel + 1)) := by
  intro ts a rest hts h
  unfold Grammar.block at h
  simp only [bind_ok, Prod.exists, expect_ok hlast] at h
  obtain ⟨start, ts₁, ⟨rfl, hstart⟩, body, ts₂, hb, stop, ts₃, ⟨rfl, hstop⟩, h⟩ := h
  obtain ⟨us, rfl, hus⟩ := ih.statements hts.tail hb
  cases h
  refine ⟨_, ?_, .block hstart hus hstop⟩
  simp

theorem statements_succ (ih : Sound last fuel) :
    Takes .statements (Grammar.statements last (fuel + 1)) := by
  intro ts a rest hts h
  unfold Grammar.statements at h
  split at h
  · cases h
    exact ⟨[], rfl, .noStatements⟩
  · simp only [bind_ok, Prod.exists] at h
    obtain ⟨first, ts₁, hf, more, ts₂, hm, h⟩ := h
    obtain ⟨us, rfl, hus⟩ := ih.statement hts hf
    obtain ⟨vs, rfl, hvs⟩ := ih.statements hts.right hm
    cases h
    refine ⟨_, ?_, .moreStatements hus hvs⟩
    simp

theorem expression_succ (hlast : last.kind = .endOfInput) (ih : Sound last fuel) :
    Takes .expression (Grammar.expression last (fuel + 1)) := by
  intro ts a rest hts h
  unfold Grammar.expression at h
  simp only [bind_ok, Prod.exists] at h
  obtain ⟨left, ts₁, hl, h⟩ := h
  obtain ⟨us, rfl, hus⟩ := ih.infixLevel .comparison hts hl
  split at h
  · next hk =>
    obtain ⟨eq, ts₂, rfl, heq⟩ := cons_of_peek hlast (by decide) hk
    split at h
    · next j =>
      simp only [bind_ok, Prod.exists] at h
      obtain ⟨value, ts₃, hv, h⟩ := h
      obtain ⟨vs, rfl, hvs⟩ := ih.expression hts.right.tail hv
      obtain ⟨x, rfl, hx⟩ := target_of_name hus rfl
      cases h
      refine ⟨_, ?_, .assign hx heq hvs⟩
      simp
    · cases h
  · cases h
    exact ⟨us, rfl, .chain hus⟩

theorem operandOf (ih : Sound last fuel) (level : Level) :
    Takes level.inner (Grammar.operandOf last fuel level) := by
  cases level with
  | comparison => exact ih.infixLevel .additive
  | additive => exact ih.infixLevel .multiplicative
  | multiplicative => exact ih.call

theorem infixLevel_succ (ih : Sound last fuel) (level : Level) :
    Takes (.level level) (Grammar.infixLevel last (fuel + 1) level) := by
  intro ts a rest hts h
  rw [Grammar.infixLevel_succ] at h
  simp only [bind_ok, Prod.exists] at h
  obtain ⟨left, ts₁, hl, h⟩ := h
  obtain ⟨us, rfl, hus⟩ := ih.operandOf level hts hl
  obtain ⟨vs, rfl, hvs⟩ := ih.infixRest (.single hus) hts.right h
  exact ⟨us ++ vs, (List.append_assoc _ _ _).symm, hvs⟩

theorem infixRest_succ (hlast : last.kind = .endOfInput) (ih : Sound last fuel) {level : Level}
    {left a : Node} {us ts rest : List Token} (hus : Derives (.level level left) us)
    (hts : Scanned ts) (h : Grammar.infixRest last (fuel + 1) level left ts = .ok (a, rest)) :
    ∃ vs, ts = vs ++ rest ∧ Derives (.level level a) (us ++ vs) := by
  rw [Grammar.infixRest_succ] at h
  split at h
  · next hop =>
    obtain ⟨op, ts, rfl⟩ := cons_of_admits hlast hop
    simp only [bind_ok, Prod.exists] at h
    obtain ⟨right, ts₁, hr, h⟩ := h
    obtain ⟨vs, rfl, hvs⟩ := ih.operandOf level hts.tail hr
    obtain ⟨ws, rfl, hws⟩ :=
      ih.infixRest (.binary hus ((level.admits_iff op).mp hop) hvs) hts.tail.right h
    refine ⟨op :: vs ++ ws, by simp, ?_⟩
    rwa [← List.append_assoc]
  · cases h
    exact ⟨[], rfl, by rwa [List.append_nil]⟩

theorem arguments_succ (hlast : last.kind = .endOfInput) (ih : Sound last fuel) :
    Takes .arguments (Grammar.arguments last (fuel + 1)) := by
  intro ts a rest hts h
  unfold Grammar.arguments at h
  simp only [bind_ok, Prod.exists] at h
  obtain ⟨first, ts₁, hf, h⟩ := h
  obtain ⟨us, rfl, hus⟩ := ih.expression hts hf
  split at h
  · next hk =>
    obtain ⟨comma, ts₂, rfl, hcomma⟩ := cons_of_peek hlast (by decide) hk
    simp only [bind_ok, Prod.exists] at h
    obtain ⟨more, ts₃, hm, h⟩ := h
    obtain ⟨vs, rfl, hvs⟩ := ih.arguments hts.right.tail hm
    cases h
    refine ⟨_, ?_, .moreArguments hus hcomma hvs⟩
    simp
  · cases h
    exact ⟨us, rfl, .argument hus⟩

/-- The list of arguments between the parentheses of a call. -/
theorem argumentList (ih : Sound last fuel) :
    Takes .argumentList fun ts =>
      if (peek last ts).kind = .rightParen then .ok ([], ts)
      else Grammar.arguments last fuel ts := by
  intro ts a rest hts h
  dsimp only at h
  split at h
  · cases h
    exact ⟨[], rfl, .noArguments⟩
  · obtain ⟨us, rfl, hus⟩ := ih.arguments hts h
    exact ⟨us, rfl, .someArguments hus⟩

theorem primary_name {x : Token} (hx : x.kind = .identifier) {ts rest : List Token} {node : Node}
    (h : Grammar.primary last fuel (x :: ts) = .ok (node, rest)) : rest = ts := by
  cases fuel with
  | zero => unfold Grammar.primary at h; cases h
  | succ fuel =>
    unfold Grammar.primary at h
    simp only [peek, List.headD_cons, hx] at h
    cases h
    rfl

theorem call_succ (hlast : last.kind = .endOfInput) (ih : Sound last fuel) :
    Takes .operand (Grammar.call last (fuel + 1)) := by
  intro ts a rest hts h
  unfold Grammar.call at h
  simp only [bind_ok, Prod.exists] at h
  obtain ⟨callee, ts₁, hc, h⟩ := h
  split at h
  · next hk =>
    split at h
    · next hs =>
      obtain ⟨x, ts, rfl, hx⟩ := cons_of_peek hlast (by decide) hs
      obtain rfl := primary_name hx hc
      obtain ⟨start, ts, rfl, hstart⟩ := cons_of_peek hlast (by decide) hk
      have after : ∃ args ts₁, (∃ us, ts = us ++ ts₁ ∧ Derives (.argumentList args) us) ∧
          ∃ stop, (ts₁ = stop :: rest ∧ stop.kind = .rightParen) ∧
            a = .call (.str x.text) args := by
        split at h
        · next hp =>
          simp only [bind_ok, Prod.exists, expect_ok hlast] at h
          obtain ⟨args, ts₁, ha, stop, ts₂, hstop, h⟩ := h
          cases h
          exact ⟨args, ts₁, ih.argumentList hts.tail.tail ((if_pos hp).trans ha), stop, hstop, rfl⟩
        · next hp =>
          simp only [bind_ok, Prod.exists, expect_ok hlast] at h
          obtain ⟨args, ts₁, ha, stop, ts₂, hstop, h⟩ := h
          cases h
          exact ⟨args, ts₁, ih.argumentList hts.tail.tail ((if_neg hp).trans ha), stop, hstop, rfl⟩
      obtain ⟨args, ts₁, ⟨us, rfl, hus⟩, stop, ⟨rfl, hstop⟩, rfl⟩ := after
      refine ⟨_, ?_, .call hx hstart hus hstop⟩
      simp
    · cases h
  · cases h
    obtain ⟨us, rfl, hus⟩ := ih.primary hts hc
    exact ⟨us, rfl, .simple hus⟩

theorem primary_succ (hlast : last.kind = .endOfInput) (ih : Sound last fuel) :
    Takes .primary (Grammar.primary last (fuel + 1)) := by
  intro ts a rest hts h
  unfold Grammar.primary at h
  dsimp only at h
  split at h
  · next hk =>
    obtain ⟨t, ts, rfl, ht⟩ := cons_of_peek hlast (by decide) hk
    cases h
    exact ⟨[t], rfl, .name ht⟩
  · next hk =>
    obtain ⟨t, ts, rfl, ht⟩ := cons_of_peek hlast (by decide) hk
    obtain ⟨n, hn⟩ := (hts t List.mem_cons_self).number ht
    rw [show Numeral.read? (peek last (t :: ts)).text = some n from hn.read] at h
    cases h
    exact ⟨[t], rfl, .number ht hn⟩
  · next hk =>
    obtain ⟨t, ts, rfl, ht⟩ := cons_of_peek hlast (by decide) hk
    cases h
    exact ⟨[t], rfl, .string ht⟩
  · next hk =>
    obtain ⟨t, ts, rfl, ht⟩ := cons_of_peek hlast (by decide) hk
    cases h
    exact ⟨[t], rfl, .true ht⟩
  · next hk =>
    obtain ⟨t, ts, rfl, ht⟩ := cons_of_peek hlast (by decide) hk
    cases h
    exact ⟨[t], rfl, .false ht⟩
  · next hk =>
    obtain ⟨t, ts, rfl, ht⟩ := cons_of_peek hlast (by decide) hk
    cases h
    exact ⟨[t], rfl, .null ht⟩
  · next hk =>
    obtain ⟨start, ts, rfl, hstart⟩ := cons_of_peek hlast (by decide) hk
    simp only [bind_ok, Prod.exists, expect_ok hlast] at h
    obtain ⟨value, ts₁, hv, stop, ts₂, ⟨rfl, hstop⟩, h⟩ := h
    obtain ⟨us, rfl, hus⟩ := ih.expression hts.tail hv
    cases h
    refine ⟨_, ?_, .group hstart hus hstop⟩
    simp
  · cases h

end Sound

theorem sound {last : Token} (hlast : last.kind = .endOfInput) (fuel : Nat) : Sound last fuel := by
  induction fuel with
  | zero => exact .zero last
  | succ fuel ih =>
    exact ⟨ih.statement_succ hlast, ih.block_succ hlast, ih.statements_succ,
      ih.expression_succ hlast, ih.infixLevel_succ, ih.infixRest_succ hlast, ih.call_succ hlast, ih.arguments_succ hlast,
      ih.primary_succ hlast⟩

theorem topLevel_sound {last : Token} (hlast : last.kind = .endOfInput) {fuel : Nat}
    {ts : List Token} {nodes : List Node} (hts : Scanned ts)
    (h : topLevel last fuel ts = .ok nodes) : Derives (.statements nodes) ts := by
  induction fuel generalizing ts nodes with
  | zero => cases h
  | succ fuel ih =>
    unfold topLevel at h
    split at h
    · next he =>
      cases h
      rw [List.isEmpty_iff.mp he]
      exact .noStatements
    · simp only [bind_ok, Prod.exists] at h
      obtain ⟨first, ts₁, hf, more, hm, h⟩ := h
      obtain ⟨us, rfl, hus⟩ := (sound hlast _).statement hts hf
      cases h
      exact .moreStatements hus (ih hts.right hm)

end ScriptLang.Grammar
