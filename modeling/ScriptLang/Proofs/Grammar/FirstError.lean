import ScriptLang.Proofs.Grammar.Fuel
import ScriptLang.Proofs.Grammar.Lookahead

/-!
# The first token that cannot be

The parser stops with an error at the first token that cannot come after the tokens before it: some
tokens complete those before it to a program, and none complete them with it. An error names the
place of this token.

Results:
* `foresight`: each function of the parser stops only where its phrase cannot go on;
* `error_at_first_impossible_token`: so does a whole parse.
-/
namespace ScriptLang.Grammar

open Parse (Reads)

variable {last : Token} {fuel : Nat} {ts us : List Token}

theorem parameters_reads (hlast : last.kind = .endOfInput) (fuel : Nat) (hts : Scanned ts) :
    Reads last (Viable .parameters) (parameters last fuel) parameters ts := by
  induction fuel generalizing ts with
  | zero => exact .outOfFuel rfl
  | succ fuel ih =>
    refine .succ ?_ fun _ ts => rfl
    simp only [parameters_steps]
    refine .expect_bind hlast hts viable_parameters_nil fun x ts hts hx => ?_
    refine .ifKind hlast (by decide) hts (fun comma ts hts hcomma => ?_) fun _ => .pure _
    refine (ih hts).bind (parameters_takes hlast _) hts ?_ fun names us ts _ hts _ => .pure _
    exact fun us hus => hus.parameter hx hcomma

/-- The parameters between the parentheses of a function, with fuel for any number of them. -/
theorem allParameters_reads (hlast : last.kind = .endOfInput) (hts : Scanned ts) :
    Reads last (Viable .parameterList) (Parse.upToParen last (allParameters last))
      (fun last _ => Parse.upToParen last (allParameters last)) ts := by
  refine .ifNext (fun _ => .pure _) fun _ => ?_
  exact (parameters_reads hlast (ts.length + 1) hts).map rfl (fun us hus => hus.someParameters)
    fun _ hd rest' hnext last _ => hd rest' hnext last _

/-- Each function of the parser, with this fuel, reads tokens one ahead and stops only after a viable
beginning of its phrase. -/
structure Foresight (last : Token) (fuel : Nat) : Prop where
  statement : ∀ {ts}, Scanned ts →
    Reads last (Viable .statement) (statement last fuel) statement ts
  block : ∀ {ts}, Scanned ts →
    Reads last (Viable .block) (block last fuel) block ts
  statements : ∀ {ts}, Scanned ts →
    Reads last (Viable .statements) (statements last fuel) statements ts
  expression : ∀ {ts}, Scanned ts →
    Reads last (Viable .expression) (expression last fuel) expression ts
  infixLevel : ∀ {ts} (level : Level), Scanned ts →
    Reads last (Viable (.level level)) (infixLevel last fuel level)
      (fun last n => infixLevel last n level) ts
  /-- The level goes on from an expression `left` that has been taken. -/
  infixRest : ∀ {level left us ts}, Derives (.level level left) us → Scanned ts →
    Reads last (fun vs => Viable (.level level) (us ++ vs)) (infixRest last fuel level left)
      (fun last n => infixRest last n level left) ts
  call : ∀ {ts}, Scanned ts →
    Reads last (Viable .operand) (call last fuel) call ts
  arguments : ∀ {ts}, Scanned ts →
    Reads last (Viable .arguments) (arguments last fuel) arguments ts
  primary : ∀ {ts}, Scanned ts →
    Reads last (Viable .primary) (primary last fuel) primary ts

namespace Foresight

theorem zero (last : Token) : Foresight last 0 where
  statement _ := .outOfFuel (by unfold Grammar.statement; rfl)
  block _ := .outOfFuel (by unfold Grammar.block; rfl)
  statements _ := .outOfFuel (by unfold Grammar.statements; rfl)
  expression _ := .outOfFuel (by unfold Grammar.expression; rfl)
  infixLevel _ _ := .outOfFuel (by unfold Grammar.infixLevel; rfl)
  infixRest _ _ := .outOfFuel (by unfold Grammar.infixRest; rfl)
  call _ := .outOfFuel (by unfold Grammar.call; rfl)
  arguments _ := .outOfFuel (by unfold Grammar.arguments; rfl)
  primary _ := .outOfFuel (by unfold Grammar.primary; rfl)

/-! ### Statements -/

theorem declaration (hlast : last.kind = .endOfInput) (ih : Foresight last fuel)
    (hts : Scanned ts) (hk : (peek last ts).kind = .letWord) :
    Reads last (Viable .statement) (declaration last fuel) declaration ts := by
  obtain ⟨word, ts, rfl, hword⟩ := cons_of_peek hlast (by decide) hk
  have hnil : Viable .statement (word :: [.identifier, .equals].map filler) :=
    .declare hword rfl rfl .expression_nil
  refine .skip (.expect_bind hlast hts.tail (.of_fillers [.identifier, .equals] hnil (by decide))
    fun x ts hts hx => ?_)
  have hnil : Viable .statement (word :: x :: [.equals].map filler) :=
    .declare hword hx rfl .expression_nil
  refine .expect_bind hlast hts (.of_fillers [.equals] hnil (by decide)) fun eq ts hts heq => ?_
  exact (ih.expression hts).bind_expect hlast (sound hlast _).expression hts
    (fun us hus => hus.declare hword hx heq) fun _ _ _ _ _ _ _ => .pure _

theorem functionDefinition (hlast : last.kind = .endOfInput) (ih : Foresight last fuel)
    (hts : Scanned ts) (hk : (peek last ts).kind = .funcWord) :
    Reads last (Viable .statement) (functionDefinition last fuel)
      functionDefinition ts := by
  obtain ⟨word, ts, rfl, hword⟩ := cons_of_peek hlast (by decide) hk
  have hnone : Viable .parameterList [] := viable_of_derives .noParameters
  have hnil : Viable .statement (word :: [.identifier, .leftParen].map filler) :=
    .functionParameters hword rfl rfl hnone
  refine .skip (.expect_bind hlast hts.tail
    (.of_fillers [.identifier, .leftParen] hnil (by decide)) fun x ts hts hx => ?_)
  have hnil : Viable .statement (word :: x :: [.leftParen].map filler) :=
    .functionParameters hword hx rfl hnone
  refine .expect_bind hlast hts (.of_fillers [.leftParen] hnil (by decide))
    fun start ts hts hstart => ?_
  refine (allParameters_reads hlast hts).bind_expect hlast (parameterList_takes hlast) hts
    (fun us hus => hus.functionParameters hword hx hstart) fun params us stop ts hts hus hstop => ?_
  exact (ih.block hts).bind (sound hlast _).block hts
    (fun vs hvs => hvs.functionBody hword hx hstart hus hstop) fun _ _ _ _ _ _ => .pure _

theorem branching (hlast : last.kind = .endOfInput) (ih : Foresight last fuel)
    (hts : Scanned ts) (hk : (peek last ts).kind = .ifWord) :
    Reads last (Viable .statement) (branching last fuel) branching ts := by
  obtain ⟨word, ts, rfl, hword⟩ := cons_of_peek hlast (by decide) hk
  have hnil : Viable .statement (word :: [.leftParen].map filler) :=
    .branchTest hword rfl .expression_nil
  refine .skip (.expect_bind hlast hts.tail (.of_fillers [.leftParen] hnil (by decide))
    fun start ts hts hstart => ?_)
  refine (ih.expression hts).bind_expect hlast (sound hlast _).expression hts
    (fun us hus => hus.branchTest hword hstart) fun test us stop ts hts hus hstop => ?_
  refine (ih.block hts).bind (sound hlast _).block hts
    (fun vs hvs => hvs.branchBody hword hstart hus hstop) fun consequent vs ts _ hts hvs => ?_
  refine .ifKind hlast (by decide) hts (fun other ts hts hother => ?_) fun _ => .pure _
  exact (ih.block hts).bind (sound hlast _).block hts
    (fun ws hws => hws.branchElse hword hstart hus hstop hvs hother) fun _ _ _ _ _ _ => .pure _

theorem looping (hlast : last.kind = .endOfInput) (ih : Foresight last fuel)
    (hts : Scanned ts) (hk : (peek last ts).kind = .whileWord) :
    Reads last (Viable .statement) (looping last fuel) looping ts := by
  obtain ⟨word, ts, rfl, hword⟩ := cons_of_peek hlast (by decide) hk
  have hnil : Viable .statement (word :: [.leftParen].map filler) :=
    .loopTest hword rfl .expression_nil
  refine .skip (.expect_bind hlast hts.tail (.of_fillers [.leftParen] hnil (by decide))
    fun start ts hts hstart => ?_)
  refine (ih.expression hts).bind_expect hlast (sound hlast _).expression hts
    (fun us hus => hus.loopTest hword hstart) fun test us stop ts hts hus hstop => ?_
  exact (ih.block hts).bind (sound hlast _).block hts
    (fun vs hvs => hvs.loopBody hword hstart hus hstop) fun _ _ _ _ _ _ => .pure _

theorem returning (hlast : last.kind = .endOfInput) (ih : Foresight last fuel)
    (hts : Scanned ts) (hk : (peek last ts).kind = .returnWord) :
    Reads last (Viable .statement) (returning last fuel) returning ts := by
  obtain ⟨word, ts, rfl, hword⟩ := cons_of_peek hlast (by decide) hk
  refine .skip (.ifKind hlast (by decide) hts.tail (fun _ _ _ _ => .pure _) fun _ => ?_)
  exact (ih.expression hts.tail).bind_expect hlast (sound hlast _).expression hts.tail
    (fun us hus => hus.retValue hword) fun _ _ _ _ _ _ _ => .pure _

theorem importing (hlast : last.kind = .endOfInput) (hts : Scanned ts)
    (hk : (peek last ts).kind = .importWord) :
    Reads last (Viable .statement) (importing last) (fun last _ => importing last) ts := by
  obtain ⟨word, ts, rfl, hword⟩ := cons_of_peek hlast (by decide) hk
  have hnil : Viable .statement (word :: [.string].map filler) := .importFile hword rfl
  refine .skip (.expect_bind hlast hts.tail (.of_fillers [.string] hnil (by decide))
    fun path ts hts hpath => ?_)
  exact .expect_bind hlast hts (.importFile hword hpath) fun _ _ _ _ => .pure _

theorem evaluation (hlast : last.kind = .endOfInput) (ih : Foresight last fuel)
    (hts : Scanned ts) :
    Reads last (Viable .statement) (evaluation last fuel) evaluation ts :=
  (ih.expression hts).bind_expect hlast (sound hlast _).expression hts
    (fun _ hus => hus.evaluate) fun _ _ _ _ _ _ _ => .pure _

theorem statement_succ (hlast : last.kind = .endOfInput) (ih : Foresight last fuel)
    (hts : Scanned ts) :
    Reads last (Viable .statement) (Grammar.statement last (fuel + 1))
      Grammar.statement ts := by
  refine .succ ?_ fun _ ts => by unfold Grammar.statement; rfl
  simp only [statement_steps]
  refine .byNext ?_
  cases hk : (peek last ts).kind with
  | letWord => exact ih.declaration hlast hts hk
  | funcWord => exact ih.functionDefinition hlast hts hk
  | ifWord => exact ih.branching hlast hts hk
  | whileWord => exact ih.looping hlast hts hk
  | returnWord => exact ih.returning hlast hts hk
  | importWord => exact importing hlast hts hk
  | leftBrace =>
    exact (ih.block hts).bind (sound hlast _).block hts (fun us hus => hus.nested)
      fun _ _ _ _ _ _ => .pure _
  | _ => exact ih.evaluation hlast hts

theorem block_succ (hlast : last.kind = .endOfInput) (ih : Foresight last fuel)
    (hts : Scanned ts) :
    Reads last (Viable .block) (Grammar.block last (fuel + 1)) Grammar.block
      ts := by
  refine .succ ?_ fun _ ts => by unfold Grammar.block; rfl
  simp only [block_steps]
  refine .expect_bind hlast hts viable_block_nil fun start ts hts hstart => ?_
  exact (ih.statements hts).bind_expect hlast (sound hlast _).statements hts
    (fun us hus => hus.block hstart) fun _ _ _ _ _ _ _ => .pure _

theorem statements_succ (hlast : last.kind = .endOfInput) (ih : Foresight last fuel)
    (hts : Scanned ts) :
    Reads last (Viable .statements) (Grammar.statements last (fuel + 1))
      Grammar.statements ts := by
  refine .succ ?_ fun _ ts => by unfold Grammar.statements; rfl
  simp only [statements_steps]
  refine .untilStop (fun us rest rest' hus hnext last' => ?_) ?_
  · unfold atBrace
    rw [(hnext.append us).isEmpty, (hnext.append us).peek last last', hus]
  refine (ih.statement hts).bind (sound hlast _).statement hts (fun us hus => hus.first)
    fun first us ts _ hts hus => ?_
  exact (ih.statements hts).bind (sound hlast _).statements hts (fun vs hvs => hvs.more hus)
    fun _ _ _ _ _ _ => .pure _

/-! ### Expressions -/

theorem expression_succ (hlast : last.kind = .endOfInput) (ih : Foresight last fuel)
    (hts : Scanned ts) :
    Reads last (Viable .expression) (Grammar.expression last (fuel + 1))
      Grammar.expression ts := by
  refine .succ ?_ fun _ ts => by unfold Grammar.expression; rfl
  simp only [expression_steps]
  refine (ih.infixLevel .comparison hts).bind ((sound hlast _).infixLevel _) hts
    (fun us hus => hus.chain) fun left us ts _ hts hus => ?_
  cases left with
  | identifier j =>
    obtain ⟨name, rfl, htarget⟩ := target_of_name hus rfl
    refine .ifKind hlast (by decide) hts (fun eq ts hts heq => ?_) fun _ => .pure _
    exact (ih.expression hts).bind (sound hlast _).expression hts
      (fun vs hvs => hvs.assign htarget heq) fun _ _ _ _ _ _ => .pure _
  | _ =>
    refine .ifNext (fun _ => .next (.fail (.badTarget _ _) ?_)) fun _ => .pure _
    rw [List.append_nil]
    exact (viable_of_derives hus).chain

theorem operandOf (ih : Foresight last fuel) (level : Level) (hts : Scanned ts) :
    Reads last (Viable level.inner) (Grammar.operandOf last fuel level)
      (fun last n => Grammar.operandOf last n level) ts := by
  cases level with
  | comparison => exact ih.infixLevel .additive hts
  | additive => exact ih.infixLevel .multiplicative hts
  | multiplicative => exact ih.call hts

theorem infixLevel_succ (hlast : last.kind = .endOfInput) (ih : Foresight last fuel)
    (level : Level) (hts : Scanned ts) :
    Reads last (Viable (.level level)) (Grammar.infixLevel last (fuel + 1) level)
      (fun last n => Grammar.infixLevel last n level) ts := by
  refine .succ ?_ fun _ ts => by unfold Grammar.infixLevel; rfl
  simp only [infixLevel_steps]
  exact (ih.operandOf level hts).bind ((sound hlast _).operandOf level) hts
    (fun us hus => hus.single) fun left us ts _ hts hus => ih.infixRest (.single hus) hts

theorem infixRest_succ (hlast : last.kind = .endOfInput) (ih : Foresight last fuel)
    {level : Level} {left : Node} (hus : Derives (.level level left) us) (hts : Scanned ts) :
    Reads last (fun vs => Viable (.level level) (us ++ vs))
      (Grammar.infixRest last (fuel + 1) level left)
      (fun last n => Grammar.infixRest last n level left) ts := by
  refine .succ ?_ fun _ ts => by unfold Grammar.infixRest; rfl
  simp only [infixRest_steps]
  refine .ifNext (fun hop => .next ?_) fun _ => .pure _
  obtain ⟨op, ts, rfl⟩ := cons_of_admits hlast hop
  have hop : level.Has op := (level.admits_iff op).mp hop
  refine .skip ((ih.operandOf level hts.tail).bind ((sound hlast _).operandOf level) hts.tail
    (fun vs hvs => hvs.binary hus hop) fun right vs ts _ hts hvs => ?_)
  refine (ih.infixRest (.binary hus hop hvs) hts).mono fun ws hws => ?_
  simpa using hws

/-- The arguments between the parentheses of a call. -/
theorem argumentList (ih : Foresight last fuel) (hts : Scanned ts) :
    Reads last (Viable .argumentList) (Parse.upToParen last (Grammar.arguments last fuel))
      (fun last n => Parse.upToParen last (Grammar.arguments last n)) ts :=
  .ifNext (fun _ => .pure _) fun _ => (ih.arguments hts).mono fun _ hus => hus.someArguments

/-- A primary expression that starts with a name is the name. -/
theorem eq_nil_of_name {x : Token} {value : Node} (h : Derives (.primary value) (x :: us))
    (hx : x.kind = .identifier) : us = [] := by
  cases h with
  | group hstart => cases hstart.symm.trans hx
  | _ => rfl

theorem call_succ (hlast : last.kind = .endOfInput) (ih : Foresight last fuel)
    (hts : Scanned ts) :
    Reads last (Viable .operand) (Grammar.call last (fuel + 1)) Grammar.call
      ts := by
  refine .succ ?_ fun _ ts => by unfold Grammar.call; rfl
  simp only [call_steps]
  refine .next ?_
  refine (ih.primary hts).bind (sound hlast _).primary hts (fun us hus => hus.simple)
    fun callee us rest hrest hscanned hus => ?_
  refine .ifNext (fun hparen => .ifNext (fun hname => ?_) fun _ => ?_) fun _ => .pure _
  · obtain ⟨start, rest, rfl, hstart⟩ := cons_of_peek hlast (by decide) hparen
    -- The name that the call looked at first is all that the primary expression took.
    cases us with
    | nil => cases hus
    | cons x us =>
      have hx : x.kind = .identifier := by rwa [hrest] at hname
      obtain rfl := eq_nil_of_name hus hx
      exact .skip ((ih.argumentList hscanned.tail).bind_expect hlast (sound hlast _).argumentList
        hscanned.tail (fun us hus => hus.callArguments hx hstart) fun _ _ _ _ _ _ _ => .pure _)
  · refine .next (.fail (.notCallable _ _) ?_)
    rw [List.append_nil]
    exact (viable_of_derives hus).simple

theorem arguments_succ (hlast : last.kind = .endOfInput) (ih : Foresight last fuel)
    (hts : Scanned ts) :
    Reads last (Viable .arguments) (Grammar.arguments last (fuel + 1))
      Grammar.arguments ts := by
  refine .succ ?_ fun _ ts => by unfold Grammar.arguments; rfl
  simp only [arguments_steps]
  refine (ih.expression hts).bind (sound hlast _).expression hts (fun us hus => hus.argument)
    fun first us ts _ hts hus => ?_
  refine .ifKind hlast (by decide) hts (fun comma ts hts hcomma => ?_) fun _ => .pure _
  exact (ih.arguments hts).bind (sound hlast _).arguments hts
    (fun vs hvs => hvs.moreArguments hus hcomma) fun _ _ _ _ _ _ => .pure _

theorem primary_succ (hlast : last.kind = .endOfInput) (ih : Foresight last fuel)
    (hts : Scanned ts) :
    Reads last (Viable .primary) (Grammar.primary last (fuel + 1))
      Grammar.primary ts := by
  refine .succ ?_ fun _ ts => by unfold Grammar.primary; rfl
  simp only [primary_steps]
  refine .byNext ?_
  cases hk : (peek last ts).kind with
  | number =>
    obtain ⟨t, rest, rfl, ht⟩ := cons_of_peek hlast (by decide) hk
    obtain ⟨n, hn⟩ := (hts t List.mem_cons_self).number ht
    refine .next ?_
    simp only [numberLiteral, show Numeral.read? (peek last (t :: rest)).text = some n from hn.read]
    exact .single hlast hk (by decide)
  | leftParen =>
    obtain ⟨start, ts, rfl, hstart⟩ := cons_of_peek hlast (by decide) hk
    exact .skip ((ih.expression hts.tail).bind_expect hlast (sound hlast _).expression hts.tail
      (fun us hus => hus.group hstart) fun _ _ _ _ _ _ _ => .pure _)
  | identifier | string | trueWord | falseWord | nullWord =>
    exact .single hlast hk (by decide)
  | _ => exact .next (.fail (.noExpression _) viable_primary_nil)

end Foresight

theorem foresight (hlast : last.kind = .endOfInput) (fuel : Nat) : Foresight last fuel := by
  induction fuel with
  | zero => exact .zero last
  | succ fuel ih =>
    exact {
      statement := ih.statement_succ hlast
      block := ih.block_succ hlast
      statements := ih.statements_succ hlast
      expression := ih.expression_succ hlast
      infixLevel := ih.infixLevel_succ hlast
      infixRest := ih.infixRest_succ hlast
      call := ih.call_succ hlast
      arguments := ih.arguments_succ hlast
      primary := ih.primary_succ hlast }

/-! ## Programs -/

theorem toEnd_takes (hlast : last.kind = .endOfInput) (fuel : Nat) :
    Takes .statements (toEnd last fuel) := by
  intro ts nodes rest hts h
  unfold toEnd at h
  cases hrun : topLevel last fuel ts with
  | error e =>
    rw [hrun] at h
    cases h
  | ok nodes =>
    rw [hrun] at h
    cases h
    exact ⟨ts, (List.append_nil ts).symm, topLevel_sound hlast hts hrun⟩

theorem toEnd_reads (hlast : last.kind = .endOfInput) (fuel : Nat) (hts : Scanned ts) :
    Reads last (Viable .statements) (toEnd last fuel) toEnd ts := by
  induction fuel generalizing ts with
  | zero => exact .outOfFuel rfl
  | succ fuel ih =>
    refine .succ ?_ fun _ ts => rfl
    simp only [toEnd_steps]
    refine .untilStop (fun us rest rest' hus hnext last' => ?_) ?_
    · rw [(hnext.append us).isEmpty, hus]
    refine (((foresight hlast (fuel + 1)).statement hts).withFuel (· + 1)).bind
      (sound hlast _).statement hts (fun us hus => hus.first) fun first us ts _ hts hus => ?_
    exact (ih hts).bind (toEnd_takes hlast _) hts (fun vs hvs => hvs.more hus)
      fun _ _ _ _ _ _ => .pure _

/-- A parse that stops, stops at a token after a viable beginning, and so does every parse of tokens
that are the same up to this one. -/
theorem topLevel_error (hlast : last.kind = .endOfInput) (hts : Scanned ts) {e : ParseError}
    (h : topLevel last (fuelFor ts.length) ts = .error e) :
    ∃ us rest, ts = us ++ rest ∧ e.PointsAt (peek last rest) ∧ Viable .statements us ∧
      ∀ rest', SameNext rest rest' → ∀ last fuel nodes,
        topLevel last fuel (us ++ rest') ≠ .ok nodes := by
  have hrun : toEnd last (fuelFor ts.length) ts = .error e := by rw [toEnd, h]; rfl
  have henough : 12 * ts.length + 7 ≤ fuelFor ts.length := by rw [fuelFor]; omega
  rcases (toEnd_reads hlast _ hts).error e hrun with rfl | ⟨us, rest, hus, he, hv, hdecides⟩
  · exact absurd hrun (toEnd_enough hlast henough).fuel
  refine ⟨us, rest, hus, he, hv, fun rest' hnext last fuel nodes hok => ?_⟩
  have hother : toEnd last fuel (us ++ rest') = .ok (nodes, []) := by rw [toEnd, hok]; rfl
  rcases hdecides rest' hnext last fuel with herr | herr <;> cases hother.symm.trans herr

theorem Viable.program (h : Viable .statements us) (hus : Scanned us)
    (hlast : last.kind = .endOfInput) :
    ∃ more p, Scanned more ∧ Program.ofTokens (us ++ more ++ [last]) = .ok p := by
  obtain ⟨nodes, more, hmore, hd⟩ := h
  refine ⟨more, ⟨nodes⟩, hmore, ?_⟩
  rw [ofTokens_append (List.forall_mem_append.mpr ⟨hus, hmore⟩) hlast,
    topLevel_complete hlast hd (by rw [fuelFor]; omega)]
  rfl

theorem error_of_bind_pure {α β : Type} {x : Except ParseError α} {f : α → β} {e : ParseError}
    (h : (x >>= fun a => pure (f a)) = .error e) : x = .error e := by
  cases x with
  | error => exact congrArg Except.error (Except.error.inj h)
  | ok => cases h

theorem topLevel_of_error {e : ParseError} (hts : Scanned ts) (hlast : last.kind = .endOfInput)
    (h : Program.ofTokens (ts ++ [last]) = .error e) :
    topLevel last (fuelFor ts.length) ts = .error e := by
  rw [ofTokens_append hts hlast] at h
  exact error_of_bind_pure h

theorem tokens_of_ofTokens? {tokens : List Token} {s : TokenStream}
    (h : TokenStream.ofTokens? tokens = some s) :
    s.tokens = tokens.takeWhile fun t => decide (t.kind ≠ .endOfInput) := by
  unfold TokenStream.ofTokens? at h
  split at h
  · split at h
    · cases h
      rfl
    · cases h
  · cases h

/-- A program is parsed from the tokens before the first end of the input, so from all tokens that are
none, and maybe more. -/
theorem topLevel_of_ofTokens {more : List Token} {p : Program} (hus : Scanned us)
    (h : Program.ofTokens (us ++ more) = .ok p) :
    ∃ rest last fuel, topLevel last fuel (us ++ rest) = .ok p.statements := by
  unfold Program.ofTokens at h
  split at h
  · next s hs =>
    obtain ⟨nodes, hnodes, hp⟩ := bind_ok.mp h
    cases hp
    rw [tokens_of_ofTokens? hs,
      List.takeWhile_append_of_pos fun t ht => decide_eq_true (hus t ht).ne_endOfInput] at hnodes
    exact ⟨_, _, _, hnodes⟩
  · cases h

/-- What comes after the end of the input is not looked at. -/
theorem ofTokens_of_end {more : List Token} {p : Program} (hus : Scanned us)
    (hlast : last.kind = .endOfInput) (h : Program.ofTokens (us ++ last :: more) = .ok p) :
    Program.ofTokens (us ++ [last]) = .ok p := by
  have hbefore : (us ++ last :: more).takeWhile (fun t => decide (t.kind ≠ .endOfInput)) = us := by
    rw [List.takeWhile_append_of_pos fun t ht => decide_eq_true (hus t ht).ne_endOfInput]
    simp [hlast]
  unfold Program.ofTokens TokenStream.ofTokens? at h
  simp only [hbefore, List.drop_left] at h
  rw [ofTokens_append hus hlast]
  split at h
  · next s hs =>
    split at hs
    · split at hs
      · cases hs
        exact h
      · cases hs
    · cases hs
  · cases h

/-- When the parser stops with an error, it names the place of a token such that some tokens complete
those before it to a program, and none complete them and the token. -/
theorem error_at_first_impossible_token (ts : List Token) (last : Token) (e : ParseError)
    (hts : Scanned ts) (hlast : last.kind = .endOfInput)
    (h : Program.ofTokens (ts ++ [last]) = .error e) :
    ∃ i t, (ts ++ [last])[i]? = some t ∧
      (∃ before, ∀ file, e.message file = before ++ t.position.inFile file) ∧
      (∃ more p, Scanned more ∧
        Program.ofTokens ((ts ++ [last]).take i ++ more ++ [last]) = .ok p) ∧
      ∀ more p, Program.ofTokens ((ts ++ [last]).take (i + 1) ++ more) ≠ .ok p := by
  obtain ⟨us, rest, rfl, he, hv, hno⟩ := topLevel_error hlast hts (topLevel_of_error hts hlast h)
  have hus : Scanned us := (List.forall_mem_append.mp hts).1
  refine ⟨us.length, peek last rest, ?_, he.message, ?_, ?_⟩
  · rw [List.append_assoc, List.getElem?_append_right (Nat.le_refl _), Nat.sub_self]
    cases rest <;> rfl
  · simpa using hv.program hus hlast
  intro more p hp
  rw [List.append_assoc us, List.take_length_add_append, List.append_assoc] at hp
  -- The impossible token may be the end of the input, and then it ends every longer list as well.
  cases rest with
  | nil =>
    have hend : Program.ofTokens (us ++ last :: more) = .ok p := hp
    have hok : Program.ofTokens (us ++ [] ++ [last]) = .ok p := by
      rw [List.append_nil]
      exact ofTokens_of_end hus hlast hend
    cases h.symm.trans hok
  | cons t rest =>
    have ht : Lexed t := hts t (by simp)
    have hprefix : Scanned (us ++ [t]) :=
      List.forall_mem_append.mpr ⟨hus, List.forall_mem_singleton.mpr ht⟩
    have htaken : Program.ofTokens (us ++ [t] ++ more) = .ok p := by
      rwa [List.append_assoc]
    obtain ⟨rest', last', fuel, hok⟩ := topLevel_of_ofTokens hprefix htaken
    rw [List.append_assoc] at hok
    exact hno (t :: rest') ⟨t, rfl, rfl⟩ last' fuel _ hok

/-- The tokens of `(f)();`. -/
def groupCall : List Token :=
  [⟨.leftParen, "(", ⟨1, 1⟩⟩, ⟨.identifier, "f", ⟨1, 2⟩⟩, ⟨.rightParen, ")", ⟨1, 3⟩⟩,
    ⟨.leftParen, "(", ⟨1, 4⟩⟩, ⟨.rightParen, ")", ⟨1, 5⟩⟩, ⟨.semicolon, ";", ⟨1, 6⟩⟩]

/-- The end of the input after `groupCall`. -/
def groupCallEnd : Token := ⟨.endOfInput, "EOF", ⟨1, 7⟩⟩

theorem scanned_groupCall : Scanned groupCall := by
  intro t ht
  simp only [groupCall, List.mem_cons, List.not_mem_nil, or_false] at ht
  rcases ht with rfl | rfl | rfl | rfl | rfl | rfl
  · exact ⟨'(', [], 0, by decide⟩
  · exact ⟨'f', [], 0, by decide⟩
  · exact ⟨')', [], 0, by decide⟩
  · exact ⟨'(', [], 0, by decide⟩
  · exact ⟨')', [], 0, by decide⟩
  · exact ⟨';', [], 0, by decide⟩

/-- A name in parentheses is an expression and cannot be called. -/
theorem groupCall_stops_at_paren :
    ∃ e, Program.ofTokens (groupCall ++ [groupCallEnd]) = .error e ∧
      ∃ i t, (groupCall ++ [groupCallEnd])[i]? = some t ∧
        (∃ before, ∀ file, e.message file = before ++ t.position.inFile file) ∧
        (∃ more p, Scanned more ∧ Program.ofTokens
          ((groupCall ++ [groupCallEnd]).take i ++ more ++ [groupCallEnd]) = .ok p) ∧
        ∀ more p,
          Program.ofTokens ((groupCall ++ [groupCallEnd]).take (i + 1) ++ more) ≠ .ok p := by
  have h : Program.ofTokens (groupCall ++ [groupCallEnd]) =
      .error (.notCallable .leftParen ⟨.leftParen, "(", ⟨1, 4⟩⟩) := rfl
  exact ⟨_, h, error_at_first_impossible_token groupCall _ _ scanned_groupCall rfl h⟩

end ScriptLang.Grammar
