import ScriptLang.Proofs.Grammar.Cursor
import ScriptLang.Proofs.Grammar.Fuel
import ScriptLang.Proofs.Grammar.Lookahead

/-!
# The cursor stays before the end

On any list with an end of the input in it the procedures at a cursor do what the parser does with the
tokens before the first such end. They look at no token behind it: a cursor on the end itself does not
move, because each step that takes a token has seen a token of another class there.

Results:
* `Tracks.bind` and the lemmas beside it: steps of the parser and what follows them at a cursor;
* `tracking`: each procedure follows the function of the parser.
-/
namespace ScriptLang

open Grammar

/-- A list of tokens, taken apart at the first end of the input in it. -/
structure TokenSplit where
  before : List Token
  last : Token
  after : List Token
  plain : ∀ t ∈ before, t.kind ≠ .endOfInput
  ends : last.kind = .endOfInput

namespace TokenSplit

variable {s : TokenSplit} {i : Nat}

def tokens (s : TokenSplit) : List Token := s.before ++ s.last :: s.after

def stop (s : TokenSplit) : Nat := s.before.length

/-- The token that the parser looks at when `i` of them are taken. -/
def ahead (s : TokenSplit) (i : Nat) : Token := peek s.last (s.before.drop i)

/-- What an error is about: a token up to the end, or a number before it that cannot be read. -/
inductive Blames (s : TokenSplit) : ParseError → Prop
  | token {e : ParseError} {t : Token} : t ∈ s.before ++ [s.last] → e.PointsAt t → Blames s e
  | number {t : Token} : t ∈ s.before → t.kind = .number → Numeral.read? t.text = none →
      Blames s (.badNumber t.text)
  | outOfFuel : Blames s .outOfFuel

theorem ahead_of_lt (hi : i < s.stop) : s.ahead i = s.before.get ⟨i, hi⟩ := by
  unfold ahead
  rw [List.drop_eq_getElem_cons hi]
  rfl

theorem ahead_stop : s.ahead s.stop = s.last := by
  unfold ahead stop
  rw [List.drop_length]
  rfl

theorem ahead_mem (hi : i ≤ s.stop) : s.ahead i ∈ s.before ++ [s.last] := by
  rcases Nat.lt_or_eq_of_le hi with hlt | rfl
  · rw [ahead_of_lt hlt]
    exact List.mem_append_left _ (List.get_mem _ _)
  · rw [ahead_stop]
    exact List.mem_append_right _ List.mem_cons_self

theorem getElem?_tokens (hi : i ≤ s.stop) : s.tokens[i]? = some (s.ahead i) := by
  rcases Nat.lt_or_eq_of_le hi with hlt | rfl
  · rw [ahead_of_lt hlt, tokens, List.getElem?_append_left hlt]
    exact List.getElem?_eq_getElem hlt
  · rw [ahead_stop, tokens, stop, List.getElem?_append_right (Nat.le_refl _), Nat.sub_self]
    rfl

/-- Only the end looks like one. -/
theorem ahead_end_iff (hi : i ≤ s.stop) : (s.ahead i).kind = .endOfInput ↔ i = s.stop := by
  constructor
  · intro hk
    refine (Nat.lt_or_eq_of_le hi).resolve_left fun hlt => ?_
    rw [ahead_of_lt hlt] at hk
    exact s.plain _ (List.get_mem _ _) hk
  · rintro rfl
    rw [ahead_stop]
    exact s.ends

theorem lt_stop (hi : i ≤ s.stop) (hk : (s.ahead i).kind ≠ .endOfInput) : i < s.stop :=
  Nat.lt_of_le_of_ne hi fun heq => hk ((ahead_end_iff hi).mpr heq)

theorem ahead_mem_before (hi : i ≤ s.stop) (hk : (s.ahead i).kind ≠ .endOfInput) :
    s.ahead i ∈ s.before := by
  rw [ahead_of_lt (lt_stop hi hk)]
  exact List.get_mem _ _

theorem isEmpty_drop (hi : i ≤ s.stop) :
    (s.before.drop i).isEmpty = decide ((s.ahead i).kind = .endOfInput) := by
  rw [Bool.eq_iff_iff, List.isEmpty_iff, List.drop_eq_nil_iff, decide_eq_true_iff, ahead_end_iff hi]
  exact ⟨fun h => Nat.le_antisymm hi h, fun h => Nat.le_of_eq h.symm⟩

end TokenSplit

variable {α β : Type} {s : TokenSplit} {i : Nat}

/-! ## Steps at a cursor -/

/-- No token behind the first end of the input has been looked at. -/
def TokenSplit.Within (s : TokenSplit) (seen : List Nat) : Prop := ∀ k ∈ seen, k ≤ s.stop

/-- What the parser gives for the tokens from somewhere on, and what comes out at a cursor there. -/
inductive Tracked (s : TokenSplit) :
    Except ParseError (α × List Token) → Except Cursor.Stop α × Cursor.State → Prop
  | ok {a : α} {j : Nat} {seen : List Nat} : j ≤ s.stop → s.Within seen →
      Tracked s (.ok (a, s.before.drop j)) (.ok a, ⟨j, seen⟩)
  | error {e : ParseError} {state : Cursor.State} : s.Blames e → s.Within state.seen →
      Tracked s (.error e) (.error (.error e), state)

/-- From the index `i` on the computation at a cursor does what the parser does. -/
def Tracks (s : TokenSplit) (i : Nat) (x : Parse α) (y : Cursor α) : Prop :=
  i ≤ s.stop → ∀ seen, s.Within seen → Tracked s (x (s.before.drop i)) (y s.tokens ⟨i, seen⟩)

namespace Tracks

theorem look_run (hi : i ≤ s.stop) (seen : List Nat) :
    Cursor.look s.tokens ⟨i, seen⟩ = (.ok (s.ahead i), ⟨i, i :: seen⟩) := by
  unfold Cursor.look
  rw [TokenSplit.getElem?_tokens hi]

theorem within_look (hi : i ≤ s.stop) {seen : List Nat} (hseen : s.Within seen) :
    s.Within (i :: seen) :=
  List.forall_mem_cons.mpr ⟨hi, hseen⟩

theorem look {x : Parse α} {y : Token → Cursor α} (h : Tracks s i x (y (s.ahead i))) :
    Tracks s i x (Cursor.look >>= y) := by
  intro hi seen hseen
  show Tracked s _ (Cursor.bind Cursor.look y s.tokens ⟨i, seen⟩)
  unfold Cursor.bind
  rw [look_run hi]
  exact h hi _ (within_look hi hseen)

theorem pure (a : α) : Tracks s i (Pure.pure a) (Pure.pure a) := fun hi _ hseen => .ok hi hseen

theorem fail {e : ParseError} (he : i ≤ s.stop → s.Blames e) :
    Tracks s i (Parse.fail e : Parse α) (Cursor.fail e) :=
  fun hi _ hseen => .error (he hi) hseen

theorem bind {x : Parse α} {y : Cursor α} {f : α → Parse β} {g : α → Cursor β}
    (hx : Tracks s i x y) (hf : ∀ a j, Tracks s j (f a) (g a)) :
    Tracks s i (x >>= f) (y >>= g) := by
  intro hi seen hseen
  show Tracked s (x _ >>= fun r => f r.1 r.2) (Cursor.bind y g s.tokens ⟨i, seen⟩)
  unfold Cursor.bind
  have hfirst := hx hi seen hseen
  generalize x (s.before.drop i) = r, y s.tokens ⟨i, seen⟩ = r' at hfirst
  cases hfirst with
  | ok hj hseen' => exact hf _ _ hj _ hseen'
  | error he hseen' => exact .error he hseen'

theorem next {f : Token → Parse α} {y : Cursor α} (h : Tracks s i (f (s.ahead i)) y) :
    Tracks s i (Parse.next s.last >>= f) y := h

/-- A token that is not the end is taken by moving the cursor. -/
theorem advance (hk : (s.ahead i).kind ≠ .endOfInput) {f : Unit → Parse α} {g : Unit → Cursor α}
    (h : Tracks s (i + 1) (f ()) (g ())) :
    Tracks s i (Parse.skip >>= f) (Cursor.advance >>= g) := by
  intro hi seen hseen
  have hmove : Cursor.advance s.tokens ⟨i, seen⟩ = (.ok (), ⟨i + 1, i :: seen⟩) := by
    show Cursor.bind Cursor.look _ s.tokens ⟨i, seen⟩ = _
    unfold Cursor.bind
    rw [look_run hi]
    show (if (s.ahead i).kind = .endOfInput then _ else _ : Cursor Unit) _ _ = _
    rw [if_neg hk]
    rfl
  show Tracked s (f () (s.before.drop i).tail) (Cursor.bind Cursor.advance g s.tokens ⟨i, seen⟩)
  unfold Cursor.bind
  rw [hmove, List.tail_drop]
  exact h (TokenSplit.lt_stop hi hk) _ (within_look hi hseen)

theorem ifHere {c : Token → Prop} [DecidablePred c] {x x' : Parse α} {y y' : Cursor α}
    (h : c (s.ahead i) → Tracks s i x y) (h' : ¬ c (s.ahead i) → Tracks s i x' y') :
    Tracks s i (Parse.ifNext s.last c x x') (if c (s.ahead i) then y else y') := by
  intro hi seen hseen
  by_cases hc : c (s.ahead i)
  · have hrun : Parse.ifNext s.last c x x' (s.before.drop i) = x (s.before.drop i) := if_pos hc
    rw [if_pos hc, hrun]
    exact h hc hi seen hseen
  · have hrun : Parse.ifNext s.last c x x' (s.before.drop i) = x' (s.before.drop i) := if_neg hc
    rw [if_neg hc, hrun]
    exact h' hc hi seen hseen

theorem ifNext {c : Token → Prop} [DecidablePred c] {x x' : Parse α} {y y' : Token → Cursor α}
    (h : c (s.ahead i) → Tracks s i x (y (s.ahead i)))
    (h' : ¬ c (s.ahead i) → Tracks s i x' (y' (s.ahead i))) :
    Tracks s i (Parse.ifNext s.last c x x')
      (Cursor.look >>= fun t => if c t then y t else y' t) :=
  look (ifHere h h')

/-- A choice of something to take if the next token is of one class. -/
theorem ifKind {kind : TokenKind} (hkind : kind ≠ .endOfInput) {f : Unit → Parse α}
    {g : Unit → Cursor α} {x : Parse α} {y : Cursor α}
    (h : ∀ j, Tracks s j (f ()) (g ())) (h' : Tracks s i x y) :
    Tracks s i (Parse.ifNext s.last (·.kind = kind) (Parse.skip >>= f) x)
      (Cursor.look >>= fun t => if t.kind = kind then Cursor.advance >>= g else y) :=
  ifNext (fun hk => advance (fun hend => hkind (hk.symm.trans hend)) (h _)) fun _ => h'

theorem byNext {x : TokenKind → Parse α} {y : Token → Cursor α}
    (h : Tracks s i (x (s.ahead i).kind) (y (s.ahead i))) :
    Tracks s i (Parse.byNext s.last x) (Cursor.look >>= y) :=
  look h

theorem upToParen {items : Parse (List α)} {items' : Cursor (List α)}
    (h : Tracks s i items items') :
    Tracks s i (Parse.upToParen s.last items) (Cursor.upToParen items') :=
  ifNext (fun _ => .pure _) fun _ => h

/-- Items up to where they stop, which is seen at the next token. -/
theorem untilStop {stop : List Token → Bool} {c : Token → Prop} [DecidablePred c]
    (hstop : i ≤ s.stop → stop (s.before.drop i) = decide (c (s.ahead i)))
    {items : Parse (List α)} {items' : Cursor (List α)} (h : Tracks s i items items') :
    Tracks s i (Parse.untilStop stop items)
      (Cursor.look >>= fun t => if c t then return [] else items') := by
  refine look fun hi seen hseen => ?_
  unfold Parse.untilStop
  rw [hstop hi]
  by_cases hc : c (s.ahead i)
  · rw [if_pos hc, if_pos (decide_eq_true hc)]
    exact .ok hi hseen
  · rw [if_neg hc, if_neg (by rw [decide_eq_false hc]; exact Bool.false_ne_true)]
    exact h hi seen hseen

theorem single (hk : (s.ahead i).kind ≠ .endOfInput) (f : Token → α) :
    Tracks s i (Parse.single s.last f) (Cursor.single f) :=
  next (look (advance hk (.pure _)))

/-- An error about the next token. -/
theorem failHere {e : ParseError} (he : e.PointsAt (s.ahead i)) :
    Tracks s i (Parse.fail e : Parse α) (Cursor.fail e) :=
  fail fun hi => .token (TokenSplit.ahead_mem hi) he

/-- An error about a token that the cursor has been moved over. -/
theorem failAfter (hk : (s.ahead i).kind ≠ .endOfInput) {e : ParseError}
    (he : i ≤ s.stop → s.Blames e) :
    Tracks s i (Parse.fail e : Parse α) (Cursor.advance >>= fun _ => Cursor.fail e) := by
  have hsame : (Parse.fail e : Parse α) = (Parse.skip >>= fun _ => Parse.fail e) := rfl
  rw [hsame]
  exact fun hi => advance hk (.fail fun _ => he hi) hi

theorem expect (slot : Slot) : Tracks s i (Grammar.expect s.last slot) (Cursor.expect slot) := by
  have hsteps : (Grammar.expect s.last slot : Parse Token) =
      (Grammar.expect s.last slot >>= Pure.pure : Parse Token) := by
    funext ts
    show _ = Grammar.expect s.last slot ts >>= _
    cases Grammar.expect s.last slot ts <;> rfl
  rw [hsteps, expect_steps]
  refine next (ifNext (fun hk => ?_) fun _ => failHere (.missing slot _))
  exact advance (fun hend => slot_kind_ne slot (hk.symm.trans hend)) (.pure _)

end Tracks

/-! ## Procedures at a cursor -/

/-- Fuel for more parameters than there are tokens is as good as fuel for all tokens. -/
theorem Grammar.parameters_fuel {last : Token} (hlast : last.kind = .endOfInput)
    {fuel fuel' : Nat} {ts : List Token} (hf : ts.length + 1 ≤ fuel)
    (hf' : ts.length + 1 ≤ fuel') : parameters last fuel ts = parameters last fuel' ts := by
  induction fuel generalizing ts fuel' with
  | zero => omega
  | succ fuel ih =>
    obtain ⟨fuel', rfl⟩ := Nat.exists_eq_add_one_of_ne_zero (show fuel' ≠ 0 by omega)
    unfold parameters
    cases hname : Grammar.expect last .parameterName ts with
    | error e => rfl
    | ok r =>
      obtain ⟨rfl, -⟩ := (expect_ok hlast).mp hname
      rw [List.length_cons] at hf hf'
      have htail : r.2.tail.length ≤ r.2.length := by simp
      have hrest : parameters last fuel r.2.tail = parameters last fuel' r.2.tail :=
        ih (by omega) (by omega)
      show (if (peek last r.2).kind = .comma then _ else _) = if _ then _ else _
      rw [hrest]

theorem parameters_tracks (fuel : Nat) (i : Nat) :
    Tracks s i (Grammar.parameters s.last fuel) (Cursor.parameters fuel) := by
  induction fuel generalizing i with
  | zero =>
    unfold Cursor.parameters
    exact .fail fun _ => .outOfFuel
  | succ fuel ih =>
    rw [parameters_steps]
    unfold Cursor.parameters
    refine (Tracks.expect _).bind fun name j => ?_
    exact .ifKind (by decide) (fun k => (ih k).bind fun names l => .pure _) (.pure _)

theorem allParameters_tracks (i : Nat) :
    Tracks s i (Grammar.allParameters s.last) Cursor.allParameters := by
  intro hi seen hseen
  have hlength : (s.before.drop i).length + 1 ≤ s.tokens.length + 1 := by
    simp [TokenSplit.tokens]
    omega
  -- the cursor has fuel for the tokens behind the end too
  unfold Grammar.allParameters
  rw [parameters_fuel s.ends (Nat.le_refl _) hlength]
  exact parameters_tracks _ i hi seen hseen

/-- With some fuel the procedures at a cursor do what the functions of the parser do. -/
structure Tracking (s : TokenSplit) (fuel : Nat) : Prop where
  statement (i : Nat) : Tracks s i (Grammar.statement s.last fuel) (Cursor.statement fuel)
  block (i : Nat) : Tracks s i (Grammar.block s.last fuel) (Cursor.block fuel)
  statements (i : Nat) : Tracks s i (Grammar.statements s.last fuel) (Cursor.statements fuel)
  expression (i : Nat) : Tracks s i (Grammar.expression s.last fuel) (Cursor.expression fuel)
  infixLevel (level : Level) (i : Nat) :
    Tracks s i (Grammar.infixLevel s.last fuel level) (Cursor.infixLevel fuel level)
  infixRest (level : Level) (left : Node) (i : Nat) :
    Tracks s i (Grammar.infixRest s.last fuel level left) (Cursor.infixRest fuel level left)
  call (i : Nat) : Tracks s i (Grammar.call s.last fuel) (Cursor.call fuel)
  arguments (i : Nat) : Tracks s i (Grammar.arguments s.last fuel) (Cursor.arguments fuel)
  primary (i : Nat) : Tracks s i (Grammar.primary s.last fuel) (Cursor.primary fuel)

namespace Tracking

theorem zero (s : TokenSplit) : Tracking s 0 where
  statement _ := by unfold Cursor.statement; exact .fail fun _ => .outOfFuel
  block _ := by unfold Cursor.block; exact .fail fun _ => .outOfFuel
  statements _ := by unfold Cursor.statements; exact .fail fun _ => .outOfFuel
  expression _ := by unfold Cursor.expression; exact .fail fun _ => .outOfFuel
  infixLevel _ _ := by unfold Cursor.infixLevel; exact .fail fun _ => .outOfFuel
  infixRest _ _ _ := by unfold Cursor.infixRest; exact .fail fun _ => .outOfFuel
  call _ := by unfold Cursor.call; exact .fail fun _ => .outOfFuel
  arguments _ := by unfold Cursor.arguments; exact .fail fun _ => .outOfFuel
  primary _ := by unfold Cursor.primary; exact .fail fun _ => .outOfFuel

variable {fuel : Nat}

theorem statement_succ (ih : Tracking s fuel) (i : Nat) :
    Tracks s i (Grammar.statement s.last (fuel + 1)) (Cursor.statement (fuel + 1)) := by
  rw [statement_steps]
  unfold Cursor.statement
  refine .byNext ?_
  cases hk : (s.ahead i).kind with
  | letWord =>
    refine .advance (by rw [hk]; decide) ?_
    refine (Tracks.expect _).bind fun name _ => (Tracks.expect _).bind fun _ _ => ?_
    exact (ih.expression _).bind fun value _ => (Tracks.expect _).bind fun _ _ => .pure _
  | funcWord =>
    refine .advance (by rw [hk]; decide) ?_
    refine (Tracks.expect _).bind fun name _ => (Tracks.expect _).bind fun _ _ => ?_
    refine (Tracks.upToParen (allParameters_tracks _)).bind fun params _ => ?_
    exact (Tracks.expect _).bind fun _ _ => (ih.block _).bind fun body _ => .pure _
  | ifWord =>
    refine .advance (by rw [hk]; decide) ?_
    refine (Tracks.expect _).bind fun _ _ => (ih.expression _).bind fun test _ => ?_
    refine (Tracks.expect _).bind fun _ _ => (ih.block _).bind fun consequent _ => ?_
    exact .ifKind (by decide) (fun _ => (ih.block _).bind fun alternate _ => .pure _) (.pure _)
  | whileWord =>
    refine .advance (by rw [hk]; decide) ?_
    refine (Tracks.expect _).bind fun _ _ => (ih.expression _).bind fun test _ => ?_
    exact (Tracks.expect _).bind fun _ _ => (ih.block _).bind fun body _ => .pure _
  | returnWord =>
    refine .advance (by rw [hk]; decide) (.ifKind (by decide) (fun _ => .pure _) ?_)
    exact (ih.expression _).bind fun argument _ => (Tracks.expect _).bind fun _ _ => .pure _
  | importWord =>
    refine .advance (by rw [hk]; decide) ?_
    exact (Tracks.expect _).bind fun path _ => (Tracks.expect _).bind fun _ _ => .pure _
  | leftBrace => exact (ih.block _).bind fun body _ => .pure _
  | _ => exact (ih.expression _).bind fun value _ => (Tracks.expect _).bind fun _ _ => .pure _

theorem block_succ (ih : Tracking s fuel) (i : Nat) :
    Tracks s i (Grammar.block s.last (fuel + 1)) (Cursor.block (fuel + 1)) := by
  rw [block_steps]
  unfold Cursor.block
  refine (Tracks.expect _).bind fun _ _ => (ih.statements _).bind fun body _ => ?_
  exact (Tracks.expect _).bind fun _ _ => .pure _

theorem statements_succ (ih : Tracking s fuel) (i : Nat) :
    Tracks s i (Grammar.statements s.last (fuel + 1)) (Cursor.statements (fuel + 1)) := by
  rw [statements_steps]
  unfold Cursor.statements
  refine .untilStop (fun hi => ?_) ?_
  · unfold atBrace
    rw [TokenSplit.isEmpty_drop hi, Bool.or_comm, ← Bool.decide_or]
    rfl
  · exact (ih.statement _).bind fun first _ => (ih.statements _).bind fun more _ => .pure _

theorem expression_succ (ih : Tracking s fuel) (i : Nat) :
    Tracks s i (Grammar.expression s.last (fuel + 1)) (Cursor.expression (fuel + 1)) := by
  rw [expression_steps]
  unfold Cursor.expression
  refine (ih.infixLevel .comparison _).bind fun left j => ?_
  cases left with
  | identifier x =>
    exact .ifKind (by decide) (fun _ => (ih.expression _).bind fun value _ => .pure _) (.pure _)
  | _ =>
    refine .ifNext (fun hk => ?_) fun _ => .pure _
    refine .next (.failAfter (by rw [hk]; decide) fun hi => ?_)
    exact .token (TokenSplit.ahead_mem hi) (.badTarget _ _)

theorem operandOf (ih : Tracking s fuel) (level : Level) (i : Nat) :
    Tracks s i (Grammar.operandOf s.last fuel level)
      (match level.tighter? with
        | some tighter => Cursor.infixLevel fuel tighter
        | none => Cursor.call fuel) := by
  cases level with
  | comparison => exact ih.infixLevel .additive i
  | additive => exact ih.infixLevel .multiplicative i
  | multiplicative => exact ih.call i

theorem infixLevel_succ (ih : Tracking s fuel) (level : Level) (i : Nat) :
    Tracks s i (Grammar.infixLevel s.last (fuel + 1) level)
      (Cursor.infixLevel (fuel + 1) level) := by
  rw [infixLevel_steps]
  unfold Cursor.infixLevel
  exact (ih.operandOf level i).bind fun left j => ih.infixRest level left j

theorem infixRest_succ (ih : Tracking s fuel) (level : Level) (left : Node) (i : Nat) :
    Tracks s i (Grammar.infixRest s.last (fuel + 1) level left)
      (Cursor.infixRest (fuel + 1) level left) := by
  rw [infixRest_steps]
  unfold Cursor.infixRest
  refine .ifNext (fun hop => .next (.advance (fun hend => ?_) ?_)) fun _ => .pure _
  -- an end of the input is no operator of any level
  · cases level <;> simp [Level.admits, hend] at hop
  · exact (ih.operandOf level _).bind fun right _ => ih.infixRest level _ _

theorem call_succ (ih : Tracking s fuel) (i : Nat) :
    Tracks s i (Grammar.call s.last (fuel + 1)) (Cursor.call (fuel + 1)) := by
  rw [call_steps]
  unfold Cursor.call
  refine .next (.look ((ih.primary _).bind fun callee j => ?_))
  refine .ifNext (fun hk => .ifHere (fun _ => ?_) fun _ => ?_) fun _ => .pure _
  · refine .advance (by rw [hk]; decide) ?_
    refine (Tracks.upToParen (ih.arguments _)).bind fun args _ => ?_
    exact (Tracks.expect _).bind fun _ _ => .pure _
  · exact .next (.look (.failHere (.notCallable _ _)))

theorem arguments_succ (ih : Tracking s fuel) (i : Nat) :
    Tracks s i (Grammar.arguments s.last (fuel + 1)) (Cursor.arguments (fuel + 1)) := by
  rw [arguments_steps]
  unfold Cursor.arguments
  refine (ih.expression _).bind fun first _ => ?_
  exact .ifKind (by decide) (fun _ => (ih.arguments _).bind fun more _ => .pure _) (.pure _)

theorem primary_succ (ih : Tracking s fuel) (i : Nat) :
    Tracks s i (Grammar.primary s.last (fuel + 1)) (Cursor.primary (fuel + 1)) := by
  rw [primary_steps]
  unfold Cursor.primary
  refine .byNext ?_
  cases hk : (s.ahead i).kind with
  | number =>
    have hne : (s.ahead i).kind ≠ .endOfInput := by rw [hk]; decide
    refine .next ?_
    unfold Grammar.numberLiteral Cursor.numberLiteral
    cases hread : Numeral.read? (s.ahead i).text with
    | some n => exact .next (.advance hne (.pure _))
    | none =>
      -- the number has been taken when it turns out that it cannot be read
      exact .failAfter hne fun hi => .number (TokenSplit.ahead_mem_before hi hne) hk hread
  | leftParen =>
    refine .advance (by rw [hk]; decide) ?_
    exact (ih.expression _).bind fun value _ => (Tracks.expect _).bind fun _ _ => .pure _
  | identifier | string | trueWord | falseWord | nullWord =>
    exact .single (by rw [hk]; decide) _
  | _ => exact .next (.failHere (.noExpression _))

end Tracking

theorem tracking (s : TokenSplit) (fuel : Nat) : Tracking s fuel := by
  induction fuel with
  | zero => exact .zero s
  | succ fuel ih =>
    exact {
      statement := ih.statement_succ
      block := ih.block_succ
      statements := ih.statements_succ
      expression := ih.expression_succ
      infixLevel := ih.infixLevel_succ
      infixRest := ih.infixRest_succ
      call := ih.call_succ
      arguments := ih.arguments_succ
      primary := ih.primary_succ }

/-- A whole parse at a cursor does what the parser does. -/
theorem toEnd_tracks (fuel : Nat) (i : Nat) :
    Tracks s i (Grammar.toEnd s.last fuel) (Cursor.topLevel fuel) := by
  induction fuel generalizing i with
  | zero =>
    unfold Cursor.topLevel
    exact .fail fun _ => .outOfFuel
  | succ fuel ih =>
    rw [toEnd_steps]
    unfold Cursor.topLevel
    refine .untilStop TokenSplit.isEmpty_drop ?_
    exact ((tracking s _).statement _).bind fun first _ => (ih _).bind fun more _ => .pure _

end ScriptLang
