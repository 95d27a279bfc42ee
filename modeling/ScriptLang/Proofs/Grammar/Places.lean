import ScriptLang.Proofs.Grammar.Steps
import ScriptLang.Proofs.Token.Words

/-!
# Places are for messages only

No choice of the parser depends on where a token stands. Two runs on tokens that are the same words
at other places are compared step by step: they make the same tree, or they stop with the same error
at another place. A step may give a token to the steps after it, so results are compared by a
relation, which is equality for trees and the same word for tokens.

Results:
* `Alike.bind` and the lemmas beside it: steps that do alike, one after another;
* `placeless`: each function of the parser does alike at all places;
* `ofStream_alike`: so does the whole parser.
-/
namespace ScriptLang

/-- The same error, about the same words at other places. -/
inductive ParseError.Elsewhere : ParseError → ParseError → Prop
  | missing (slot : Slot) {t t' : Token} : t.word = t'.word →
      Elsewhere (.missing slot t) (.missing slot t')
  | badTarget (kind : String) {t t' : Token} : t.word = t'.word →
      Elsewhere (.badTarget kind t) (.badTarget kind t')
  | notCallable (kind : TokenKind) {t t' : Token} : t.word = t'.word →
      Elsewhere (.notCallable kind t) (.notCallable kind t')
  | noExpression {t t' : Token} : t.word = t'.word → Elsewhere (.noExpression t) (.noExpression t')
  | badNumber (text : String) : Elsewhere (.badNumber text) (.badNumber text)
  | outOfFuel : Elsewhere .outOfFuel .outOfFuel

namespace ParseError.Elsewhere

variable {e e' : ParseError}

theorem expected (h : e.Elsewhere e') : e'.expected = e.expected := by
  cases h <;> rfl

theorem found (h : e.Elsewhere e') : e'.found = e.found := by
  cases h with
  | missing _ ht | noExpression ht => exact (congrArg (fun w => w.kind.label) ht).symm
  | _ => rfl

end ParseError.Elsewhere

namespace Grammar

/-! ## Words at other places -/

def SameWords (ts us : List Token) : Prop := ts.map Token.word = us.map Token.word

namespace SameWords

variable {ts us : List Token} {last last' : Token}

theorem length (h : SameWords ts us) : ts.length = us.length := by
  simpa using congrArg List.length h

theorem isEmpty (h : SameWords ts us) : ts.isEmpty = us.isEmpty := by
  rw [Bool.eq_iff_iff, List.isEmpty_iff_length_eq_zero, List.isEmpty_iff_length_eq_zero, h.length]

theorem tail (h : SameWords ts us) : SameWords ts.tail us.tail := by
  unfold SameWords
  rw [List.map_tail, List.map_tail, h]

theorem peek (h : SameWords ts us) (hlast : last.word = last'.word) :
    (peek last ts).word = (peek last' us).word := by
  cases ts with
  | nil =>
    obtain rfl := List.map_eq_nil_iff.mp h.symm
    exact hlast
  | cons t ts =>
    obtain ⟨u, us, rfl, hu, -⟩ := List.map_eq_cons_iff.mp h.symm
    exact hu.symm

end SameWords

namespace Parse

variable {α β : Type} {R : α → α → Prop} {S : β → β → Prop}

/-- Two runs end in the same way: with related results and the same words left, or with the same
error elsewhere. -/
inductive SameEnd (R : α → α → Prop) :
    Except ParseError (α × List Token) → Except ParseError (α × List Token) → Prop
  | ok {a b : α} {ts us : List Token} : R a b → SameWords ts us →
      SameEnd R (.ok (a, ts)) (.ok (b, us))
  | error {e e' : ParseError} : e.Elsewhere e' → SameEnd R (.error e) (.error e')

/-- On the same words the computations end in the same way. -/
def Alike (R : α → α → Prop) (x y : Parse α) : Prop :=
  ∀ ts us, SameWords ts us → SameEnd R (x ts) (y us)

def SameWord (t t' : Token) : Prop := t.word = t'.word

theorem SameWord.kind {t t' : Token} (h : SameWord t t') : t.kind = t'.kind := congrArg Word.kind h

theorem SameWord.text {t t' : Token} (h : SameWord t t') : t.text = t'.text := congrArg Word.text h

namespace Alike

variable {x y x' y' : Parse α} {f g : α → Parse β} {last last' : Token}

theorem pure {a b : α} (h : R a b) : Alike R (Pure.pure a) (Pure.pure b) :=
  fun _ _ hts => .ok h hts

theorem fail {e e' : ParseError} (h : e.Elsewhere e') : Alike R (fail e) (fail e') :=
  fun _ _ _ => .error h

theorem bind (hx : Alike R x y) (hf : ∀ a b, R a b → Alike S (f a) (g b)) :
    Alike S (x >>= f) (y >>= g) := by
  intro ts us hts
  have hend := hx ts us hts
  show SameEnd S (x ts >>= fun r => f r.1 r.2) (y us >>= fun r => g r.1 r.2)
  generalize x ts = run, y us = run' at hend ⊢
  cases hend with
  | ok hab hrest => exact hf _ _ hab _ _ hrest
  | error he => exact .error he

/-- The same tree may be used in the same way. -/
theorem bindEq (hx : Alike Eq x y) (hf : ∀ a, Alike S (f a) (g a)) :
    Alike S (x >>= f) (y >>= g) := by
  refine bind hx ?_
  rintro a _ rfl
  exact hf a

theorem next (hlast : last.word = last'.word) : Alike SameWord (next last) (next last') :=
  fun _ _ hts => .ok (hts.peek hlast) hts

theorem skip : Alike Eq skip skip := fun _ _ hts => .ok rfl hts.tail

theorem ifNext (hlast : last.word = last'.word) {c c' : Token → Prop} [DecidablePred c]
    [DecidablePred c'] (hc : ∀ t t', SameWord t t' → (c t ↔ c' t')) (hx : Alike R x x')
    (hy : Alike R y y') : Alike R (ifNext last c x y) (ifNext last' c' x' y') := by
  intro ts us hts
  have hnext := hc _ _ (hts.peek hlast)
  unfold Parse.ifNext
  by_cases h : c (peek last ts)
  · rw [if_pos h, if_pos (hnext.mp h)]
    exact hx ts us hts
  · rw [if_neg h, if_neg fun h' => h (hnext.mpr h')]
    exact hy ts us hts

/-- A choice by the class of the next token. -/
theorem ifKind (hlast : last.word = last'.word) (kind : TokenKind) (hx : Alike R x x')
    (hy : Alike R y y') :
    Alike R (Parse.ifNext last (·.kind = kind) x y) (Parse.ifNext last' (·.kind = kind) x' y') :=
  ifNext hlast (fun _ _ ht => by rw [ht.kind]) hx hy

theorem byNext (hlast : last.word = last'.word) {x y : TokenKind → Parse α}
    (h : ∀ kind, Alike R (x kind) (y kind)) : Alike R (byNext last x) (byNext last' y) := by
  intro ts us hts
  have hkind : (peek last ts).kind = (peek last' us).kind := SameWord.kind (hts.peek hlast)
  unfold Parse.byNext
  rw [hkind]
  exact h _ ts us hts

theorem expect (hlast : last.word = last'.word) (slot : Slot) :
    Alike SameWord (Grammar.expect last slot) (Grammar.expect last' slot) := by
  intro ts us hts
  have hnext : SameWord (peek last ts) (peek last' us) := hts.peek hlast
  unfold Grammar.expect
  rw [hnext.kind]
  split
  · exact .ok hnext hts.tail
  · exact .error (.missing slot hnext)

theorem single (hlast : last.word = last'.word) {f : Token → α}
    (hf : ∀ t t', SameWord t t' → f t = f t') : Alike Eq (single last f) (single last' f) :=
  (next hlast).bind fun t t' ht => skip.bindEq fun _ => pure (hf t t' ht)

theorem upToParen (hlast : last.word = last'.word) {items items' : Parse (List α)}
    (h : Alike Eq items items') : Alike Eq (upToParen last items) (upToParen last' items') :=
  ifKind hlast _ (pure rfl) h

theorem untilStop {stop stop' : List Token → Bool} {items items' : Parse (List α)}
    (hstop : ∀ ts us, SameWords ts us → stop ts = stop' us) (h : Alike Eq items items') :
    Alike Eq (untilStop stop items) (untilStop stop' items') := by
  intro ts us hts
  unfold Parse.untilStop
  rw [hstop ts us hts]
  split
  · exact .ok rfl hts
  · exact h ts us hts

end Alike

end Parse

open Parse (Alike SameWord)

/-! ## The functions of the parser -/

variable {last last' : Token}

theorem parameters_alike (hlast : last.word = last'.word) (fuel : Nat) :
    Alike Eq (parameters last fuel) (parameters last' fuel) := by
  induction fuel with
  | zero => exact .fail .outOfFuel
  | succ fuel ih =>
    simp only [parameters_steps]
    refine (Alike.expect hlast _).bind fun name name' hname => ?_
    rw [hname.text]
    refine .ifKind hlast _ (Alike.skip.bindEq fun _ => ?_) (.pure rfl)
    exact ih.bindEq fun names => .pure rfl

theorem allParameters_alike (hlast : last.word = last'.word) :
    Alike Eq (allParameters last) (allParameters last') := by
  intro ts us hts
  unfold allParameters
  rw [hts.length]
  exact parameters_alike hlast _ ts us hts

/-- With this fuel each function of the parser does alike, whatever the places of the tokens. -/
structure Placeless (last last' : Token) (fuel : Nat) : Prop where
  statement : Alike Eq (statement last fuel) (statement last' fuel)
  block : Alike Eq (block last fuel) (block last' fuel)
  statements : Alike Eq (statements last fuel) (statements last' fuel)
  expression : Alike Eq (expression last fuel) (expression last' fuel)
  infixLevel (level : Level) : Alike Eq (infixLevel last fuel level) (infixLevel last' fuel level)
  infixRest (level : Level) (left : Node) :
    Alike Eq (infixRest last fuel level left) (infixRest last' fuel level left)
  call : Alike Eq (call last fuel) (call last' fuel)
  arguments : Alike Eq (arguments last fuel) (arguments last' fuel)
  primary : Alike Eq (primary last fuel) (primary last' fuel)

namespace Placeless

variable {fuel : Nat}

theorem zero (last last' : Token) : Placeless last last' 0 where
  statement := .fail .outOfFuel
  block := .fail .outOfFuel
  statements := .fail .outOfFuel
  expression := .fail .outOfFuel
  infixLevel _ := .fail .outOfFuel
  infixRest _ _ := .fail .outOfFuel
  call := .fail .outOfFuel
  arguments := .fail .outOfFuel
  primary := .fail .outOfFuel

theorem declaration (hlast : last.word = last'.word) (ih : Placeless last last' fuel) :
    Alike Eq (declaration last fuel) (declaration last' fuel) := by
  refine Alike.skip.bindEq fun _ => (Alike.expect hlast _).bind fun name name' hname => ?_
  rw [hname.text]
  refine (Alike.expect hlast _).bind fun _ _ _ => ih.expression.bindEq fun value => ?_
  exact (Alike.expect hlast _).bind fun _ _ _ => .pure rfl

theorem functionDefinition (hlast : last.word = last'.word) (ih : Placeless last last' fuel) :
    Alike Eq (functionDefinition last fuel) (functionDefinition last' fuel) := by
  refine Alike.skip.bindEq fun _ => (Alike.expect hlast _).bind fun name name' hname => ?_
  rw [hname.text]
  refine (Alike.expect hlast _).bind fun _ _ _ => ?_
  refine (Alike.upToParen hlast (allParameters_alike hlast)).bindEq fun params => ?_
  refine (Alike.expect hlast _).bind fun _ _ _ => ?_
  exact ih.block.bindEq fun body => .pure rfl

theorem branching (hlast : last.word = last'.word) (ih : Placeless last last' fuel) :
    Alike Eq (branching last fuel) (branching last' fuel) := by
  refine Alike.skip.bindEq fun _ => (Alike.expect hlast _).bind fun _ _ _ => ?_
  refine ih.expression.bindEq fun test => (Alike.expect hlast _).bind fun _ _ _ => ?_
  refine ih.block.bindEq fun consequent =>
    .ifKind hlast _ (Alike.skip.bindEq fun _ => ?_) (.pure rfl)
  exact ih.block.bindEq fun alternate => .pure rfl

theorem looping (hlast : last.word = last'.word) (ih : Placeless last last' fuel) :
    Alike Eq (looping last fuel) (looping last' fuel) := by
  refine Alike.skip.bindEq fun _ => (Alike.expect hlast _).bind fun _ _ _ => ?_
  refine ih.expression.bindEq fun test => (Alike.expect hlast _).bind fun _ _ _ => ?_
  exact ih.block.bindEq fun body => .pure rfl

theorem returning (hlast : last.word = last'.word) (ih : Placeless last last' fuel) :
    Alike Eq (returning last fuel) (returning last' fuel) := by
  refine Alike.skip.bindEq fun _ => .ifKind hlast _ (Alike.skip.bindEq fun _ => .pure rfl) ?_
  refine ih.expression.bindEq fun value => ?_
  exact (Alike.expect hlast _).bind fun _ _ _ => .pure rfl

theorem importing (hlast : last.word = last'.word) :
    Alike Eq (importing last) (importing last') := by
  refine Alike.skip.bindEq fun _ => (Alike.expect hlast _).bind fun path path' hpath => ?_
  rw [hpath.text]
  exact (Alike.expect hlast _).bind fun _ _ _ => .pure rfl

theorem evaluation (hlast : last.word = last'.word) (ih : Placeless last last' fuel) :
    Alike Eq (evaluation last fuel) (evaluation last' fuel) :=
  ih.expression.bindEq fun _ => (Alike.expect hlast _).bind fun _ _ _ => .pure rfl

theorem statement_succ (hlast : last.word = last'.word) (ih : Placeless last last' fuel) :
    Alike Eq (Grammar.statement last (fuel + 1)) (Grammar.statement last' (fuel + 1)) := by
  simp only [statement_steps]
  refine .byNext hlast fun kind => ?_
  cases kind with
  | letWord => exact ih.declaration hlast
  | funcWord => exact ih.functionDefinition hlast
  | ifWord => exact ih.branching hlast
  | whileWord => exact ih.looping hlast
  | returnWord => exact ih.returning hlast
  | importWord => exact importing hlast
  | leftBrace => exact ih.block.bindEq fun body => .pure rfl
  | _ => exact ih.evaluation hlast

theorem block_succ (hlast : last.word = last'.word) (ih : Placeless last last' fuel) :
    Alike Eq (Grammar.block last (fuel + 1)) (Grammar.block last' (fuel + 1)) := by
  simp only [block_steps]
  refine (Alike.expect hlast _).bind fun _ _ _ => ih.statements.bindEq fun body => ?_
  exact (Alike.expect hlast _).bind fun _ _ _ => .pure rfl

theorem statements_succ (hlast : last.word = last'.word) (ih : Placeless last last' fuel) :
    Alike Eq (Grammar.statements last (fuel + 1)) (Grammar.statements last' (fuel + 1)) := by
  simp only [statements_steps]
  refine .untilStop (fun ts us hts => ?_) (ih.statement.bindEq fun first => ?_)
  · rw [atBrace, atBrace, hts.isEmpty, SameWord.kind (hts.peek hlast)]
  · exact ih.statements.bindEq fun more => .pure rfl

theorem expression_succ (hlast : last.word = last'.word) (ih : Placeless last last' fuel) :
    Alike Eq (Grammar.expression last (fuel + 1)) (Grammar.expression last' (fuel + 1)) := by
  simp only [expression_steps]
  refine (ih.infixLevel .comparison).bindEq fun left => .ifKind hlast _ ?_ (.pure rfl)
  cases left with
  | identifier =>
    exact Alike.skip.bindEq fun _ => ih.expression.bindEq fun value => .pure rfl
  | _ => exact (Alike.next hlast).bind fun _ _ ht => .fail (.badTarget _ ht)

theorem operandOf (ih : Placeless last last' fuel) (level : Level) :
    Alike Eq (Grammar.operandOf last fuel level) (Grammar.operandOf last' fuel level) := by
  cases level with
  | comparison => exact ih.infixLevel .additive
  | additive => exact ih.infixLevel .multiplicative
  | multiplicative => exact ih.call

theorem infixLevel_succ (ih : Placeless last last' fuel) (level : Level) :
    Alike Eq (Grammar.infixLevel last (fuel + 1) level)
      (Grammar.infixLevel last' (fuel + 1) level) := by
  simp only [infixLevel_steps]
  exact (ih.operandOf level).bindEq fun left => ih.infixRest level left

theorem infixRest_succ (hlast : last.word = last'.word) (ih : Placeless last last' fuel)
    (level : Level) (left : Node) :
    Alike Eq (Grammar.infixRest last (fuel + 1) level left)
      (Grammar.infixRest last' (fuel + 1) level left) := by
  simp only [infixRest_steps]
  refine .ifNext hlast (fun t t' ht => ?_) ?_ (.pure rfl)
  · cases level <;> simp only [Level.admits, ht.kind, ht.text]
  refine (Alike.next hlast).bind fun op op' hop => Alike.skip.bindEq fun _ => ?_
  rw [hop.text]
  exact (ih.operandOf level).bindEq fun right => ih.infixRest level _

theorem call_succ (hlast : last.word = last'.word) (ih : Placeless last last' fuel) :
    Alike Eq (Grammar.call last (fuel + 1)) (Grammar.call last' (fuel + 1)) := by
  simp only [call_steps]
  refine (Alike.next hlast).bind fun start start' hstart => ih.primary.bindEq fun callee => ?_
  refine .ifKind hlast _ (.ifNext hlast (fun _ _ _ => by rw [hstart.kind]) ?_ ?_) (.pure rfl)
  · refine Alike.skip.bindEq fun _ => (Alike.upToParen hlast ih.arguments).bindEq fun args => ?_
    rw [hstart.text]
    exact (Alike.expect hlast _).bind fun _ _ _ => .pure rfl
  · rw [hstart.kind]
    exact (Alike.next hlast).bind fun _ _ ht => .fail (.notCallable _ ht)

theorem arguments_succ (hlast : last.word = last'.word) (ih : Placeless last last' fuel) :
    Alike Eq (Grammar.arguments last (fuel + 1)) (Grammar.arguments last' (fuel + 1)) := by
  simp only [arguments_steps]
  refine ih.expression.bindEq fun first =>
    .ifKind hlast _ (Alike.skip.bindEq fun _ => ?_) (.pure rfl)
  exact ih.arguments.bindEq fun more => .pure rfl

theorem numberLiteral (hlast : last.word = last'.word) {t t' : Token} (ht : SameWord t t') :
    Alike Eq (numberLiteral last t) (numberLiteral last' t') := by
  unfold Grammar.numberLiteral
  rw [ht.text]
  cases Numeral.read? t'.text with
  | some n => exact .single hlast fun _ _ _ => rfl
  | none => exact .fail (.badNumber _)

theorem primary_succ (hlast : last.word = last'.word) (ih : Placeless last last' fuel) :
    Alike Eq (Grammar.primary last (fuel + 1)) (Grammar.primary last' (fuel + 1)) := by
  simp only [primary_steps]
  refine .byNext hlast fun kind => ?_
  cases kind with
  | identifier | string | trueWord | falseWord | nullWord =>
    exact .single hlast fun _ _ ht => by simp only [ht.text]
  | number => exact (Alike.next hlast).bind fun _ _ ht => numberLiteral hlast ht
  | leftParen =>
    refine Alike.skip.bindEq fun _ => ih.expression.bindEq fun value => ?_
    exact (Alike.expect hlast _).bind fun _ _ _ => .pure rfl
  | _ => exact (Alike.next hlast).bind fun _ _ ht => .fail (.noExpression ht)

end Placeless

theorem placeless (hlast : last.word = last'.word) (fuel : Nat) : Placeless last last' fuel := by
  induction fuel with
  | zero => exact .zero last last'
  | succ fuel ih =>
    exact {
      statement := ih.statement_succ hlast
      block := ih.block_succ hlast
      statements := ih.statements_succ hlast
      expression := ih.expression_succ hlast
      infixLevel := ih.infixLevel_succ
      infixRest := ih.infixRest_succ hlast
      call := ih.call_succ hlast
      arguments := ih.arguments_succ hlast
      primary := ih.primary_succ hlast }

theorem toEnd_alike (hlast : last.word = last'.word) (fuel : Nat) :
    Alike Eq (toEnd last fuel) (toEnd last' fuel) := by
  induction fuel with
  | zero => exact .fail .outOfFuel
  | succ fuel ih =>
    simp only [toEnd_steps]
    refine .untilStop (fun _ _ hts => hts.isEmpty) ?_
    exact (placeless hlast _).statement.bindEq fun first => ih.bindEq fun more => .pure rfl

/-- The same words at other places are the same program, or the same error at another place. -/
theorem ofStream_alike {s s' : TokenStream} (htokens : SameWords s.tokens s'.tokens)
    (hlast : s.last.word = s'.last.word) :
    (∃ p, Program.ofStream s = .ok p ∧ Program.ofStream s' = .ok p) ∨
      ∃ e e', Program.ofStream s = .error e ∧ Program.ofStream s' = .error e' ∧ e.Elsewhere e' := by
  have hend := toEnd_alike hlast (fuelFor s.tokens.length) _ _ htokens
  unfold toEnd at hend
  unfold Program.ofStream
  rw [← htokens.length]
  generalize topLevel s.last _ s.tokens = run at hend
  generalize topLevel s'.last _ s'.tokens = run' at hend
  cases run with
  | ok nodes =>
    cases run' with
    | ok nodes' =>
      cases hend with
      | ok h _ => exact .inl ⟨⟨nodes⟩, rfl, by rw [h]; rfl⟩
    | error => cases hend
  | error e =>
    cases run' with
    | ok => cases hend
    | error e' =>
      cases hend with
      | error he => exact .inr ⟨e, e', rfl, rfl, he⟩

end Grammar

end ScriptLang
