import ScriptLang.Proofs.Grammar.Soundness

/-!
# The parser in steps

The functions of the parser as sequences of steps that take tokens off the front of a list: a token
that must stand at a place, a choice by the next token, a phrase. What is known of each step and of
sequencing is known of the parser.

Results:
* `statement_steps` and the lemmas after it: each function of the parser is a sequence of steps.
-/
namespace ScriptLang.Grammar

/-- A computation that takes tokens off the front of a list. -/
def Parse (α : Type) := List Token → Except ParseError (α × List Token)

namespace Parse

variable {α β : Type}

def pure (a : α) : Parse α := fun ts => .ok (a, ts)

def bind (x : Parse α) (k : α → Parse β) : Parse β := fun ts => x ts >>= fun r => k r.1 r.2

instance : Monad Parse where
  pure := pure
  bind := bind

def next (last : Token) : Parse Token := fun ts => .ok (peek last ts, ts)

def skip : Parse Unit := fun ts => .ok ((), ts.tail)

def fail (e : ParseError) : Parse α := fun _ => .error e

/-- Goes one way or another by the next token. -/
def ifNext (last : Token) (c : Token → Prop) [DecidablePred c] (x y : Parse α) : Parse α :=
  fun ts => if c (peek last ts) then x ts else y ts

def byNext (last : Token) (x : TokenKind → Parse α) : Parse α := fun ts => x (peek last ts).kind ts

/-- Nothing before a closing parenthesis, and some items before anything else. -/
def upToParen (last : Token) (items : Parse (List α)) : Parse (List α) :=
  ifNext last (·.kind = .rightParen) (return []) items

/-- Nothing where the items stop, and some items elsewhere. -/
def untilStop (stop : List Token → Bool) (items : Parse (List α)) : Parse (List α) :=
  fun ts => if stop ts then .ok ([], ts) else items ts

def single (last : Token) (f : Token → α) : Parse α := do
  let t ← next last
  skip
  return f t

theorem bind_of_ok {x : Parse α} {k : α → Parse β} {ts rest : List Token} {a : α}
    (h : x ts = .ok (a, rest)) : (x >>= k) ts = k a rest := by
  show x ts >>= _ = _
  rw [h]
  rfl

theorem bind_of_error {x : Parse α} {k : α → Parse β} {ts : List Token} {e : ParseError}
    (h : x ts = .error e) : (x >>= k) ts = .error e := by
  show x ts >>= _ = _
  rw [h]
  rfl

theorem upToParen_bind (last : Token) (items : Parse (List α)) (k : List α → Parse β) :
    upToParen last items >>= k = ifNext last (·.kind = .rightParen) (k []) (items >>= k) := by
  funext ts
  show (if (peek last ts).kind = .rightParen then .ok ([], ts) else items ts) >>= _ =
    if (peek last ts).kind = .rightParen then _ else _
  split <;> rfl

end Parse

open Parse (next skip fail ifNext byNext upToParen untilStop single)

variable (last : Token) (fuel : Nat)

/-- A token that must stand at a place is looked at, taken and used. -/
theorem expect_steps {β : Type} (slot : Slot) (f : Token → Parse β) :
    (expect last slot >>= f : Parse β) = (do
      let t ← next last
      ifNext last (·.kind = slot.kind)
        (do
          skip
          f t)
        (fail (.missing slot t))) := by
  funext ts
  show expect last slot ts >>= _ = if (peek last ts).kind = slot.kind then f _ ts.tail else _
  unfold expect
  split <;> rfl

/-- The parameters of a function, of which there are no more than tokens. -/
def allParameters : Parse (List Json) := fun ts => parameters last (ts.length + 1) ts

theorem parameters_steps :
    parameters last (fuel + 1) = (do
      let name ← expect last .parameterName
      ifNext last (·.kind = .comma)
        (do
          skip
          let names ← parameters last fuel
          return .str name.text :: names)
        (return [.str name.text]) : Parse (List Json)) := by
  funext ts
  unfold parameters
  rfl

/-! ## Statements -/

def declaration : Parse Node := do
  skip
  let name ← expect last .variableName
  let _ ← expect last .equalsAfterVariable
  let value ← expression last fuel
  let _ ← expect last .semicolonAfterVariable
  return .declare (.str name.text) value

def functionDefinition : Parse Node := do
  skip
  let name ← expect last .functionName
  let _ ← expect last .parenAfterFunctionName
  let params ← upToParen last (allParameters last)
  let _ ← expect last .parenAfterParameters
  let body ← block last fuel
  return .function (.str name.text) params body

def branching : Parse Node := do
  skip
  let _ ← expect last .parenAfterIf
  let test ← expression last fuel
  let _ ← expect last .parenAfterIfCondition
  let consequent ← block last fuel
  ifNext last (·.kind = .elseWord)
    (do
      skip
      let alternate ← block last fuel
      return .branch test consequent (some alternate))
    (return .branch test consequent none)

def looping : Parse Node := do
  skip
  let _ ← expect last .parenAfterWhile
  let test ← expression last fuel
  let _ ← expect last .parenAfterWhileCondition
  let body ← block last fuel
  return .loop test body

def returning : Parse Node := do
  skip
  ifNext last (·.kind = .semicolon)
    (do
      skip
      return .ret none)
    (do
      let argument ← expression last fuel
      let _ ← expect last .semicolonAfterReturn
      return .ret (some argument))

def importing : Parse Node := do
  skip
  let path ← expect last .importPath
  let _ ← expect last .semicolonAfterImport
  return .importFile path.text

def evaluation : Parse Node := do
  let value ← expression last fuel
  let _ ← expect last .semicolonAfterExpression
  return .expression value

theorem statement_steps :
    statement last (fuel + 1) = byNext last fun
      | .letWord => declaration last fuel
      | .funcWord => functionDefinition last fuel
      | .ifWord => branching last fuel
      | .whileWord => looping last fuel
      | .returnWord => returning last fuel
      | .importWord => importing last
      | .leftBrace => do
        let body ← block last fuel
        return .block body
      | _ => evaluation last fuel := by
  funext ts
  unfold statement byNext
  cases (peek last ts).kind with
  | funcWord =>
    simp only [functionDefinition, Parse.upToParen_bind]
    rfl
  | _ => rfl

theorem block_steps :
    block last (fuel + 1) = (do
      let _ ← expect last .braceBeforeBlock
      let body ← statements last fuel
      let _ ← expect last .braceAfterBlock
      return body : Parse (List Node)) := by
  funext ts
  unfold block
  rfl

/-- The statements of a block stop at its closing brace or at the end of the input. -/
def atBrace (ts : List Token) : Bool := ts.isEmpty || (peek last ts).kind = .rightBrace

theorem statements_steps :
    statements last (fuel + 1) = untilStop (atBrace last) (do
      let first ← statement last fuel
      let more ← statements last fuel
      return first :: more) := by
  funext ts
  unfold statements
  rfl

/-! ## Expressions -/

theorem expression_steps :
    expression last (fuel + 1) = (do
      let left ← infixLevel last fuel .comparison
      ifNext last (·.kind = .equals)
        (match left with
          | .identifier _ => do
            skip
            let value ← expression last fuel
            return .binary left (.str "=") value
          | _ => do
            let equals ← next last
            fail (.badTarget left.kindName equals))
        (return left) : Parse Node) := by
  funext ts
  unfold expression
  refine bind_congr fun r => ?_
  obtain ⟨left, ts⟩ := r
  cases left <;> rfl

theorem infixLevel_steps (level : Level) :
    infixLevel last (fuel + 1) level = (do
      let left ← operandOf last fuel level
      infixRest last fuel level left : Parse Node) := by
  funext ts
  exact infixLevel_succ last fuel level ts

theorem infixRest_steps (level : Level) (left : Node) :
    infixRest last (fuel + 1) level left = ifNext last (level.admits ·)
      (do
        let operator ← next last
        skip
        let right ← operandOf last fuel level
        infixRest last fuel level (.binary left (.str operator.text) right))
      (return left) := by
  funext ts
  exact infixRest_succ last fuel level left ts

theorem call_steps :
    call last (fuel + 1) = (do
      let start ← next last
      let callee ← primary last fuel
      ifNext last (·.kind = .leftParen)
        (ifNext last (fun _ => start.kind = .identifier)
          (do
            skip
            let args ← upToParen last (arguments last fuel)
            let _ ← expect last .parenAfterArguments
            return .call (.str start.text) args)
          (do
            let paren ← next last
            fail (.notCallable start.kind paren)))
        (return callee) : Parse Node) := by
  have hlist (k : List Node → Parse Node) :=
    Parse.upToParen_bind last (arguments last fuel) k
  simp only [hlist]
  funext ts
  unfold call
  rfl

theorem arguments_steps :
    arguments last (fuel + 1) = (do
      let first ← expression last fuel
      ifNext last (·.kind = .comma)
        (do
          skip
          let more ← arguments last fuel
          return first :: more)
        (return [first]) : Parse (List Node)) := by
  funext ts
  unfold arguments
  rfl

/-- Takes a number, which must be one that can be read. -/
def numberLiteral (t : Token) : Parse Node :=
  match Numeral.read? t.text with
  | some n => single last fun _ => .literal .number n
  | none => fail (.badNumber t.text)

theorem primary_steps :
    primary last (fuel + 1) = byNext last fun
      | .identifier => single last fun t => .identifier (.str t.text)
      | .number => do
        let t ← next last
        numberLiteral last t
      | .string => single last fun t => .literal .string (.str t.text)
      | .trueWord => single last fun _ => .literal .boolean (.bool true)
      | .falseWord => single last fun _ => .literal .boolean (.bool false)
      | .nullWord => single last fun _ => .literal .null .null
      | .leftParen => do
        skip
        let value ← expression last fuel
        let _ ← expect last .parenAfterExpression
        return value
      | _ => next last >>= fun t => fail (.noExpression t) := by
  funext ts
  unfold primary byNext
  dsimp only
  cases (peek last ts).kind with
  | number =>
    show _ = numberLiteral last (peek last ts) ts
    unfold numberLiteral
    cases Numeral.read? (peek last ts).text <;> rfl
  | _ => rfl

/-! ## Programs -/

/-- Takes statements up to the end of the input. -/
def toEnd : Parse (List Node) := fun ts => (topLevel last fuel ts).map (·, [])

theorem toEnd_steps :
    toEnd last (fuel + 1) = untilStop List.isEmpty (do
      let first ← statement last (fuel + 1)
      let more ← toEnd last fuel
      return first :: more) := by
  funext ts
  show Except.map _ (topLevel last (fuel + 1) ts) = _
  unfold topLevel untilStop
  cases ts with
  | nil => rfl
  | cons t ts =>
    show Except.map _ (statement last (fuel + 1) (t :: ts) >>= _) =
      statement last (fuel + 1) (t :: ts) >>= _
    cases statement last (fuel + 1) (t :: ts) with
    | error e => rfl
    | ok r =>
      show Except.map _ (topLevel last fuel r.2 >>= _) =
        Except.map _ (topLevel last fuel r.2) >>= _
      cases topLevel last fuel r.2 <;> rfl

end ScriptLang.Grammar
