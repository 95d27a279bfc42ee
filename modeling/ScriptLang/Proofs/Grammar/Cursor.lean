import ScriptLang.Grammar

/-!
# The grammar at a cursor

The procedures of the grammar for a list of tokens that stays as it is. A cursor goes over it, a token
is looked at by its index, and the end of the input is a token like any other, of which there may be
many: nothing but what the procedures do keeps the cursor from going on behind the first of them. Each
index that is looked at is noted, also by a parse that stops; where there is no token the parse stops
for that reason.
-/
namespace ScriptLang

/-- Why a parse at a cursor stops. -/
inductive Cursor.Stop where
  | error (e : ParseError)
  /-- There is no token where the cursor is. -/
  | beyond
  deriving DecidableEq

structure Cursor.State where
  index : Nat
  /-- The indices that have been looked at, the last one first. -/
  seen : List Nat
  deriving DecidableEq

/-- A computation with a cursor on a list of tokens. -/
def Cursor (α : Type) := List Token → Cursor.State → Except Cursor.Stop α × Cursor.State

namespace Cursor

variable {α β : Type}

def pure (a : α) : Cursor α := fun _ s => (.ok a, s)

def bind (x : Cursor α) (k : α → Cursor β) : Cursor β := fun tokens s =>
  match x tokens s with
  | (.ok a, s) => k a tokens s
  | (.error stop, s) => (.error stop, s)

instance : Monad Cursor where
  pure := pure
  bind := bind

def fail (e : ParseError) : Cursor α := fun _ s => (.error (.error e), s)

def look : Cursor Token := fun tokens s =>
  match tokens[s.index]? with
  | some t => (.ok t, { s with seen := s.index :: s.seen })
  | none => (.error .beyond, { s with seen := s.index :: s.seen })

def move : Cursor Unit := fun _ s => (.ok (), { s with index := s.index + 1 })

/-- Moves the cursor, unless it is at an end of the input. -/
def advance : Cursor Unit := do
  let t ← look
  if t.kind = .endOfInput then return () else move

def expect (slot : Slot) : Cursor Token := do
  let t ← look
  if t.kind = slot.kind then do
    advance
    return t
  else fail (.missing slot t)

/-! ## Statements -/

/-- The parameters of a function, from one of them on, up to the closing parenthesis. -/
def parameters : Nat → Cursor (List Json)
  | 0 => fail .outOfFuel
  | fuel + 1 => do
    let name ← expect .parameterName
    let t ← look
    if t.kind = .comma then do
      advance
      let names ← parameters fuel
      return .str name.text :: names
    else return [.str name.text]

/-- The parameters of a function, of which there are no more than tokens. -/
def allParameters : Cursor (List Json) := fun tokens s => parameters (tokens.length + 1) tokens s

/-- Nothing before a closing parenthesis, and some items before anything else. -/
def upToParen (items : Cursor (List α)) : Cursor (List α) := do
  let t ← look
  if t.kind = .rightParen then return [] else items

def single (f : Token → α) : Cursor α := do
  let t ← look
  advance
  return f t

/-- Takes a number, which must be one that can be read. -/
def numberLiteral (t : Token) : Cursor Node := do
  advance
  match Numeral.read? t.text with
  | some n => return .literal .number n
  | none => fail (.badNumber t.text)

mutual

def statement : Nat → Cursor Node
  | 0 => fail .outOfFuel
  | fuel + 1 => do
    let t ← look
    match t.kind with
    | .letWord => do
      advance
      let name ← expect .variableName
      let _ ← expect .equalsAfterVariable
      let value ← expression fuel
      let _ ← expect .semicolonAfterVariable
      return .declare (.str name.text) value
    | .funcWord => do
      advance
      let name ← expect .functionName
      let _ ← expect .parenAfterFunctionName
      let params ← upToParen allParameters
      let _ ← expect .parenAfterParameters
      let body ← block fuel
      return .function (.str name.text) params body
    | .ifWord => do
      advance
      let _ ← expect .parenAfterIf
      let test ← expression fuel
      let _ ← expect .parenAfterIfCondition
      let consequent ← block fuel
      let t ← look
      if t.kind = .elseWord then do
        advance
        let alternate ← block fuel
        return .branch test consequent (some alternate)
      else return .branch test consequent none
    | .whileWord => do
      advance
      let _ ← expect .parenAfterWhile
      let test ← expression fuel
      let _ ← expect .parenAfterWhileCondition
      let body ← block fuel
      return .loop test body
    | .returnWord => do
      advance
      let t ← look
      if t.kind = .semicolon then do
        advance
        return .ret none
      else do
        let argument ← expression fuel
        let _ ← expect .semicolonAfterReturn
        return .ret (some argument)
    | .importWord => do
      advance
      let path ← expect .importPath
      let _ ← expect .semicolonAfterImport
      return .importFile path.text
    | .leftBrace => do
      let body ← block fuel
      return .block body
    | _ => do
      let value ← expression fuel
      let _ ← expect .semicolonAfterExpression
      return .expression value

def block : Nat → Cursor (List Node)
  | 0 => fail .outOfFuel
  | fuel + 1 => do
    let _ ← expect .braceBeforeBlock
    let body ← statements fuel
    let _ ← expect .braceAfterBlock
    return body

def statements : Nat → Cursor (List Node)
  | 0 => fail .outOfFuel
  | fuel + 1 => do
    let t ← look
    if t.kind = .rightBrace ∨ t.kind = .endOfInput then return []
    else do
      let first ← statement fuel
      let more ← statements fuel
      return first :: more

def expression : Nat → Cursor Node
  | 0 => fail .outOfFuel
  | fuel + 1 => do
    let left ← infixLevel fuel .comparison
    let equals ← look
    if equals.kind = .equals then do
      advance
      match left with
      | .identifier _ => do
        let value ← expression fuel
        return .binary left (.str "=") value
      | _ => fail (.badTarget left.kindName equals)
    else return left

def infixLevel : Nat → Grammar.Level → Cursor Node
  | 0, _ => fail .outOfFuel
  | fuel + 1, level => do
    let left ← (match level.tighter? with
      | some tighter => infixLevel fuel tighter
      | none => call fuel : Cursor Node)
    infixRest fuel level left

def infixRest : Nat → Grammar.Level → Node → Cursor Node
  | 0, _, _ => fail .outOfFuel
  | fuel + 1, level, left => do
    let operator ← look
    if level.admits operator then do
      advance
      let right ← (match level.tighter? with
        | some tighter => infixLevel fuel tighter
        | none => call fuel : Cursor Node)
      infixRest fuel level (.binary left (.str operator.text) right)
    else return left

def call : Nat → Cursor Node
  | 0 => fail .outOfFuel
  | fuel + 1 => do
    let start ← look
    let callee ← primary fuel
    let paren ← look
    if paren.kind = .leftParen then
      if start.kind = .identifier then do
        advance
        let args ← upToParen (arguments fuel)
        let _ ← expect .parenAfterArguments
        return .call (.str start.text) args
      else do
        let paren ← look
        fail (.notCallable start.kind paren)
    else return callee

def arguments : Nat → Cursor (List Node)
  | 0 => fail .outOfFuel
  | fuel + 1 => do
    let first ← expression fuel
    let t ← look
    if t.kind = .comma then do
      advance
      let more ← arguments fuel
      return first :: more
    else return [first]

def primary : Nat → Cursor Node
  | 0 => fail .outOfFuel
  | fuel + 1 => do
    let t ← look
    match t.kind with
    | .identifier => single fun t => .identifier (.str t.text)
    | .number => numberLiteral t
    | .string => single fun t => .literal .string (.str t.text)
    | .trueWord => single fun _ => .literal .boolean (.bool true)
    | .falseWord => single fun _ => .literal .boolean (.bool false)
    | .nullWord => single fun _ => .literal .null .null
    | .leftParen => do
      advance
      let value ← expression fuel
      let _ ← expect .parenAfterExpression
      return value
    | _ => fail (.noExpression t)

end

def topLevel : Nat → Cursor (List Node)
  | 0 => fail .outOfFuel
  | fuel + 1 => do
    let t ← look
    if t.kind = .endOfInput then return []
    else do
      let first ← statement (fuel + 1)
      let more ← topLevel fuel
      return first :: more

/-- The parse of a list of tokens from the first of them on. -/
def parse (fuel : Nat) (tokens : List Token) : Except Stop Program × State :=
  (do
    let nodes ← topLevel fuel
    return ⟨nodes⟩ : Cursor Program) tokens ⟨0, []⟩

end Cursor

end ScriptLang
