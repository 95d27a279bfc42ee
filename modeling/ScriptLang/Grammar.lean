import ScriptLang.Node
import ScriptLang.Token
import ScriptLang.Number.Numeral
import ScriptLang.Text.Quoted

/-!
# The grammar

Which token streams are programs, and which trees they stand for. Each function takes a phrase off
the front of the tokens and looks one token ahead. The three levels of binary operators share the
functions `infixLevel` and `infixRest`. Every function stops at the end of the input, and each unit
of fuel is spent on a call; `Grammar.fuelFor` gives more than any stream of a length can use.

The functions are the methods of `Parser`. Phrases may be nested to any depth: that a host has a
recursion budget, which deep nesting can exhaust, is left out.
-/
namespace ScriptLang

/-! ## Errors -/

/-- A place in the grammar where only one class of tokens can stand. -/
inductive Slot where
  | semicolonAfterExpression
  | variableName
  | equalsAfterVariable
  | semicolonAfterVariable
  | functionName
  | parenAfterFunctionName
  | parameterName
  | parenAfterParameters
  | parenAfterIf
  | parenAfterIfCondition
  | parenAfterWhile
  | parenAfterWhileCondition
  | semicolonAfterReturn
  | importPath
  | semicolonAfterImport
  | braceBeforeBlock
  | braceAfterBlock
  | parenAfterArguments
  | parenAfterExpression
  deriving DecidableEq, Repr

namespace Slot

def kind : Slot → TokenKind
  | .semicolonAfterExpression | .semicolonAfterVariable => .semicolon
  | .semicolonAfterReturn | .semicolonAfterImport => .semicolon
  | .variableName | .functionName | .parameterName => .identifier
  | .equalsAfterVariable => .equals
  | .parenAfterFunctionName | .parenAfterIf | .parenAfterWhile => .leftParen
  | .parenAfterParameters | .parenAfterIfCondition | .parenAfterWhileCondition => .rightParen
  | .parenAfterArguments | .parenAfterExpression => .rightParen
  | .importPath => .string
  | .braceBeforeBlock => .leftBrace
  | .braceAfterBlock => .rightBrace

def message : Slot → String
  | .semicolonAfterExpression => "Expected ';' after expression"
  | .variableName => "Expected variable name"
  | .equalsAfterVariable => "Expected '=' after variable name"
  | .semicolonAfterVariable => "Expected ';' after variable declaration"
  | .functionName => "Expected function name"
  | .parenAfterFunctionName => "Expected '(' after function name"
  | .parameterName => "Expected parameter name"
  | .parenAfterParameters => "Expected ')' after parameters"
  | .parenAfterIf => "Expected '(' after 'if'"
  | .parenAfterIfCondition => "Expected ')' after if condition"
  | .parenAfterWhile => "Expected '(' after 'while'"
  | .parenAfterWhileCondition => "Expected ')' after while condition"
  | .semicolonAfterReturn => "Expected ';' after return value"
  | .importPath => "Expected import path string"
  | .semicolonAfterImport => "Expected ';' after import statement"
  | .braceBeforeBlock => "Expected '\x7b' to start a block"
  | .braceAfterBlock => "Expected '\x7d' to end a block"
  | .parenAfterArguments => "Expected ')' after arguments"
  | .parenAfterExpression => "Expected ')' after expression"

end Slot

/-- Why a list of tokens is no program (`OBPIParseError`). `outOfFuel` arises for no stream. -/
inductive ParseError where
  | noEnd
  | missing (slot : Slot) (found : Token)
  | badTarget (kind : String) (equals : Token)
  | notCallable (start : TokenKind) (paren : Token)
  | noExpression (found : Token)
  | badNumber (text : String)
  | outOfFuel
  deriving DecidableEq, Repr

namespace ParseError

def message (file : String) : ParseError → String
  | .noEnd => "Token stream must end with EOF"
  | .missing slot t =>
    slot.message ++ ". Found " ++ t.kind.label ++ " instead of " ++ slot.kind.label ++ " at "
      ++ t.position.inFile file
  | .badTarget _ t => "Invalid left-hand side in assignment at " ++ t.position.inFile file
  | .notCallable _ t =>
    "Expected identifier before call expression at " ++ t.position.inFile file
  | .noExpression t =>
    "Unexpected token " ++ t.kind.label ++ " (" ++ Text.quoted t.text ++ ") in expression at "
      ++ t.position.inFile file
  | .badNumber text => "could not convert string to float: " ++ Text.quoted text
  | .outOfFuel => "out of fuel"

def expected : ParseError → String
  | .noEnd => "EOF"
  | .missing slot _ => slot.kind.label
  | .badTarget .. | .notCallable .. => "IDENT"
  | .noExpression _ => "expression"
  | .badNumber _ | .outOfFuel => ""

def found : ParseError → String
  | .noEnd => "end of input"
  | .missing _ t | .noExpression t => t.kind.label
  | .badTarget kind _ => kind
  | .notCallable start _ => start.label
  | .badNumber _ | .outOfFuel => ""

end ParseError

namespace Grammar

/-! ## Single tokens -/

/-- The token to look at; `last` marks the end of the input. -/
def peek (last : Token) (ts : List Token) : Token := ts.headD last

/-- Takes the token that must stand at a place (`_expect`). -/
def expect (last : Token) (slot : Slot) (ts : List Token) :
    Except ParseError (Token × List Token) :=
  if (peek last ts).kind = slot.kind then .ok (peek last ts, ts.tail)
  else .error (.missing slot (peek last ts))

/-! ## Levels of binary operators -/

/-- The levels, from the loosest to the tightest. -/
inductive Level where
  | comparison
  | additive
  | multiplicative
  deriving DecidableEq, Repr

namespace Level

def admits : Level → Token → Bool
  | .comparison, t => decide (t.kind = .comparison)
  | .additive, t => decide (t.kind = .binaryOperator) && (t.text == "+" || t.text == "-")
  | .multiplicative, t => decide (t.kind = .binaryOperator) && (t.text == "*" || t.text == "/")

/-- The level of the operands. -/
def tighter? : Level → Option Level
  | .comparison => some .additive
  | .additive => some .multiplicative
  | .multiplicative => none

end Level

/-! ## The grammar -/

/-- The parameters of a function, from one of them on, up to the closing parenthesis. -/
def parameters (last : Token) : Nat → List Token → Except ParseError (List Json × List Token)
  | 0, _ => .error .outOfFuel
  | fuel + 1, ts => do
    let (name, ts) ← expect last .parameterName ts
    if (peek last ts).kind = .comma then
      let (names, ts) ← parameters last fuel ts.tail
      return (.str name.text :: names, ts)
    else return ([.str name.text], ts)

mutual

/-- A statement (`_parse_statement`). -/
def statement (last : Token) : Nat → List Token → Except ParseError (Node × List Token)
  | 0, _ => .error .outOfFuel
  | fuel + 1, ts =>
    match (peek last ts).kind with
    | .letWord => do
      let (name, ts) ← expect last .variableName ts.tail
      let (_, ts) ← expect last .equalsAfterVariable ts
      let (value, ts) ← expression last fuel ts
      let (_, ts) ← expect last .semicolonAfterVariable ts
      return (.declare (.str name.text) value, ts)
    | .funcWord => do
      let (name, ts) ← expect last .functionName ts.tail
      let (_, ts) ← expect last .parenAfterFunctionName ts
      let (params, ts) ←
        if (peek last ts).kind = .rightParen then .ok ([], ts)
        else parameters last (ts.length + 1) ts
      let (_, ts) ← expect last .parenAfterParameters ts
      let (body, ts) ← block last fuel ts
      return (.function (.str name.text) params body, ts)
    | .ifWord => do
      let (_, ts) ← expect last .parenAfterIf ts.tail
      let (test, ts) ← expression last fuel ts
      let (_, ts) ← expect last .parenAfterIfCondition ts
      let (consequent, ts) ← block last fuel ts
      if (peek last ts).kind = .elseWord then
        let (alternate, ts) ← block last fuel ts.tail
        return (.branch test consequent (some alternate), ts)
      else return (.branch test consequent none, ts)
    | .whileWord => do
      let (_, ts) ← expect last .parenAfterWhile ts.tail
      let (test, ts) ← expression last fuel ts
      let (_, ts) ← expect last .parenAfterWhileCondition ts
      let (body, ts) ← block last fuel ts
      return (.loop test body, ts)
    | .returnWord => do
      if (peek last ts.tail).kind = .semicolon then return (.ret none, ts.tail.tail)
      else
        let (argument, ts) ← expression last fuel ts.tail
        let (_, ts) ← expect last .semicolonAfterReturn ts
        return (.ret (some argument), ts)
    | .importWord => do
      let (path, ts) ← expect last .importPath ts.tail
      let (_, ts) ← expect last .semicolonAfterImport ts
      return (.importFile path.text, ts)
    | .leftBrace => do
      let (body, ts) ← block last fuel ts
      return (.block body, ts)
    | _ => do
      let (value, ts) ← expression last fuel ts
      let (_, ts) ← expect last .semicolonAfterExpression ts
      return (.expression value, ts)

/-- The statements between two braces (`_parse_block`). -/
def block (last : Token) : Nat → List Token → Except ParseError (List Node × List Token)
  | 0, _ => .error .outOfFuel
  | fuel + 1, ts => do
    let (_, ts) ← expect last .braceBeforeBlock ts
    let (body, ts) ← statements last fuel ts
    let (_, ts) ← expect last .braceAfterBlock ts
    return (body, ts)

/-- Statements up to a closing brace or the end of the input. -/
def statements (last : Token) : Nat → List Token → Except ParseError (List Node × List Token)
  | 0, _ => .error .outOfFuel
  | fuel + 1, ts =>
    if ts.isEmpty || (peek last ts).kind = .rightBrace then .ok ([], ts)
    else do
      let (first, ts) ← statement last fuel ts
      let (more, ts) ← statements last fuel ts
      return (first :: more, ts)

/-- An expression (`_parse_assignment`): a chain of comparisons, or an assignment, which associates to
the right. -/
def expression (last : Token) : Nat → List Token → Except ParseError (Node × List Token)
  | 0, _ => .error .outOfFuel
  | fuel + 1, ts => do
    let (left, ts) ← infixLevel last fuel .comparison ts
    let next := peek last ts
    if next.kind = .equals then
      match left with
      | .identifier _ =>
        let (value, ts) ← expression last fuel ts.tail
        return (.binary left (.str "=") value, ts)
      | _ => .error (.badTarget left.kindName next)
    else return (left, ts)

/-- Operands of the next tighter level between operators of a level (`_parse_comparison`,
`_parse_additive`, `_parse_multiplicative`). -/
def infixLevel (last : Token) : Nat → Level → List Token → Except ParseError (Node × List Token)
  | 0, _, _ => .error .outOfFuel
  | fuel + 1, level, ts => do
    let (left, ts) ←
      match level.tighter? with
      | some tighter => infixLevel last fuel tighter ts
      | none => call last fuel ts
    infixRest last fuel level left ts

/-- More operators of a level and their right operands, after the expression `left`; they associate
to the left. -/
def infixRest (last : Token) :
    Nat → Level → Node → List Token → Except ParseError (Node × List Token)
  | 0, _, _, _ => .error .outOfFuel
  | fuel + 1, level, left, ts =>
    if level.admits (peek last ts) then do
      let operator := (peek last ts).text
      let (right, ts) ←
        match level.tighter? with
        | some tighter => infixLevel last fuel tighter ts.tail
        | none => call last fuel ts.tail
      infixRest last fuel level (.binary left (.str operator) right) ts
    else .ok (left, ts)

/-- A primary expression, or the call of a bare identifier (`_parse_call`). -/
def call (last : Token) : Nat → List Token → Except ParseError (Node × List Token)
  | 0, _ => .error .outOfFuel
  | fuel + 1, ts => do
    let start := peek last ts
    let (callee, ts) ← primary last fuel ts
    let paren := peek last ts
    if paren.kind = .leftParen then
      if start.kind = .identifier then
        let (args, ts) ←
          if (peek last ts.tail).kind = .rightParen then .ok ([], ts.tail)
          else arguments last fuel ts.tail
        let (_, ts) ← expect last .parenAfterArguments ts
        return (.call (.str start.text) args, ts)
      else .error (.notCallable start.kind paren)
    else return (callee, ts)

/-- The arguments of a call, from one of them on, up to the closing parenthesis. -/
def arguments (last : Token) : Nat → List Token → Except ParseError (List Node × List Token)
  | 0, _ => .error .outOfFuel
  | fuel + 1, ts => do
    let (first, ts) ← expression last fuel ts
    if (peek last ts).kind = .comma then
      let (more, ts) ← arguments last fuel ts.tail
      return (first :: more, ts)
    else return ([first], ts)

/-- A name, a literal or an expression in parentheses, which leave no trace (`_parse_primary`). -/
def primary (last : Token) : Nat → List Token → Except ParseError (Node × List Token)
  | 0, _ => .error .outOfFuel
  | fuel + 1, ts =>
    let t := peek last ts
    match t.kind with
    | .identifier => .ok (.identifier (.str t.text), ts.tail)
    | .number =>
      match Numeral.read? t.text with
      | some n => .ok (.literal .number n, ts.tail)
      | none => .error (.badNumber t.text)
    | .string => .ok (.literal .string (.str t.text), ts.tail)
    | .trueWord => .ok (.literal .boolean (.bool true), ts.tail)
    | .falseWord => .ok (.literal .boolean (.bool false), ts.tail)
    | .nullWord => .ok (.literal .null .null, ts.tail)
    | .leftParen => do
      let (value, ts) ← expression last fuel ts.tail
      let (_, ts) ← expect last .parenAfterExpression ts
      return (value, ts)
    | _ => .error (.noExpression t)

end

/-- Statements up to the end of the input. -/
def topLevel (last : Token) : Nat → List Token → Except ParseError (List Node)
  | 0, _ => .error .outOfFuel
  | fuel + 1, ts =>
    if ts.isEmpty then .ok []
    else do
      let (first, ts) ← statement last (fuel + 1) ts
      return first :: (← topLevel last fuel ts)

/-- More fuel than parsing that many tokens can use. -/
def fuelFor (tokens : Nat) : Nat := 12 * tokens + 12

end Grammar

/-- The program that a token stream is. -/
def Program.ofStream (s : TokenStream) : Except ParseError Program := do
  return ⟨← Grammar.topLevel s.last (Grammar.fuelFor s.tokens.length) s.tokens⟩

/-- The program that a list of tokens is (`Parser.parse`), up to the first end of the input in it. The
list must end with one. -/
def Program.ofTokens (tokens : List Token) : Except ParseError Program :=
  match TokenStream.ofTokens? tokens with
  | some s => ofStream s
  | none => .error .noEnd

end ScriptLang
