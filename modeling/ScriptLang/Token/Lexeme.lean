import ScriptLang.Number.IntText
import ScriptLang.Token

/-!
# Lexemes

The words that a source text is made of. `Lexeme.first` decides what starts at a character: a blank
or a comment to pass over, or the longest token. `Lexeme.scan` walks the text one character at a
time, so that line and column are counted in one way whatever the character belongs to.
-/
namespace ScriptLang

/-- Why a text cannot be scanned (`OBPILexError`), and where. -/
inductive LexError where
  | unexpected (c : Char) (position : Position)
  | unterminatedString (position : Position)
  deriving DecidableEq, Repr

def LexError.message (file : String) : LexError → String
  | .unexpected c p =>
    "Unexpected character '" ++ String.ofList [c] ++ "' at " ++ p.inFile file
  | .unterminatedString p => "Unterminated string literal at " ++ p.inFile file

/-- What starts at a character: something to pass over or a token. `extra` is the number of
characters that belong to it beyond the first. -/
inductive Lexeme where
  | layout (extra : Nat)
  | token (kind : TokenKind) (text : String) (extra : Nat)
  | unexpected
  | unterminatedString
  deriving DecidableEq, Repr

namespace Lexeme

/-! ## Character classes -/

def isBlank (c : Char) : Bool := c == ' ' || c == '\t' || c == '\r' || c == '\n'

def isNameStart (c : Char) : Bool :=
  c == '_' || ('a' ≤ c && c ≤ 'z') || ('A' ≤ c && c ≤ 'Z')

def isNamePart (c : Char) : Bool := isNameStart c || IntText.isDigit c

/-- The words that are no identifiers. -/
def keywords : List (String × TokenKind) :=
  [("let", .letWord), ("func", .funcWord), ("if", .ifWord), ("else", .elseWord),
    ("while", .whileWord), ("return", .returnWord), ("import", .importWord),
    ("true", .trueWord), ("false", .falseWord), ("null", .nullWord)]

def wordKind (word : String) : TokenKind := (keywords.lookup word).getD .identifier

def punctuation? : Char → Option TokenKind
  | '(' => some .leftParen
  | ')' => some .rightParen
  | '\x7b' => some .leftBrace
  | '\x7d' => some .rightBrace
  | ';' => some .semicolon
  | ',' => some .comma
  | _ => none

/-! ## What starts at a character -/

/-- The operator that starts with one of `=`, `<`, `>` and `!`, with the text after it
(`_consume_operator`). -/
def operator (c : Char) (rest : List Char) : Lexeme :=
  if rest.head? = some '=' then .token .comparison (String.ofList [c, '=']) 1
  else if c = '=' then .token .equals "=" 0
  else if c = '!' then .unexpected
  else .token .comparison (String.ofList [c]) 0

/-- The string that starts before the text `rest` (`_consume_string`): all up to the next quote. -/
def string (rest : List Char) : Lexeme :=
  let body := rest.takeWhile (· != '"')
  if body.length = rest.length then .unterminatedString
  else .token .string (String.ofList body) (body.length + 1)

/-- The number that starts with the digit `c` (`_consume_number`). A point belongs to it only if a
digit follows. -/
def number (c : Char) (rest : List Char) : Lexeme :=
  let whole := rest.takeWhile IntText.isDigit
  let fraction :=
    match rest.drop whole.length with
    | '.' :: after =>
      let digits := after.takeWhile IntText.isDigit
      if digits.isEmpty then [] else '.' :: digits
    | _ => []
  .token .number (String.ofList (c :: whole ++ fraction)) (whole ++ fraction).length

def word (c : Char) (rest : List Char) : Lexeme :=
  let letters := rest.takeWhile isNamePart
  let word := String.ofList (c :: letters)
  .token (wordKind word) word letters.length

/-- The lexeme that starts at the character `c` before the text `rest`. -/
def first (c : Char) (rest : List Char) : Lexeme :=
  if isBlank c then .layout 0
  else
    match punctuation? c with
    | some kind => .token kind (String.ofList [c]) 0
    | none =>
      if c == '/' && rest.head? == some '/' then
        .layout (rest.takeWhile (· != '\n')).length
      else if c == '+' || c == '-' || c == '*' || c == '/' then
        .token .binaryOperator (String.ofList [c]) 0
      else if c == '=' || c == '<' || c == '>' || c == '!' then operator c rest
      else if c == '"' then string rest
      else if IntText.isDigit c then number c rest
      else if isNameStart c then word c rest
      else .unexpected

/-! ## Walking the text -/

/-- The tokens of a text that starts at a place, and the place of its end, when the first `skip`
characters belong to a lexeme that is done. -/
def scan : Nat → Position → List Char → Except LexError (List Token × Position)
  | _, p, [] => .ok ([], p)
  | skip + 1, p, c :: rest => scan skip (p.advance c) rest
  | 0, p, c :: rest =>
    match first c rest with
    | .layout extra => scan extra (p.advance c) rest
    | .token kind text extra =>
      match scan extra (p.advance c) rest with
      | .ok (tokens, final) => .ok (⟨kind, text, p⟩ :: tokens, final)
      | .error e => .error e
    | .unexpected => .error (.unexpected c p)
    | .unterminatedString => .error (.unterminatedString p)

end Lexeme

/-- The tokens of a source text (`Lexer.tokenize`). -/
def TokenStream.ofSource (source : String) : Except LexError TokenStream :=
  match Lexeme.scan 0 .start source.toList with
  | .ok (tokens, final) => .ok ⟨tokens, ⟨.endOfInput, "EOF", final⟩⟩
  | .error e => .error e

end ScriptLang
