/-!
# Tokens

The words of the language, each with the place where it starts. A token stream is what stands
before the end of the input, and the token that marks the end.
-/
namespace ScriptLang

/-- A line and a column, both counted from one in a source text; columns count characters. -/
structure Position where
  line : Int
  column : Int
  deriving DecidableEq, Repr

namespace Position

def start : Position := ⟨1, 1⟩

/-- The place after the character `c`. -/
def advance (p : Position) (c : Char) : Position :=
  if c = '\n' then ⟨p.line + 1, 1⟩ else ⟨p.line, p.column + 1⟩

/-- A place in a named text, as error messages write it. -/
def inFile (p : Position) (file : String) : String :=
  file ++ ":" ++ toString p.line ++ ":" ++ toString p.column

end Position

/-- The classes of tokens; a stream that was not scanned may hold others, known by their labels. -/
inductive TokenKind where
  | letWord
  | funcWord
  | ifWord
  | elseWord
  | whileWord
  | returnWord
  | importWord
  | trueWord
  | falseWord
  | nullWord
  | identifier
  | number
  | string
  | leftParen
  | rightParen
  | leftBrace
  | rightBrace
  | semicolon
  | comma
  | equals
  | binaryOperator
  | comparison
  | endOfInput
  | other (label : String)
  deriving DecidableEq, Repr

namespace TokenKind

def label : TokenKind → String
  | .letWord => "LET"
  | .funcWord => "FUNC"
  | .ifWord => "IF"
  | .elseWord => "ELSE"
  | .whileWord => "WHILE"
  | .returnWord => "RETURN"
  | .importWord => "IMPORT"
  | .trueWord => "TRUE"
  | .falseWord => "FALSE"
  | .nullWord => "NULL"
  | .identifier => "IDENT"
  | .number => "NUMBER"
  | .string => "STRING"
  | .leftParen => "LPAREN"
  | .rightParen => "RPAREN"
  | .leftBrace => "LBRACE"
  | .rightBrace => "RBRACE"
  | .semicolon => "SEMICOLON"
  | .comma => "COMMA"
  | .equals => "EQUALS"
  | .binaryOperator => "BINARY_OP"
  | .comparison => "COMPARISON"
  | .endOfInput => "EOF"
  | .other label => label

def named : List TokenKind :=
  [.letWord, .funcWord, .ifWord, .elseWord, .whileWord, .returnWord, .importWord, .trueWord,
    .falseWord, .nullWord, .identifier, .number, .string, .leftParen, .rightParen, .leftBrace,
    .rightBrace, .semicolon, .comma, .equals, .binaryOperator, .comparison, .endOfInput]

def ofLabel (label : String) : TokenKind :=
  (named.find? (·.label == label)).getD (.other label)

end TokenKind

structure Token where
  kind : TokenKind
  text : String
  position : Position
  deriving DecidableEq, Repr

/-- The tokens before the end of the input, none of which is of the class `endOfInput`, and the
token at the end. -/
structure TokenStream where
  tokens : List Token
  last : Token
  deriving DecidableEq, Repr

namespace TokenStream

/-- The stream up to the first end of input, if the last of the tokens is one. -/
def ofTokens? (tokens : List Token) : Option TokenStream :=
  match tokens.getLast? with
  | some final =>
    if final.kind = .endOfInput then
      let before := tokens.takeWhile fun t => decide (t.kind ≠ .endOfInput)
      some ⟨before, (tokens.drop before.length).headD final⟩
    else none
  | none => none

def toList (s : TokenStream) : List Token := s.tokens ++ [s.last]

end TokenStream

end ScriptLang
