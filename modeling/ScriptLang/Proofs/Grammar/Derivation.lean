import ScriptLang.Grammar
import ScriptLang.Token.Lexeme

/-!
# Derivations

The grammar as rules, apart from any way of parsing: which phrases a list of tokens stands for.
Nothing here looks ahead. The operators of a level associate to the left because the rule for them
has the level itself on the left and the next tighter one on the right, and an assignment to the
right because its value is an expression again. Only a name has a rule for calls, so no
parenthesised name and no call can be called.
-/
namespace ScriptLang.Grammar

/-- What some tokens can stand for. -/
inductive Phrase where
  | statements (nodes : List Node)
  | statement (node : Node)
  | block (body : List Node)
  | parameterList (names : List Json)
  | parameters (names : List Json)
  | expression (value : Node)
  /-- The left side of an assignment: a name, in any number of parentheses. -/
  | target (name : String)
  | level (level : Level) (value : Node)
  /-- A call or a primary expression. -/
  | operand (value : Node)
  | argumentList (values : List Node)
  | arguments (values : List Node)
  | primary (value : Node)

/-- The operands of a level: phrases of the next tighter level. -/
def Level.inner : Level → Node → Phrase
  | .comparison => .level .additive
  | .additive => .level .multiplicative
  | .multiplicative => .operand

def Level.Has : Level → Token → Prop
  | .comparison, t => t.kind = .comparison
  | .additive, t => t.kind = .binaryOperator ∧ (t.text = "+" ∨ t.text = "-")
  | .multiplicative, t => t.kind = .binaryOperator ∧ (t.text = "*" ∨ t.text = "/")

def Digits (ds : List Char) : Prop := ds ≠ [] ∧ ∀ d ∈ ds, IntText.isDigit d = true

/-- The value of a number: an integer, but a float with a point or with too many digits. -/
inductive NumberValue : String → Json → Prop
  | integer {ds : List Char} : Digits ds → ds.length ≤ IntText.maxDigits →
      NumberValue (String.ofList ds) (.int (IntText.ofDigits ds))
  | long {ds : List Char} : Digits ds → IntText.maxDigits < ds.length →
      NumberValue (String.ofList ds) (.float (Binary64.ofDecimal false (IntText.ofDigits ds) 0))
  | decimal {whole fraction : List Char} : Digits whole → Digits fraction →
      NumberValue (String.ofList (whole ++ '.' :: fraction))
        (.float (Binary64.ofDecimal false (IntText.ofDigits (whole ++ fraction))
          (-(fraction.length : Int))))

/-- The rules of the grammar. -/
inductive Derives : Phrase → List Token → Prop
  | noStatements : Derives (.statements []) []
  | moreStatements {node : Node} {nodes : List Node} {ts us : List Token} :
      Derives (.statement node) ts → Derives (.statements nodes) us →
      Derives (.statements (node :: nodes)) (ts ++ us)
  | evaluate {value : Node} {ts : List Token} {stop : Token} :
      Derives (.expression value) ts → stop.kind = .semicolon →
      Derives (.statement (.expression value)) (ts ++ [stop])
  | declare {value : Node} {ts : List Token} {word x eq stop : Token} :
      word.kind = .letWord → x.kind = .identifier → eq.kind = .equals →
      Derives (.expression value) ts → stop.kind = .semicolon →
      Derives (.statement (.declare (.str x.text) value)) (word :: x :: eq :: (ts ++ [stop]))
  | function {params : List Json} {body : List Node} {ts us : List Token}
      {word x start stop : Token} :
      word.kind = .funcWord → x.kind = .identifier → start.kind = .leftParen →
      Derives (.parameterList params) ts → stop.kind = .rightParen → Derives (.block body) us →
      Derives (.statement (.function (.str x.text) params body))
        (word :: x :: start :: (ts ++ stop :: us))
  | branch {test : Node} {consequent : List Node} {ts us : List Token} {word start stop : Token} :
      word.kind = .ifWord → start.kind = .leftParen → Derives (.expression test) ts →
      stop.kind = .rightParen → Derives (.block consequent) us →
      Derives (.statement (.branch test consequent none)) (word :: start :: (ts ++ stop :: us))
  | branchElse {test : Node} {consequent alternate : List Node} {ts us vs : List Token}
      {word start stop other : Token} :
      word.kind = .ifWord → start.kind = .leftParen → Derives (.expression test) ts →
      stop.kind = .rightParen → Derives (.block consequent) us → other.kind = .elseWord →
      Derives (.block alternate) vs →
      Derives (.statement (.branch test consequent (some alternate)))
        (word :: start :: (ts ++ stop :: (us ++ other :: vs)))
  | loop {test : Node} {body : List Node} {ts us : List Token} {word start stop : Token} :
      word.kind = .whileWord → start.kind = .leftParen → Derives (.expression test) ts →
      stop.kind = .rightParen → Derives (.block body) us →
      Derives (.statement (.loop test body)) (word :: start :: (ts ++ stop :: us))
  | ret {word stop : Token} : word.kind = .returnWord → stop.kind = .semicolon →
      Derives (.statement (.ret none)) [word, stop]
  | retValue {value : Node} {ts : List Token} {word stop : Token} :
      word.kind = .returnWord → Derives (.expression value) ts → stop.kind = .semicolon →
      Derives (.statement (.ret (some value))) (word :: (ts ++ [stop]))
  | importFile {word x stop : Token} :
      word.kind = .importWord → x.kind = .string → stop.kind = .semicolon →
      Derives (.statement (.importFile x.text)) [word, x, stop]
  | nested {body : List Node} {ts : List Token} :
      Derives (.block body) ts → Derives (.statement (.block body)) ts
  | block {body : List Node} {ts : List Token} {start stop : Token} :
      start.kind = .leftBrace → Derives (.statements body) ts → stop.kind = .rightBrace →
      Derives (.block body) (start :: (ts ++ [stop]))
  | noParameters : Derives (.parameterList []) []
  | someParameters {names : List Json} {ts : List Token} :
      Derives (.parameters names) ts → Derives (.parameterList names) ts
  | parameter {x : Token} : x.kind = .identifier → Derives (.parameters [.str x.text]) [x]
  | moreParameters {names : List Json} {ts : List Token} {x comma : Token} :
      x.kind = .identifier → comma.kind = .comma → Derives (.parameters names) ts →
      Derives (.parameters (.str x.text :: names)) (x :: comma :: ts)
  | assign {name : String} {value : Node} {ts us : List Token} {eq : Token} :
      Derives (.target name) ts → eq.kind = .equals → Derives (.expression value) us →
      Derives (.expression (.binary (.identifier (.str name)) (.str "=") value)) (ts ++ eq :: us)
  | chain {value : Node} {ts : List Token} :
      Derives (.level .comparison value) ts → Derives (.expression value) ts
  | targetName {x : Token} : x.kind = .identifier → Derives (.target x.text) [x]
  | targetGroup {name : String} {ts : List Token} {start stop : Token} :
      start.kind = .leftParen → Derives (.target name) ts → stop.kind = .rightParen →
      Derives (.target name) (start :: (ts ++ [stop]))
  | single {level : Level} {value : Node} {ts : List Token} :
      Derives (level.inner value) ts → Derives (.level level value) ts
  | binary {level : Level} {left right : Node} {ts us : List Token} {op : Token} :
      Derives (.level level left) ts → level.Has op → Derives (level.inner right) us →
      Derives (.level level (.binary left (.str op.text) right)) (ts ++ op :: us)
  | call {args : List Node} {ts : List Token} {x start stop : Token} :
      x.kind = .identifier → start.kind = .leftParen → Derives (.argumentList args) ts →
      stop.kind = .rightParen →
      Derives (.operand (.call (.str x.text) args)) (x :: start :: (ts ++ [stop]))
  | simple {value : Node} {ts : List Token} :
      Derives (.primary value) ts → Derives (.operand value) ts
  | noArguments : Derives (.argumentList []) []
  | someArguments {values : List Node} {ts : List Token} :
      Derives (.arguments values) ts → Derives (.argumentList values) ts
  | argument {value : Node} {ts : List Token} :
      Derives (.expression value) ts → Derives (.arguments [value]) ts
  | moreArguments {value : Node} {values : List Node} {ts us : List Token} {comma : Token} :
      Derives (.expression value) ts → comma.kind = .comma → Derives (.arguments values) us →
      Derives (.arguments (value :: values)) (ts ++ comma :: us)
  | name {x : Token} : x.kind = .identifier → Derives (.primary (.identifier (.str x.text))) [x]
  | number {n : Json} {t : Token} : t.kind = .number → NumberValue t.text n →
      Derives (.primary (.literal .number n)) [t]
  | string {t : Token} : t.kind = .string →
      Derives (.primary (.literal .string (.str t.text))) [t]
  | true {t : Token} : t.kind = .trueWord → Derives (.primary (.literal .boolean (.bool true))) [t]
  | false {t : Token} : t.kind = .falseWord →
      Derives (.primary (.literal .boolean (.bool false))) [t]
  | null {t : Token} : t.kind = .nullWord → Derives (.primary (.literal .null .null)) [t]
  | group {value : Node} {ts : List Token} {start stop : Token} :
      start.kind = .leftParen → Derives (.expression value) ts → stop.kind = .rightParen →
      Derives (.primary value) (start :: (ts ++ [stop]))

/-- The token is one that the scanner makes, at whatever place. -/
def Lexed (t : Token) : Prop :=
  ∃ c rest extra, Lexeme.first c rest = .token t.kind t.text extra

end ScriptLang.Grammar
