import ScriptLang.Value

/-!
# Binary operators

What each operator does to two values. Arithmetic is on numbers: integers stay exact but for
division, and an integer that meets a float is first rounded to one. A sum with an operand that is
no number joins the texts. Comparison is by exact value for numbers and by characters for strings.
-/
namespace ScriptLang

inductive Arithmetic where
  | add
  | subtract
  | multiply
  | divide
  deriving DecidableEq, Repr

inductive Order where
  | less
  | greater
  | lessEqual
  | greaterEqual
  deriving DecidableEq, Repr

inductive Operator where
  | assign
  | arithmetic (op : Arithmetic)
  | equal
  | notEqual
  | order (op : Order)
  | other (j : Json)
  deriving DecidableEq

namespace Arithmetic

def symbol : Arithmetic → String
  | .add => "+"
  | .subtract => "-"
  | .multiply => "*"
  | .divide => "/"

/-- The operation on integers; a quotient is a float. -/
def onInts (op : Arithmetic) (a b : Int) : Except Fault Value :=
  match op with
  | .add => .ok (.data (.int (a + b)))
  | .subtract => .ok (.data (.int (a - b)))
  | .multiply => .ok (.data (.int (a * b)))
  | .divide =>
    match Binary64.ofRatio? a b with
    | some x => .ok (.data (.float x))
    | none => .error (.internal .quotientOverflow)

def onFloats (op : Arithmetic) (a b : Float) : Float :=
  match op with
  | .add => a + b
  | .subtract => a - b
  | .multiply => a * b
  | .divide => a / b

/-- The operation on numbers. Nothing can be divided by a zero of either kind. -/
def onNumbers (op : Arithmetic) (a b : Value.Number) : Except Fault Value :=
  if op = .divide ∧ b.exact = .finite 0 then .error .divisionByZero
  else
    match a, b with
    | .int a, .int b => op.onInts a b
    | a, b =>
      match a.toFloat, b.toFloat with
      | .ok a, .ok b => .ok (.data (.float (op.onFloats a b)))
      | .error e, _ => .error (.internal e)
      | _, .error e => .error (.internal e)

end Arithmetic

namespace Order

def symbol : Order → String
  | .less => "<"
  | .greater => ">"
  | .lessEqual => "<="
  | .greaterEqual => ">="

/-- The comparison of two numbers by value; nothing holds of NaN. -/
def onNumbers (op : Order) (a b : Binary64.Exact) : Bool :=
  match op with
  | .less => a.less b
  | .greater => b.less a
  | .lessEqual => a.less b || a.equal b
  | .greaterEqual => b.less a || a.equal b

def onStrings (op : Order) (a b : String) : Bool :=
  match op with
  | .less => decide (a < b)
  | .greater => decide (b < a)
  | .lessEqual => !decide (b < a)
  | .greaterEqual => !decide (a < b)

end Order

namespace Value

def sameFunction : Value → Value → Bool
  | .closure a, .closure b => decide (a.scope = b.scope) && a.name.key? == b.name.key?
  | .builtin a h, .builtin b i => a == b && h == i
  | _, _ => false

mutual

/-- Equality of the members of collections: that of documents, but NaN differs from every member,
and functions are equal iff they are the same. -/
def equalMember : Value → Value → Bool
  | .data a, .data b => a.equal b && a.key? != some (.number .nan)
  | .list as, .list bs => equalMembers as bs
  | .record as, .record bs => as.length == bs.length && equalFields as bs
  | a, b => sameFunction a b

def equalMembers : List Value → List Value → Bool
  | [], [] => true
  | a :: as, b :: bs => a.equalMember b && equalMembers as bs
  | _, _ => false

/-- Every field of the first collection is in the second, with an equal value. -/
def equalFields : List (String × Value) → List (String × Value) → Bool
  | [], _ => true
  | (k, a) :: as, bs => (Entries.get? bs k).any a.equalMember && equalFields as bs

end

/-- Equality of values (`_strict_equals`). Numbers are equal by value and equal to nothing else. -/
def equal (a b : Value) : Bool :=
  match a.number?, b.number? with
  | some m, some n => m.exact.equal n.exact
  | some _, none => false
  | none, some _ => false
  | none, none =>
    match a, b with
    | .data (.bool a), .data (.bool b) => a == b
    | .data (.bool _), .data _ => false
    | .data _, .data (.bool _) => false
    | .data a, .data b => a.equal b
    | a, b => a.equalMember b

end Value

namespace Operator

/-- The operator that a stored program names. -/
def ofDocument : Json → Operator
  | .str "=" => .assign
  | .str "+" => .arithmetic .add
  | .str "-" => .arithmetic .subtract
  | .str "*" => .arithmetic .multiply
  | .str "/" => .arithmetic .divide
  | .str "==" => .equal
  | .str "!=" => .notEqual
  | .str "<" => .order .less
  | .str ">" => .order .greater
  | .str "<=" => .order .lessEqual
  | .str ">=" => .order .greaterEqual
  | j => .other j

/-- The texts of both operands of a fault. -/
def texts (left right : Value) : Except Fault (String × String) :=
  match left.text, right.text with
  | .ok l, .ok r => .ok (l, r)
  | .error e, _ => .error (.internal e)
  | _, .error e => .error (.internal e)

def applyArithmetic (op : Arithmetic) (left right : Value) : Except Fault Value :=
  match left.number?, right.number? with
  | some a, some b => op.onNumbers a b
  | _, _ => do
    let (l, r) ← texts left right
    if op = .add then return .data (.str (l ++ r)) else throw (.notNumbers l op.symbol r)

/-- An ordering of two values, which must be two numbers or two strings. -/
def applyOrder (op : Order) (left right : Value) : Except Fault Value :=
  match left.number?, right.number? with
  | some a, some b => .ok (.data (.bool (op.onNumbers a.exact b.exact)))
  | _, _ =>
    match left, right with
    | .data (.str a), .data (.str b) => .ok (.data (.bool (op.onStrings a b)))
    | _, _ => do
      let (l, r) ← texts left right
      throw (.notComparable l op.symbol r)

/-- The result of an operator (`_evaluate_binary`). An assignment needs a name on its left and is no
operation on values. -/
def apply (op : Operator) (left right : Value) : Except Fault Value :=
  match op with
  | .assign => .error .badTarget
  | .arithmetic op => applyArithmetic op left right
  | .equal => .ok (.data (.bool (left.equal right)))
  | .notEqual => .ok (.data (.bool (!left.equal right)))
  | .order op => applyOrder op left right
  | .other j => .error (.unhandledOperator j)

end Operator

end ScriptLang
