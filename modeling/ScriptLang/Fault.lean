import ScriptLang.Json.Display

/-!
# Faults of a run

What can go wrong while a program runs. Most faults are mistakes of the program; a breakdown is a
failure of the machinery below it (a number that does not fit, a name that cannot be looked up, a
sink that takes no more output), and a run reports it as an internal fault.
-/
namespace ScriptLang

inductive Breakdown where
  /-- The text of an integer has too many digits. -/
  | digitLimit
  /-- An integer is beyond the finite floats. -/
  | floatOverflow
  /-- The quotient of two integers is beyond the finite floats. -/
  | quotientOverflow
  /-- A list or an object was used as a name. -/
  | badName (kind : String)
  /-- A function with a parameter that is no string was to be shown. -/
  | badParameter (index : Nat) (kind : String)
  /-- The output takes no more lines. -/
  | sinkClosed
  deriving DecidableEq, Repr

/-- What a breakdown says. -/
def Breakdown.message : Breakdown → String
  | .digitLimit =>
    "Exceeds the limit (4300 digits) for integer string conversion; "
      ++ "use sys.set_int_max_str_digits() to increase the limit"
  | .floatOverflow => "int too large to convert to float"
  | .quotientOverflow => "integer division result too large for a float"
  | .badName kind => "unhashable type: '" ++ kind ++ "'"
  | .badParameter index kind =>
    "sequence item " ++ toString index ++ ": expected str instance, " ++ kind ++ " found"
  | .sinkClosed => "sink closed"

inductive Fault where
  | duplicate (name : Json)
  | unassignable (name : Json)
  | undeclared (name : Json)
  | mainMissing
  | unlinkedImport (path : String)
  | unhandledNode (kind : String)
  | badTarget
  /-- The texts of the operands and the operator between them. -/
  | notNumbers (left operator right : String)
  | divisionByZero
  | notComparable (left operator right : String)
  | unhandledOperator (operator : Json)
  | notAFunction (name : Json)
  | internal (breakdown : Breakdown)
  deriving DecidableEq

namespace Fault

def className : Fault → String
  | .duplicate _ => "DuplicateDeclarationError"
  | .unassignable _ | .undeclared _ => "UndeclaredVariableError"
  | _ => "OBPIRuntimeError"

def message : Fault → String
  | .duplicate name =>
    "Variable \"" ++ name.inMessage ++ "\" has already been declared in this scope."
  | .unassignable name => "Cannot assign to undeclared variable \"" ++ name.inMessage ++ "\"."
  | .undeclared name => "Cannot access undeclared variable \"" ++ name.inMessage ++ "\"."
  | .mainMissing => "main function not found or is not a function"
  | .unlinkedImport path =>
    "Unlinked import of \"" ++ path ++ "\"; link the program with the compiler first"
  | .unhandledNode kind => "Unhandled AST node type: " ++ kind
  | .badTarget => "Invalid assignment target"
  | .notNumbers left operator right =>
    "Operands must be numbers for arithmetic operations (got " ++ left ++ " " ++ operator ++ " "
      ++ right ++ ")"
  | .divisionByZero => "Division by zero"
  | .notComparable left operator right =>
    "Cannot compare " ++ left ++ " " ++ operator ++ " " ++ right
  | .unhandledOperator operator => "Unhandled binary operator: " ++ operator.inMessage
  | .notAFunction name => "\"" ++ name.inMessage ++ "\" is not a function."
  | .internal breakdown => "Internal interpreter error: " ++ breakdown.message

/-- The rule of the language that was broken, null if none is named. An operator of a stored program
may be any document. -/
def rule : Fault → Json
  | .duplicate _ => .str "DECLARE"
  | .unassignable _ | .badTarget => .str "ASSIGN"
  | .undeclared _ => .str "IDENT"
  | .mainMissing => .str "MAIN"
  | .unlinkedImport _ => .str "IMPORT"
  | .unhandledNode _ => .null
  | .notNumbers _ operator _ | .notComparable _ operator _ => .str operator
  | .divisionByZero => .str "/"
  | .unhandledOperator operator => operator
  | .notAFunction _ => .str "CALL"
  | .internal _ => .str "internal"

end Fault

end ScriptLang
