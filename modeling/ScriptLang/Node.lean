import ScriptLang.Json

/-!
# Syntax trees

Programs as trees. A stored program may have any kind of node in any place and any document as a
name, an operator or the value of a literal, so there is one type of nodes for the subclasses of
`Node`, and what is a statement or an expression is decided where a node is used. Where only one
kind can stand, the type says so: a callee is a name, and the bodies of branches, loops and
functions are lists of statements.
-/
namespace ScriptLang

inductive LiteralKind where
  | string
  | number
  | boolean
  | null
  deriving DecidableEq, Repr

inductive Node where
  | program (body : List Node)
  | identifier (name : Json)
  | literal (kind : LiteralKind) (value : Json)
  | binary (left : Node) (operator : Json) (right : Node)
  | call (callee : Json) (args : List Node)
  | expression (value : Node)
  | declare (name : Json) (value : Node)
  | block (body : List Node)
  | branch (test : Node) (consequent : List Node) (alternate : Option (List Node))
  | loop (test : Node) (body : List Node)
  | function (name : Json) (params : List Json) (body : List Node)
  | ret (argument : Option Node)
  | importFile (path : String)
  deriving Inhabited

/-- A whole program: its top-level statements. -/
structure Program where
  statements : List Node

namespace Node

/-- The name of a kind of nodes in error messages and in the step log. -/
def kindName : Node → String
  | .program .. => "Program"
  | .identifier .. => "Identifier"
  | .literal .. => "Literal"
  | .binary .. => "BinaryExpression"
  | .call .. => "CallExpression"
  | .expression .. => "ExpressionStatement"
  | .declare .. => "VariableDeclaration"
  | .block .. => "BlockStatement"
  | .branch .. => "IfStatement"
  | .loop .. => "WhileStatement"
  | .function .. => "FunctionDeclaration"
  | .ret .. => "ReturnStatement"
  | .importFile .. => "ImportStatement"

def isImport : Node → Bool
  | .importFile _ => true
  | _ => false

/-! ## Identity -/

mutual

def same : Node → Node → Bool
  | .program a, .program b => sameAll a b
  | .identifier a, .identifier b => decide (a = b)
  | .literal k v, .literal l w => decide (k = l) && decide (v = w)
  | .binary a o b, .binary c p d => a.same c && decide (o = p) && b.same d
  | .call f as, .call g bs => decide (f = g) && sameAll as bs
  | .expression a, .expression b => a.same b
  | .declare x a, .declare y b => decide (x = y) && a.same b
  | .block a, .block b => sameAll a b
  | .branch t c a, .branch u d b => t.same u && sameAll c d && sameOptional a b
  | .loop t a, .loop u b => t.same u && sameAll a b
  | .function f ps a, .function g qs b => decide (f = g) && decide (ps = qs) && sameAll a b
  | .ret none, .ret none => true
  | .ret (some a), .ret (some b) => a.same b
  | .importFile p, .importFile q => p == q
  | _, _ => false

def sameAll : List Node → List Node → Bool
  | [], [] => true
  | a :: as, b :: bs => a.same b && sameAll as bs
  | _, _ => false

def sameOptional : Option (List Node) → Option (List Node) → Bool
  | none, none => true
  | some a, some b => sameAll a b
  | _, _ => false

end

mutual

theorem same_iff (a b : Node) : a.same b = true ↔ a = b := by
  match a, b with
  | .ret none, b => cases b <;> simp [same]; rename_i y; cases y <;> simp [same]
  | .ret (some x), b =>
    cases b <;> simp [same]; rename_i y; cases y <;> simp [same, same_iff]
  | .program _, b => cases b <;> simp [same, sameAll_iff]
  | .identifier _, b => cases b <;> simp [same]
  | .literal _ _, b => cases b <;> simp [same]
  | .binary _ _ _, b => cases b <;> simp [same, same_iff, and_assoc]
  | .call _ _, b => cases b <;> simp [same, sameAll_iff]
  | .expression _, b => cases b <;> simp [same, same_iff]
  | .declare _ _, b => cases b <;> simp [same, same_iff]
  | .block _, b => cases b <;> simp [same, sameAll_iff]
  | .branch _ _ _, b => cases b <;> simp [same, same_iff, sameAll_iff, sameOptional_iff, and_assoc]
  | .loop _ _, b => cases b <;> simp [same, same_iff, sameAll_iff]
  | .function _ _ _, b => cases b <;> simp [same, sameAll_iff, and_assoc]
  | .importFile _, b => cases b <;> simp [same]

theorem sameAll_iff (a b : List Node) : sameAll a b = true ↔ a = b := by
  cases a <;> cases b <;> simp [sameAll, same_iff, sameAll_iff]

theorem sameOptional_iff (a b : Option (List Node)) : sameOptional a b = true ↔ a = b := by
  cases a <;> cases b <;> simp [sameOptional, sameAll_iff]

end

instance : DecidableEq Node := fun a b => decidable_of_iff _ (same_iff a b)

end Node

instance : DecidableEq Program := fun a b =>
  decidable_of_iff (a.statements = b.statements) (by cases a; cases b; simp)

end ScriptLang
