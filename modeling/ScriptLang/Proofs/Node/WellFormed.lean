import ScriptLang.Node
import ScriptLang.Token.Lexeme

/-!
# Well-formed programs

The trees that source texts stand for. A stored program may have any document as a name or an
operator and any node in any place; in a well-formed one names are identifiers, operators those of the
language, and every node stands where its class can stand. A string or a path holds no quote, because
nothing in a source text can write one.

Which numbers there are is a parameter: `IsNonNegative` has those that parsing gives.
-/
namespace ScriptLang

/-! ## Names and literals -/

/-- A word that can be a name: letters, digits and underscores, no digit at the front, no keyword. -/
structure IsName (s : String) : Prop where
  spelling : ∃ c cs, s = String.ofList (c :: cs) ∧ Lexeme.isNameStart c = true ∧
    ∀ d ∈ cs, Lexeme.isNamePart d = true
  noKeyword : s ∉ Lexeme.keywords.map (·.1)

theorem isName_iff (s : String) :
    IsName s ↔ (s.toList.head?.any Lexeme.isNameStart = true ∧
      s.toList.tail.all Lexeme.isNamePart = true) ∧ s ∉ Lexeme.keywords.map (·.1) := by
  constructor
  · rintro ⟨⟨c, cs, rfl, hc, hcs⟩, hno⟩
    exact ⟨⟨by simpa using hc, by simpa using hcs⟩, hno⟩
  · rintro ⟨⟨hhead, htail⟩, hno⟩
    cases hs : s.toList with
    | nil => simp [hs] at hhead
    | cons c cs =>
      rw [hs] at hhead htail
      refine ⟨⟨c, cs, ?_, by simpa using hhead, by simpa using htail⟩, hno⟩
      rw [← hs, String.ofList_toList]

instance : DecidablePred IsName := fun s => decidable_of_iff' _ (isName_iff s)

/-- A text that can be written between quotes. -/
def IsQuotable (s : String) : Prop := '"' ∉ s.toList

instance : DecidablePred IsQuotable := fun s => inferInstanceAs (Decidable ('"' ∉ s.toList))

/-- A number from zero on, infinity included. -/
def IsNonNegative : Json → Prop
  | .int n => 0 ≤ n
  | .float x => Binary64.exact x ≠ .nan ∧ (Binary64.exact x).less (.finite 0) = false
  | _ => False

/-- The operators of the language but for the assignment. -/
def operatorSymbols : List String := ["+", "-", "*", "/", "==", "!=", "<", ">", "<=", ">="]

/-- The values of literals of each kind, when `numbers` has those of numbers. -/
inductive LiteralValue (numbers : Json → Prop) : LiteralKind → Json → Prop
  | string {s : String} : IsQuotable s → LiteralValue numbers .string (.str s)
  | number {j : Json} : numbers j → LiteralValue numbers .number j
  | boolean (b : Bool) : LiteralValue numbers .boolean (.bool b)
  | null : LiteralValue numbers .null .null

/-! ## Trees -/

/-- A well-formed expression. Only a name can be assigned to. -/
inductive WellFormedExpression (numbers : Json → Prop) : Node → Prop
  | identifier {x : String} : IsName x → WellFormedExpression numbers (.identifier (.str x))
  | literal {kind : LiteralKind} {j : Json} : LiteralValue numbers kind j →
      WellFormedExpression numbers (.literal kind j)
  | assignment {x : String} {value : Node} : IsName x → WellFormedExpression numbers value →
      WellFormedExpression numbers (.binary (.identifier (.str x)) (.str "=") value)
  | operation {left right : Node} {symbol : String} : symbol ∈ operatorSymbols →
      WellFormedExpression numbers left → WellFormedExpression numbers right →
      WellFormedExpression numbers (.binary left (.str symbol) right)
  | call {x : String} {args : List Node} : IsName x →
      (∀ arg ∈ args, WellFormedExpression numbers arg) →
      WellFormedExpression numbers (.call (.str x) args)

/-- A well-formed statement. -/
inductive WellFormedStatement (numbers : Json → Prop) : Node → Prop
  | expression {value : Node} : WellFormedExpression numbers value →
      WellFormedStatement numbers (.expression value)
  | declare {x : String} {value : Node} : IsName x → WellFormedExpression numbers value →
      WellFormedStatement numbers (.declare (.str x) value)
  | block {body : List Node} : (∀ node ∈ body, WellFormedStatement numbers node) →
      WellFormedStatement numbers (.block body)
  | branch {test : Node} {consequent : List Node} : WellFormedExpression numbers test →
      (∀ node ∈ consequent, WellFormedStatement numbers node) →
      WellFormedStatement numbers (.branch test consequent none)
  | branchElse {test : Node} {consequent alternate : List Node} :
      WellFormedExpression numbers test →
      (∀ node ∈ consequent, WellFormedStatement numbers node) →
      (∀ node ∈ alternate, WellFormedStatement numbers node) →
      WellFormedStatement numbers (.branch test consequent (some alternate))
  | loop {test : Node} {body : List Node} : WellFormedExpression numbers test →
      (∀ node ∈ body, WellFormedStatement numbers node) →
      WellFormedStatement numbers (.loop test body)
  | function {x : String} {params : List String} {body : List Node} : IsName x →
      (∀ param ∈ params, IsName param) → (∀ node ∈ body, WellFormedStatement numbers node) →
      WellFormedStatement numbers (.function (.str x) (params.map .str) body)
  | ret : WellFormedStatement numbers (.ret none)
  | retValue {value : Node} : WellFormedExpression numbers value →
      WellFormedStatement numbers (.ret (some value))
  | importFile {path : String} : IsQuotable path → WellFormedStatement numbers (.importFile path)

/-- A program of well-formed statements. -/
def Program.WellFormed (numbers : Json → Prop) (p : Program) : Prop :=
  ∀ node ∈ p.statements, WellFormedStatement numbers node

end ScriptLang
