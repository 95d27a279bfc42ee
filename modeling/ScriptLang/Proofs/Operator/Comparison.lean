import Mathlib.Data.String.Basic
import ScriptLang.Evaluator
import ScriptLang.Proofs.Fault
import ScriptLang.Proofs.Number.Exact

/-!
# The order of values

The six comparisons of the language seen as one relation. What `==` goes by is written down as the
identity of a value, so that equality inherits its laws from that of identities; numbers and strings
are points of a linear order, and what the operators say of two of them is what that order says of
the points. NaN has neither an identity nor a point.

Results:
* `Value.equal_iff`: equal values are those with one identity;
* `Operator.ComparedAs.of_numbers`, `Operator.ComparedAs.of_strings`: the linear orders;
* `Operator.order_error`: ordering anything else fails;
* `Operator.comparisons_consistent`: the laws of all six operators together.
-/
namespace ScriptLang

namespace Value

/-! ## Kinds and identities -/

inductive Kind where
  | null
  | boolean
  | number
  | string
  | function
  | builtin
  deriving DecidableEq, Repr

/-- The kind of a value that a program can have. -/
def kind? : Value → Option Kind
  | .data .null => some .null
  | .data (.bool _) => some .boolean
  | .data (.int _) | .data (.float _) => some .number
  | .data (.str _) => some .string
  | .closure _ => some .function
  | .builtin .. => some .builtin
  | _ => none

/-- What values are told apart by. -/
inductive Identity where
  | null
  | boolean (b : Bool)
  | number (point : ExtendedRat)
  | string (s : String)
  | function (scope : ScopeId) (name? : Option Json.Key)
  | builtin (name : String) (home : ScopeId)

namespace Identity

def kind : Identity → Kind
  | .null => .null
  | .boolean _ => .boolean
  | .number _ => .number
  | .string _ => .string
  | .function .. => .function
  | .builtin .. => .builtin

end Identity

/-- The point of a number that is not NaN. -/
def point? (v : Value) : Option ExtendedRat := v.number?.bind Number.point?

/-- The identity of a value that a program can have, unless that is NaN. -/
def identity? : Value → Option Identity
  | .data .null => some .null
  | .data (.bool b) => some (.boolean b)
  | .data (.int n) => (Number.int n).point?.map .number
  | .data (.float x) => (Number.float x).point?.map .number
  | .data (.str s) => some (.string s)
  | .closure c => some (.function c.scope c.name.key?)
  | .builtin name home => some (.builtin name home)
  | _ => none

/-- The float that is no number. -/
def IsNaN (v : Value) : Prop := ∃ x, v = .data (.float x) ∧ Binary64.parts x = .nan

theorem kind?_of_identity? {v : Value} {i : Identity} (h : v.identity? = some i) :
    v.kind? = some i.kind := by
  unfold identity? at h
  split at h
  case h_3 | h_4 =>
    obtain ⟨p, -, rfl⟩ := Option.map_eq_some_iff.mp h
    rfl
  all_goals cases h
  all_goals rfl

theorem identity?_eq_none {v : Value} (hv : v.IsPlain) : v.identity? = none ↔ v.IsNaN := by
  cases hv with
  | data hj =>
    cases hj with
    | float x =>
      cases hparts : Binary64.parts x <;>
        simp [identity?, IsNaN, Number.point?, Binary64.Parts.point?, hparts]
    | _ => simp [identity?, IsNaN, Number.point?]
  | closure c => simp [identity?, IsNaN]
  | builtin name home => simp [identity?, IsNaN]

theorem number?_of_kind {v : Value} (h : v.kind? = some .number) : ∃ n, v.number? = some n := by
  unfold kind? at h
  split at h
  case h_3 | h_4 => exact ⟨_, rfl⟩
  all_goals cases h

theorem point?_of_number? {v : Value} {n : Number} (h : v.number? = some n) :
    v.point? = n.point? := by
  rw [point?, h, Option.bind_some]

/-- Equality goes by identities. -/
theorem equal_iff {a b : Value} (ha : a.IsPlain) (hb : b.IsPlain) :
    a.equal b = true ↔ a.identity? = b.identity? ∧ a.identity?.isSome := by
  rcases ha with ⟨_ | _ | _ | _ | _⟩ | _ | _ <;> rcases hb with ⟨_ | _ | _ | _ | _⟩ | _ | _ <;>
    simp [equal, number?, identity?, Number.equal_iff, Json.equal, Json.key?, equalMember,
      sameFunction, Option.map_inj_right]

end Value

/-! ## The operators -/

namespace Order

/-- What an operator says of two points of a linear order. -/
def onPoints {α : Type} [LinearOrder α] (op : Order) (p q : α) : Bool :=
  match op with
  | .less => decide (p < q)
  | .greater => decide (q < p)
  | .lessEqual => decide (p ≤ q)
  | .greaterEqual => decide (q ≤ p)

theorem onStrings_eq (op : Order) (s t : String) : op.onStrings s t = op.onPoints s t := by
  cases op <;> simp [onStrings, onPoints, ← not_lt]

theorem onNumbers_eq (op : Order) {m n : Value.Number} {p q : ExtendedRat} (hm : m.point? = some p)
    (hn : n.point? = some q) : op.onNumbers m.exact n.exact = op.onPoints p q := by
  have hless := Value.Number.less_of_points hm hn
  have hgreater := Value.Number.less_of_points hn hm
  have hequal := Value.Number.equal_of_points hm hn
  cases op with
  | less => exact hless
  | greater => exact hgreater
  | lessEqual => simp [onNumbers, onPoints, hless, hequal, le_iff_lt_or_eq]
  | greaterEqual => simp [onNumbers, onPoints, hgreater, hequal, le_iff_lt_or_eq, @eq_comm _ p]

end Order

namespace Operator

/-- What the operator of a spelling gives for two values. -/
def compare (symbol : String) (left right : Value) : Except Fault Value :=
  (ofDocument (.str symbol)).apply left right

def Holds (symbol : String) (left right : Value) : Prop :=
  compare symbol left right = .ok (.data (.bool true))

def Refuted (symbol : String) (left right : Value) : Prop :=
  compare symbol left right = .ok (.data (.bool false))

/-! ### Equality -/

theorem holds_equal {a b : Value} (ha : a.IsPlain) (hb : b.IsPlain) :
    Holds "==" a b ↔ a.identity? = b.identity? ∧ a.identity?.isSome := by
  rw [← Value.equal_iff ha hb]
  simp [Holds, compare, ofDocument, apply]

theorem refuted_equal {a b : Value} (ha : a.IsPlain) (hb : b.IsPlain) :
    Refuted "==" a b ↔ ¬ (a.identity? = b.identity? ∧ a.identity?.isSome) := by
  rw [← Value.equal_iff ha hb]
  simp [Refuted, compare, ofDocument, apply]

theorem refuted_equal_of_kind {a b : Value} (ha : a.IsPlain) (hb : b.IsPlain)
    (h : a.kind? ≠ b.kind?) : Refuted "==" a b := by
  rw [refuted_equal ha hb]
  rintro ⟨heq, hsome⟩
  obtain ⟨i, hi⟩ := Option.isSome_iff_exists.mp hsome
  exact h ((Value.kind?_of_identity? hi).trans (Value.kind?_of_identity? (heq ▸ hi)).symm)

theorem holds_equal_numbers {a b : Value} {m n : Value.Number} (hm : a.number? = some m)
    (hn : b.number? = some n) :
    Holds "==" a b ↔ ∃ p, a.point? = some p ∧ b.point? = some p := by
  have hequal : Holds "==" a b ↔ m.exact.equal n.exact = true := by
    simp [Holds, compare, ofDocument, apply, Value.equal, hm, hn]
  rw [hequal, Value.Number.equal_iff, Value.point?_of_number? hm, Value.point?_of_number? hn]
  constructor
  · rintro ⟨heq, hsome⟩
    obtain ⟨p, hp⟩ := Option.isSome_iff_exists.mp hsome
    exact ⟨p, hp, heq ▸ hp⟩
  · rintro ⟨p, hp, hq⟩
    exact ⟨hp.trans hq.symm, by rw [hp]; rfl⟩

/-! ### Order -/

/-- The operators compare two values as points of a linear order. -/
structure ComparedAs {α : Type} [LinearOrder α] (p q : α) (a b : Value) : Prop where
  equal : compare "==" a b = .ok (.data (.bool (decide (p = q))))
  order (op : Order) : compare op.symbol a b = .ok (.data (.bool (op.onPoints p q)))

theorem compare_order (op : Order) (a b : Value) : compare op.symbol a b = applyOrder op a b := by
  cases op <;> rfl

theorem compare_numbers (op : Order) {a b : Value} {m n : Value.Number} (hm : a.number? = some m)
    (hn : b.number? = some n) :
    compare op.symbol a b = .ok (.data (.bool (op.onNumbers m.exact n.exact))) := by
  rw [compare_order]
  unfold applyOrder
  rw [hm, hn]

namespace ComparedAs

theorem of_numbers {a b : Value} {p q : ExtendedRat} (ha : a.point? = some p)
    (hb : b.point? = some q) : ComparedAs p q a b := by
  obtain ⟨m, hm, hp⟩ := Option.bind_eq_some_iff.mp ha
  obtain ⟨n, hn, hq⟩ := Option.bind_eq_some_iff.mp hb
  refine ⟨?_, fun op => ?_⟩
  · have hequal := Value.Number.equal_of_points hp hq
    simp [compare, ofDocument, apply, Value.equal, hm, hn, hequal]
  · rw [compare_numbers op hm hn, op.onNumbers_eq hp hq]

theorem of_strings (s t : String) : ComparedAs s t (.data (.str s)) (.data (.str t)) := by
  refine ⟨?_, fun op => ?_⟩
  · have hequal : (Json.str s).equal (.str t) = decide (s = t) := by
      rw [Bool.eq_iff_iff]
      simp [Json.equal, Json.key?]
    simp [compare, ofDocument, apply, Value.equal, Value.number?, hequal]
  · simp [compare_order, applyOrder, Value.number?, op.onStrings_eq]

variable {α : Type} [LinearOrder α] {p q : α} {a b : Value}

theorem less (h : ComparedAs p q a b) : compare "<" a b = .ok (.data (.bool (decide (p < q)))) :=
  h.order .less

theorem greater (h : ComparedAs p q a b) : compare ">" a b = .ok (.data (.bool (decide (q < p)))) :=
  h.order .greater

theorem holds (h : ComparedAs p q a b) :
    (Holds "==" a b ↔ p = q) ∧ (Holds "<" a b ↔ p < q) := by
  simp [Holds, h.less, h.equal]

theorem trichotomy (h : ComparedAs p q a b) :
    Holds "<" a b ∧ Refuted "==" a b ∧ Refuted ">" a b ∨
      Refuted "<" a b ∧ Holds "==" a b ∧ Refuted ">" a b ∨
      Refuted "<" a b ∧ Refuted "==" a b ∧ Holds ">" a b := by
  simp only [Holds, Refuted, h.less, h.greater, h.equal, Except.ok.injEq, Value.data.injEq,
    Json.bool.injEq, decide_eq_true_eq, decide_eq_false_iff_not]
  rcases lt_trichotomy p q with hlt | heq | hgt
  · exact .inl ⟨hlt, hlt.ne, hlt.le.not_gt⟩
  · exact .inr (.inl ⟨heq.not_lt, heq, heq.not_gt⟩)
  · exact .inr (.inr ⟨hgt.le.not_gt, hgt.ne', hgt⟩)

/-- What the other three operators say is what `<` says, of the pair or of its converse. -/
theorem converse (h : ComparedAs p q a b) (h' : ComparedAs q p b a) :
    compare ">" a b = compare "<" b a ∧ (Holds "<=" a b ↔ Refuted "<" b a) ∧
      (Refuted "<=" a b ↔ Holds "<" b a) ∧ (Holds ">=" a b ↔ Refuted "<" a b) ∧
      (Refuted ">=" a b ↔ Holds "<" a b) := by
  have hlessEqual : compare "<=" a b = .ok (.data (.bool (decide (p ≤ q)))) := h.order .lessEqual
  have hgreaterEqual : compare ">=" a b = .ok (.data (.bool (decide (q ≤ p)))) :=
    h.order .greaterEqual
  simp [Holds, Refuted, h.less, h'.less, h.greater, hlessEqual, hgreaterEqual]

end ComparedAs

/-- The two values are numbers other than NaN, or strings. -/
def Ordered (a b : Value) : Prop :=
  (a.point?.isSome ∧ b.point?.isSome) ∨ ∃ s t, a = .data (.str s) ∧ b = .data (.str t)

theorem Ordered.compared {a b : Value} (h : Ordered a b) :
    ∃ (α : Type) (_ : LinearOrder α) (p q : α), ComparedAs p q a b ∧ ComparedAs q p b a := by
  obtain ⟨ha, hb⟩ | ⟨s, t, rfl, rfl⟩ := h
  · obtain ⟨p, hp⟩ := Option.isSome_iff_exists.mp ha
    obtain ⟨q, hq⟩ := Option.isSome_iff_exists.mp hb
    exact ⟨_, _, p, q, .of_numbers hp hq, .of_numbers hq hp⟩
  · exact ⟨_, _, s, t, .of_strings s t, .of_strings t s⟩

/-! ### Everything else -/

theorem applyOrder_of_not_comparable (op : Order) {a b : Value} (h : ¬ a.Comparable b) :
    applyOrder op a b = texts a b >>= fun t => .error (.notComparable t.1 op.symbol t.2) := by
  unfold applyOrder
  split
  · next m n hm hn => exact absurd (.inl ⟨by rw [hm]; rfl, by rw [hn]; rfl⟩) h
  · split
    · next s t _ => exact absurd (.inr ⟨s, t, rfl, rfl⟩) h
    · rfl

theorem holds_less_numbers {a b : Value} {m n : Value.Number} (hm : a.number? = some m)
    (hn : b.number? = some n) :
    Holds "<" a b ↔ ∃ p q, a.point? = some p ∧ b.point? = some q ∧ p < q := by
  rw [Value.point?_of_number? hm, Value.point?_of_number? hn, ← Value.Number.less_iff, Holds,
    show "<" = Order.less.symbol from rfl, compare_numbers _ hm hn]
  simp [Order.onNumbers]

theorem holds_less {a b : Value} :
    Holds "<" a b ↔ (∃ p q, a.point? = some p ∧ b.point? = some q ∧ p < q) ∨
      ∃ s t, a = .data (.str s) ∧ b = .data (.str t) ∧ s < t := by
  constructor
  · intro h
    by_cases hcomp : a.Comparable b
    · obtain ⟨ha, hb⟩ | ⟨s, t, rfl, rfl⟩ := hcomp
      · obtain ⟨m, hm⟩ := Option.isSome_iff_exists.mp ha
        obtain ⟨n, hn⟩ := Option.isSome_iff_exists.mp hb
        exact .inl ((holds_less_numbers hm hn).mp h)
      · exact .inr ⟨s, t, rfl, rfl, (ComparedAs.of_strings s t).holds.2.mp h⟩
    · rw [Holds, show "<" = Order.less.symbol from rfl, compare_order,
        applyOrder_of_not_comparable _ hcomp] at h
      cases htexts : texts a b <;> rw [htexts] at h <;> cases h
  · rintro (⟨p, q, hp, hq, hlt⟩ | ⟨s, t, rfl, rfl, hlt⟩)
    · exact (ComparedAs.of_numbers hp hq).holds.2.mpr hlt
    · exact (ComparedAs.of_strings s t).holds.2.mpr hlt

theorem less_trans {a b c : Value} (hab : Holds "<" a b) (hbc : Holds "<" b c) :
    Holds "<" a c := by
  rw [holds_less] at hab hbc ⊢
  obtain ⟨p, q, hp, hq, hpq⟩ | ⟨s, t, rfl, rfl, hst⟩ := hab
  · obtain ⟨q', r, hq', hr, hqr⟩ | ⟨s, t, rfl, rfl, hst⟩ := hbc
    · cases hq.symm.trans hq'
      exact .inl ⟨p, r, hp, hr, hpq.trans hqr⟩
    · cases hq
  · obtain ⟨q, r, hq, hr, hqr⟩ | ⟨t', u, ht, rfl, htu⟩ := hbc
    · cases hq
    · cases ht
      exact .inr ⟨s, u, rfl, rfl, hst.trans htu⟩

/-- An ordering fails with the texts of both operands, or because there is no text of one. -/
inductive OrderFault (op : Order) (a b : Value) : Fault → Prop
  | notComparable {l r : String} : a.text = .ok l → b.text = .ok r →
      OrderFault op a b (.notComparable l op.symbol r)
  | tooLong : a.IsTooLong ∨ b.IsTooLong → OrderFault op a b (.internal .digitLimit)

theorem order_error (op : Order) {a b : Value} (ha : a.IsPlain) (hb : b.IsPlain)
    (h : ¬ a.Comparable b) : ∃ f, compare op.symbol a b = .error f ∧ OrderFault op a b f := by
  rw [compare_order, applyOrder_of_not_comparable op h]
  cases htexts : texts a b with
  | ok t =>
    obtain ⟨hl, hr⟩ := texts_eq_ok htexts
    exact ⟨_, rfl, .notComparable hl hr⟩
  | error f =>
    obtain ⟨e, rfl, he | he⟩ := texts_eq_error htexts
    · obtain ⟨rfl, hlong⟩ := ha.text_error he
      exact ⟨_, rfl, .tooLong (.inl hlong)⟩
    · obtain ⟨rfl, hlong⟩ := hb.text_error he
      exact ⟨_, rfl, .tooLong (.inr hlong)⟩

theorem comparable_of_kinds {a b : Value} (h : a.Comparable b) :
    a.kind? = b.kind? ∧ (a.kind? = some .number ∨ a.kind? = some .string) := by
  obtain ⟨ha, hb⟩ | ⟨s, t, rfl, rfl⟩ := h
  · obtain ⟨m, hm⟩ := Option.isSome_iff_exists.mp ha
    obtain ⟨n, hn⟩ := Option.isSome_iff_exists.mp hb
    obtain rfl := Value.number?_eq_some hm
    obtain rfl := Value.number?_eq_some hn
    cases m <;> cases n <;> exact ⟨rfl, .inl rfl⟩
  · exact ⟨rfl, .inr rfl⟩

/-! ### The laws together -/

def comparisons : List String := ["==", "!=", "<", ">", "<=", ">="]

/-- The comparisons of the language are one order on the values that a program can have. -/
structure ComparisonLaws : Prop where
  /-- An expression compares the values of its operands. -/
  evaluated (symbol : String) (fuel : Nat) (left right : Node) (scope : ScopeId) :
    symbol ∈ comparisons →
      Evaluator.evaluate (fuel + 1) (.binary left (.str symbol) right) scope = do
        let l ← Evaluator.evaluate fuel left scope
        let r ← Evaluator.evaluate fuel right scope
        Eval.ofExcept (compare symbol l r)
  /-- What equality goes by. -/
  identities (a b : Value) : a.IsPlain → b.IsPlain →
    (Holds "==" a b ↔ a.identity? = b.identity? ∧ a.identity?.isSome)
  equal_answers (a b : Value) : a.IsPlain → b.IsPlain → Holds "==" a b ∨ Refuted "==" a b
  equal_symm (a b : Value) : a.IsPlain → b.IsPlain → Holds "==" a b → Holds "==" b a
  equal_trans (a b c : Value) : a.IsPlain → b.IsPlain → c.IsPlain →
    Holds "==" a b → Holds "==" b c → Holds "==" a c
  equal_refl (a : Value) : a.IsPlain → (Holds "==" a a ↔ ¬ a.IsNaN)
  notEqual (a b : Value) : a.IsPlain → b.IsPlain →
    (Holds "!=" a b ↔ Refuted "==" a b) ∧ (Refuted "!=" a b ↔ Holds "==" a b)
  /-- No truth value equals a number, for one thing. -/
  kinds (a b : Value) : a.IsPlain → b.IsPlain → a.kind? ≠ b.kind? → Refuted "==" a b
  numbers (a b : Value) : a.kind? = some .number → b.kind? = some .number →
    (Holds "==" a b ↔ ∃ p, a.point? = some p ∧ b.point? = some p) ∧
      (Holds "<" a b ↔ ∃ p q, a.point? = some p ∧ b.point? = some q ∧ p < q)
  strings (s t : String) :
    (Holds "==" (.data (.str s)) (.data (.str t)) ↔ s = t) ∧
      (Holds "<" (.data (.str s)) (.data (.str t)) ↔ s < t)
  trichotomy (a b : Value) : Ordered a b →
    Holds "<" a b ∧ Refuted "==" a b ∧ Refuted ">" a b ∨
      Refuted "<" a b ∧ Holds "==" a b ∧ Refuted ">" a b ∨
      Refuted "<" a b ∧ Refuted "==" a b ∧ Holds ">" a b
  less_trans (a b c : Value) : Holds "<" a b → Holds "<" b c → Holds "<" a c
  converse (a b : Value) : Ordered a b →
    compare ">" a b = compare "<" b a ∧ (Holds "<=" a b ↔ Refuted "<" b a) ∧
      (Refuted "<=" a b ↔ Holds "<" b a) ∧ (Holds ">=" a b ↔ Refuted "<" a b) ∧
      (Refuted ">=" a b ↔ Holds "<" a b)
  /-- Two values that are neither numbers nor strings, or one of each, have no order. -/
  unordered (op : Order) (a b : Value) : a.IsPlain → b.IsPlain →
    ¬ (a.kind? = b.kind? ∧ (a.kind? = some .number ∨ a.kind? = some .string)) →
      ∃ f, compare op.symbol a b = .error f ∧ OrderFault op a b f ∧
        f.className = "OBPIRuntimeError"

theorem evaluate_comparison {symbol : String} (h : symbol ∈ comparisons) (fuel : Nat)
    (left right : Node) (scope : ScopeId) :
    Evaluator.evaluate (fuel + 1) (.binary left (.str symbol) right) scope = (do
      let l ← Evaluator.evaluate fuel left scope
      let r ← Evaluator.evaluate fuel right scope
      Eval.ofExcept (compare symbol l r)) := by
  simp only [comparisons, List.mem_cons, List.not_mem_nil, or_false] at h
  rw [Evaluator.evaluate.eq_def]
  rcases h with rfl | rfl | rfl | rfl | rfl | rfl <;> rfl

theorem comparisons_consistent : ComparisonLaws where
  evaluated symbol fuel left right scope h := evaluate_comparison h fuel left right scope
  identities a b := holds_equal
  equal_answers a b ha hb := by
    rw [holds_equal ha hb, refuted_equal ha hb]
    exact Classical.em _
  equal_symm a b ha hb h := by
    obtain ⟨heq, hsome⟩ := (holds_equal ha hb).mp h
    exact (holds_equal hb ha).mpr ⟨heq.symm, heq ▸ hsome⟩
  equal_trans a b c ha hb hc hab hbc := by
    obtain ⟨heq, hsome⟩ := (holds_equal ha hb).mp hab
    obtain ⟨heq', -⟩ := (holds_equal hb hc).mp hbc
    exact (holds_equal ha hc).mpr ⟨heq.trans heq', hsome⟩
  equal_refl a ha := by
    rw [holds_equal ha ha, ← Value.identity?_eq_none ha, Option.isSome_iff_ne_none]
    exact and_iff_right rfl
  notEqual a b _ _ := by
    simp [Holds, Refuted, compare, ofDocument, apply]
  kinds a b := refuted_equal_of_kind
  numbers a b ha hb := by
    obtain ⟨m, hm⟩ := Value.number?_of_kind ha
    obtain ⟨n, hn⟩ := Value.number?_of_kind hb
    exact ⟨holds_equal_numbers hm hn, holds_less_numbers hm hn⟩
  strings s t := (ComparedAs.of_strings s t).holds
  trichotomy a b h := by
    obtain ⟨α, _, p, q, hpq, -⟩ := h.compared
    exact hpq.trichotomy
  less_trans a b c := less_trans
  converse a b h := by
    obtain ⟨α, _, p, q, hpq, hqp⟩ := h.compared
    exact hpq.converse hqp
  unordered op a b ha hb h := by
    obtain ⟨f, hf, horder⟩ := order_error op ha hb (mt comparable_of_kinds h)
    exact ⟨f, hf, horder, by cases horder <;> rfl⟩

example : Refuted "==" (.data (.bool true)) (.data (.int 1)) := rfl

end Operator

end ScriptLang
