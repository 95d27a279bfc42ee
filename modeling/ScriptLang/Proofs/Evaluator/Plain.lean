import ScriptLang.Proofs.Evaluator.Invariant
import ScriptLang.Proofs.Fault
import ScriptLang.Proofs.Node.WellFormed

/-!
# Runs of well-formed code

Well-formed code has only scalars for literals, names for assignments, the operators of the language,
and every node in its place. So every value of a run is plain, which is an invariant of the machine
that the evaluator keeps: bindings, arguments and results are plain, and the code of functions is
well-formed.

Results:
* `Code.wellFormed`: well-formed code is a condition that nodes hand down;
* `plain`, `plain_keeps`: the logic of the invariant `Machine.IsWellFormed`.
-/
namespace ScriptLang

/-! ## Well-formed code -/

theorem LiteralValue.isScalar {kind : LiteralKind} {j : Json}
    (h : LiteralValue IsNonNegative kind j) : j.IsScalar := by
  cases h with
  | string hs => exact .str _
  | number hj =>
    cases j with
    | int n => exact .int n
    | float x => exact .float x
    | _ => exact hj.elim
  | boolean b => exact .bool b
  | null => exact .null

theorem ofDocument_of_mem_operatorSymbols {symbol : String} (h : symbol ∈ operatorSymbols) :
    Operator.ofDocument (.str symbol) ≠ .assign ∧
      ∀ j, Operator.ofDocument (.str symbol) ≠ .other j := by
  simp only [operatorSymbols, List.mem_cons, List.not_mem_nil, or_false] at h
  rcases h with rfl | rfl | rfl | rfl | rfl | rfl | rfl | rfl | rfl | rfl <;>
    simp [Operator.ofDocument]

/-- The code of well-formed programs. Nothing in it is in a wrong place. -/
def Code.wellFormed : Code where
  Name := Json.IsText
  Literal := Json.IsScalar
  Operates op := op ≠ .assign ∧ ∀ j, op ≠ .other j
  Stray _ := False
  Expression := WellFormedExpression IsNonNegative
  Statement := WellFormedStatement IsNonNegative
  literal h := by
    cases h with
    | literal hj => exact hj.isScalar
  identifier h := by
    cases h with
    | identifier hx => exact ⟨_, rfl⟩
  assignment h hop := by
    cases h with
    | assignment hx hvalue => exact ⟨fun y hy => by cases hy; exact ⟨_, rfl⟩, fun h => h _ rfl, hvalue⟩
    | operation hsymbol hl hr => exact absurd hop (ofDocument_of_mem_operatorSymbols hsymbol).1
  operation h hop := by
    cases h with
    | assignment hx hvalue => exact absurd rfl hop
    | operation hsymbol hl hr => exact ⟨hl, ofDocument_of_mem_operatorSymbols hsymbol, hr⟩
  call h := by
    cases h with
    | call hx hargs => exact ⟨⟨_, rfl⟩, hargs⟩
  noExpression h hnode := by cases h <;> cases hnode
  evaluation h := by
    cases h with
    | expression hvalue => exact hvalue
  declaration h := by
    cases h with
    | declare hx hvalue => exact ⟨⟨_, rfl⟩, hvalue⟩
  block h := by
    cases h with
    | block hbody => exact hbody
  branch h := by
    cases h with
    | branch htest hconsequent => exact ⟨htest, hconsequent, by rintro _ ⟨⟩⟩
    | branchElse htest hconsequent halternate =>
      exact ⟨htest, hconsequent, by rintro _ ⟨⟩; exact halternate⟩
  loop h := by
    cases h with
    | loop htest hbody => exact ⟨htest, hbody⟩
  function h := by
    cases h with
    | function hx hparams hbody =>
      refine ⟨⟨_, rfl⟩, fun param hparam => ?_, hbody⟩
      obtain ⟨s, -, rfl⟩ := List.mem_map.mp hparam
      exact ⟨s, rfl⟩
  ret h := by
    cases h with
    | retValue hvalue => exact hvalue
  noStatement h hnode := by cases h <;> cases hnode

/-! ## The invariant -/

/-- A plain value; the code of a function is well-formed. -/
structure Value.IsWellFormed (v : Value) : Prop extends v.IsShowable where
  body : ∀ c, v = .closure c → ∀ node ∈ c.body, WellFormedStatement IsNonNegative node

theorem Value.IsWellFormed.data {j : Json} (h : j.IsScalar) : (Value.data j).IsWellFormed where
  plain := .data h
  params := by rintro _ ⟨⟩
  body := by rintro _ ⟨⟩

theorem Value.IsWellFormed.builtin (name : String) (home : ScopeId) :
    (Value.builtin name home).IsWellFormed where
  plain := .builtin name home
  params := by rintro _ ⟨⟩
  body := by rintro _ ⟨⟩

/-- The lines go into the sink, and all values that are bound are well-formed. -/
structure Machine.IsWellFormed (sink : Sink) (m : Machine) : Prop where
  into : m.sink = sink
  bound : ∀ scope, ∀ b ∈ (m.scopes.get scope).bindings, b.2.IsWellFormed

namespace Machine.IsWellFormed

variable {m : Machine} {sink : Sink}

theorem fresh (sink : Sink) (verbose : Bool) :
    (Machine.freshInto sink verbose).IsWellFormed sink where
  into := rfl
  bound scope b hb := by
    unfold Machine.freshInto Scopes.get at hb
    dsimp only at hb
    cases scope with
    | zero =>
      rw [List.mem_singleton.mp hb]
      exact .builtin _ _
    | succ scope => cases hb

/-- What does not touch the scopes or the sink. -/
theorem of_eq {m' : Machine} (h : m.IsWellFormed sink) (hsink : m'.sink = m.sink)
    (hscopes : m'.scopes = m.scopes) : m'.IsWellFormed sink where
  into := hsink.trans h.into
  bound := by
    rw [hscopes]
    exact h.bound

theorem value? (h : m.IsWellFormed sink) {scope : ScopeId} {key : Json.Key} {v : Value}
    (hv : (m.scopes.get scope).value? key = some v) :
    v.IsWellFormed ∧ ∃ name, (name, v) ∈ (m.scopes.get scope).bindings := by
  obtain ⟨b, hb, rfl⟩ := Option.map_eq_some_iff.mp hv
  have hmem := List.mem_of_find?_eq_some hb
  exact ⟨h.bound scope b hmem, b.1, hmem⟩

theorem modify (h : m.IsWellFormed sink) (scope : ScopeId) {change : Scope → Scope}
    (hchange : ∀ b ∈ (change (m.scopes.get scope)).bindings, b.2.IsWellFormed) :
    { m with scopes := m.scopes.modify scope change : Machine }.IsWellFormed sink where
  into := h.into
  bound id b hb := by
    dsimp only at hb
    rw [Scopes.get_modify] at hb
    split at hb
    · next hid =>
      obtain ⟨rfl, -⟩ := hid
      exact hchange b hb
    · exact h.bound id b hb

end Machine.IsWellFormed

namespace Maintains

variable {α : Type} {sink : Sink} {n : Nat}

/-- A computation that touches neither the scopes nor the sink. -/
theorem aside {x : Eval α}
    (h : ∀ m, (x m).2.sink = m.sink ∧ (x m).2.scopes = m.scopes) :
    Maintains (Machine.IsWellFormed sink) n (fun _ _ => True) x :=
  fun m _ hm => ⟨by rw [(h m).2], hm.of_eq (h m).1 (h m).2, fun _ _ => trivial⟩

theorem newScope (parent : ScopeId) :
    Maintains (Machine.IsWellFormed sink) n (fun _ _ => True) (Eval.newScope parent) := by
  refine fun m _ hm => ⟨by simp [Eval.newScope], ⟨hm.into, fun id b hb => ?_⟩,
    fun _ _ => trivial⟩
  simp only [Eval.newScope, Scopes.get_push] at hb
  split at hb
  · cases hb
  · exact hm.bound id b hb

theorem lookup (scope : ScopeId) (x : Json) :
    Maintains (Machine.IsWellFormed sink) n (fun _ v => v.IsWellFormed) (Eval.lookup scope x) := by
  intro m _ hm
  unfold Eval.lookup
  split
  · next v hv =>
    obtain ⟨key, owner, -, -, hvalue⟩ := m.scopes.lookup_eq_ok.mp hv
    exact ⟨Nat.le_refl _, hm, by rintro _ ⟨⟩; exact (hm.value? hvalue).1⟩
  · exact ⟨Nat.le_refl _, hm, by rintro _ ⟨⟩⟩

theorem declare (scope : ScopeId) (x : Json) {v : Value} (hv : v.IsWellFormed) :
    Maintains (Machine.IsWellFormed sink) n (fun _ _ => True) (Eval.declare scope x v) := by
  intro m _ hm
  rw [Eval.declare_run]
  split
  · refine ⟨by simp, hm.modify scope fun b hb => ?_, fun _ _ => trivial⟩
    rcases List.mem_append.mp hb with hb | hb
    · exact hm.bound scope b hb
    · rw [List.mem_singleton.mp hb]
      exact hv
  · exact ⟨Nat.le_refl _, hm, fun _ _ => trivial⟩

theorem assign (scope : ScopeId) (x : Json) {v : Value} (hv : v.IsWellFormed) :
    Maintains (Machine.IsWellFormed sink) n (fun _ _ => True) (Eval.assign scope x v) := by
  intro m _ hm
  rw [Eval.assign_run]
  split
  · next owner key _ =>
    refine ⟨by simp, hm.modify owner fun b hb => ?_, fun _ _ => trivial⟩
    obtain ⟨c, hc, rfl⟩ := List.mem_map.mp hb
    split
    · exact hv
    · exact hm.bound owner c hc
  · exact ⟨Nat.le_refl _, hm, fun _ _ => trivial⟩

theorem step (rule : Json) (scope : ScopeId) (call : Option (Json × List Value)) :
    Maintains (Machine.IsWellFormed sink) n (fun _ _ => True) (Eval.step rule scope call) := by
  refine aside fun m => ?_
  unfold Eval.step
  split
  · exact ⟨rfl, rfl⟩
  · split
    · split <;> exact ⟨rfl, rfl⟩
    · exact ⟨rfl, rfl⟩

theorem print (line : String) :
    Maintains (Machine.IsWellFormed sink) n (fun _ _ => True) (Eval.print line) := by
  refine aside fun m => ?_
  unfold Eval.print
  split <;> exact ⟨rfl, rfl⟩

theorem callBuiltin (args : List Value) :
    Maintains (Machine.IsWellFormed sink) n (fun _ v => v.IsWellFormed)
      (Evaluator.callBuiltin args) := by
  unfold Evaluator.callBuiltin
  refine .bind (P := fun _ _ => True) ?_ fun _ words _ _ =>
    .bind (.print _) fun _ _ _ _ => .pure fun _ _ => .data .null
  cases Eval.texts args with
  | error b => exact .fail _
  | ok words => exact .pure fun _ _ => trivial

end Maintains

theorem Machine.IsWellFormed.step {sink : Sink} {m m' : Machine} (hm : m.IsWellFormed sink)
    {rule : Json} {scope : ScopeId} {call : Option (Json × List Value)} {o : Outcome Unit}
    (h : Eval.step rule scope call m = (o, m')) : m'.IsWellFormed sink := by
  have hkept := Maintains.step rule scope call m (Nat.zero_le _) hm
  rw [h] at hkept
  exact hkept.invariant

def plain (sink : Sink) : Logic Code.wellFormed where
  Sees _ _ := True
  Owns _ _ := True
  Holds _ v := v.IsWellFormed
  Allows _ := True
  Meets n Q x := Maintains (Machine.IsWellFormed sink) n Q x
  sees_mono _ _ := trivial
  owns_mono _ _ := trivial
  holds_mono _ hv := hv
  sees _ := trivial
  holds_null := .data .null
  holds_literal hj := .data hj
  holds_function _ h :=
    { plain := .closure _
      params := by rintro _ ⟨⟩; exact (Code.wellFormed.function h).2.1
      body := by rintro _ ⟨⟩; exact (Code.wellFormed.function h).2.2 }
  of_closure hc := ⟨trivial, hc.params _ rfl, hc.body _ rfl⟩
  allows_stray h := h.elim
  allows_unlinked _ := trivial
  allows_notAFunction _ := trivial
  allows_mainMissing := trivial
  pure h := .pure h
  bind hx hk := .bind hx hk
  exhausted := .exhausted
  fail _ := .fail _
  newScope _ := .newScope _
  lookup _ _ := .lookup _ _
  declare _ _ hv := .declare _ _ hv
  assign _ _ hv := .assign _ _ hv
  apply _ _ _ := .ofExcept fun v hv _ _ => by
    obtain ⟨j, rfl, hj⟩ := Operator.apply_scalar _ _ _ v hv
    exact .data hj
  step rule _ _ _ := .step rule _ _
  callBuiltin _ := .callBuiltin _
  invoke _ _ _ hbody :=
    .invoke (fun _ hm => hm.of_eq rfl rfl) (fun _ hm => hm.of_eq rfl rfl)
      (fun _ _ hm => hm.of_eq rfl rfl) (hbody _ (Nat.le_refl _)) fun _ c hc => by
        cases c with
        | normal v => exact .data .null
        | returned v => exact hc
  main := fun m _ hm => ⟨Nat.le_refl _, hm, by
    rintro _ ⟨⟩ main hmain
    dsimp only [Session.mainOf] at hmain
    split at hmain
    · next c hc =>
      cases hmain
      exact (hm.value? hc).1
    · cases hmain⟩

theorem plain_keeps {sink : Sink} : (plain sink).Keeps (Machine.IsWellFormed sink) where
  meets h := h
  pushFrame _ _ hm := hm.of_eq rfl rfl

end ScriptLang
