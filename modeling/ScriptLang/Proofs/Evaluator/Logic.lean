import ScriptLang.Session

/-!
# Logics of computations

What the evaluator does it puts together from few primitive computations. A logic says when a
computation meets a condition: it has a rule for each primitive and one for sequencing. What these
rules give for the evaluator is proved here once, by induction on the fuel, for all logics.

Conditions depend on the number `n` of scopes that there are at least, because scopes are only ever
added: what a scope or a value is known to be when there are `n` scopes it is from then on.

A logic is about some code. Which code that is, is a condition on nodes that a node hands down to its
parts; `Code.any` is no condition.

Results:
* `Logic.evaluates`: the evaluator meets the conditions of every logic;
* `Logic.hoist`, `Logic.runBody`: so do the parts of a run.
-/
namespace ScriptLang

variable {α β : Type}

/-! ## Code -/

def Node.isExpression : Node → Bool
  | .literal .. | .identifier .. | .binary .. | .call .. => true
  | _ => false

def Node.isStatement : Node → Bool
  | .expression .. | .declare .. | .block .. | .branch .. | .loop .. | .function .. => true
  | .ret .. | .importFile .. => true
  | _ => false

/-- A condition on code. `Stray` has the faults that code may cause by being in a wrong place. -/
structure Code where
  Name : Json → Prop
  Literal : Json → Prop
  Operates : Operator → Prop
  Stray : Fault → Prop
  Expression : Node → Prop
  Statement : Node → Prop
  literal : ∀ {kind j}, Expression (.literal kind j) → Literal j
  identifier : ∀ {x}, Expression (.identifier x) → Name x
  assignment : ∀ {left operator right}, Expression (.binary left operator right) →
    Operator.ofDocument operator = .assign →
    (∀ x, left = .identifier x → Name x) ∧ ((∀ x, left ≠ .identifier x) → Stray .badTarget) ∧
      Expression right
  operation : ∀ {left operator right}, Expression (.binary left operator right) →
    Operator.ofDocument operator ≠ .assign →
    Expression left ∧ Operates (Operator.ofDocument operator) ∧ Expression right
  call : ∀ {x args}, Expression (.call x args) → Name x ∧ ∀ arg ∈ args, Expression arg
  noExpression : ∀ {node}, Expression node → node.isExpression = false →
    Stray (.unhandledNode node.kindName)
  evaluation : ∀ {value}, Statement (.expression value) → Expression value
  declaration : ∀ {x value}, Statement (.declare x value) → Name x ∧ Expression value
  block : ∀ {body}, Statement (.block body) → ∀ node ∈ body, Statement node
  branch : ∀ {test consequent alternate}, Statement (.branch test consequent alternate) →
    Expression test ∧ (∀ node ∈ consequent, Statement node) ∧
      ∀ body, alternate = some body → ∀ node ∈ body, Statement node
  loop : ∀ {test body}, Statement (.loop test body) →
    Expression test ∧ ∀ node ∈ body, Statement node
  function : ∀ {x params body}, Statement (.function x params body) →
    Name x ∧ (∀ param ∈ params, Name param) ∧ ∀ node ∈ body, Statement node
  ret : ∀ {value}, Statement (.ret (some value)) → Expression value
  noStatement : ∀ {node}, Statement node → node.isStatement = false →
    Stray (.unhandledNode node.kindName)

def Code.any : Code where
  Name _ := True
  Literal _ := True
  Operates _ := True
  Stray _ := True
  Expression _ := True
  Statement _ := True
  literal _ := trivial
  identifier _ := trivial
  assignment _ _ := ⟨fun _ _ => trivial, fun _ => trivial, trivial⟩
  operation _ _ := ⟨trivial, trivial, trivial⟩
  call _ := ⟨trivial, fun _ _ => trivial⟩
  noExpression _ _ := trivial
  evaluation _ := trivial
  declaration _ := ⟨trivial, trivial⟩
  block _ _ _ := trivial
  branch _ := ⟨trivial, fun _ _ => trivial, fun _ _ _ _ => trivial⟩
  loop _ := ⟨trivial, fun _ _ => trivial⟩
  function _ := ⟨trivial, fun _ _ => trivial, fun _ _ => trivial⟩
  ret _ := trivial
  noStatement _ _ := trivial

/-- Nothing is asked of the scope of a closure, nor of its code. -/
theorem Code.any_closure (c : Closure) :
    True ∧ (∀ x ∈ c.params, Code.any.Name x) ∧ ∀ node ∈ c.body, Code.any.Statement node :=
  ⟨trivial, fun _ _ => trivial, fun _ _ => trivial⟩

/-! ## Logics -/

def Completion.value : Completion → Value
  | .normal v => v
  | .returned v => v

/-- Rules for computations that run code: `Meets n Q x` says that with `n` scopes or more `x` does
what the logic is about, and that its values are as `Q` says. Names are looked up from scopes that a
computation sees, and declared in scopes that it owns. -/
structure Logic (code : Code) where
  Sees : Nat → ScopeId → Prop
  Owns : Nat → ScopeId → Prop
  Holds : Nat → Value → Prop
  Allows : Fault → Prop
  Meets : {α : Type} → Nat → (Nat → α → Prop) → Eval α → Prop
  sees_mono : ∀ {n n' scope}, n ≤ n' → Sees n scope → Sees n' scope
  owns_mono : ∀ {n n' scope}, n ≤ n' → Owns n scope → Owns n' scope
  holds_mono : ∀ {n n' v}, n ≤ n' → Holds n v → Holds n' v
  sees : ∀ {n scope}, Owns n scope → Sees n scope
  holds_null : ∀ {n}, Holds n .null
  holds_literal : ∀ {n j}, code.Literal j → Holds n (.data j)
  holds_function : ∀ {n x params body scope}, Owns n scope →
    code.Statement (.function x params body) → Holds n (.closure ⟨x, params, body, scope⟩)
  of_closure : ∀ {n c}, Holds n (.closure c) →
    Sees n c.scope ∧ (∀ x ∈ c.params, code.Name x) ∧ ∀ node ∈ c.body, code.Statement node
  allows_stray : ∀ {f}, code.Stray f → Allows f
  allows_unlinked : ∀ path, Allows (.unlinkedImport path)
  allows_notAFunction : ∀ {x}, code.Name x → Allows (.notAFunction x)
  allows_mainMissing : Allows .mainMissing
  pure : ∀ {α n Q} {a : α}, (∀ n', n ≤ n' → Q n' a) → Meets n Q (Pure.pure a)
  bind : ∀ {α β n} {P : Nat → α → Prop} {Q : Nat → β → Prop} {x : Eval α} {k : α → Eval β},
    Meets n P x → (∀ n' a, n ≤ n' → P n' a → Meets n' Q (k a)) → Meets n Q (x >>= k)
  exhausted : ∀ {α n} {Q : Nat → α → Prop}, Meets n Q Eval.exhausted
  fail : ∀ {α n f} {Q : Nat → α → Prop}, Allows f → Meets n Q (Eval.fail f)
  newScope : ∀ {n scope}, Sees n scope → Meets n Owns (Eval.newScope scope)
  lookup : ∀ {n scope x}, Sees n scope → code.Name x → Meets n Holds (Eval.lookup scope x)
  declare : ∀ {n scope x v}, Owns n scope → code.Name x → Holds n v →
    Meets n (fun _ _ => True) (Eval.declare scope x v)
  assign : ∀ {n scope x v}, Sees n scope → code.Name x → Holds n v →
    Meets n (fun _ _ => True) (Eval.assign scope x v)
  apply : ∀ {n op l r}, code.Operates op → Holds n l → Holds n r →
    Meets n Holds (Eval.ofExcept (Operator.apply op l r))
  step : ∀ {n scope} rule {call}, Sees n scope →
    (∀ x args, call = some (x, args) → ∀ v ∈ args, Holds n v) →
    Meets n (fun _ _ => True) (Eval.step rule scope call)
  callBuiltin : ∀ {n args}, (∀ v ∈ args, Holds n v) → Meets n Holds (Evaluator.callBuiltin args)
  /-- A body in a frame of its own. -/
  invoke : ∀ {n scope} x {body : Eval Completion}, Owns n scope →
    (∀ n', n ≤ n' → Meets n' (fun n c => Holds n c.value) body) →
    Meets n Holds (do
      let frame ← Eval.pushFrame x scope
      let completion ← body
      Eval.popFrame
      Eval.forgetFrame frame
      return completion.result)
  main : ∀ {n}, Meets n (fun n c => ∀ main, c = some main → Holds n (.closure main))
    (Eval.read fun m => Session.mainOf m.scopes)

namespace Logic

variable {code : Code} {L : Logic code} {n fuel : Nat} {scope : ScopeId}

theorem bindParams (hs : L.Owns n scope) {params : List Json} {args : List Value}
    (hparams : ∀ x ∈ params, code.Name x) (hargs : ∀ v ∈ args, L.Holds n v) :
    L.Meets n (fun _ _ => True) (Evaluator.bindParams scope params args) := by
  induction params generalizing n args with
  | nil => exact L.pure fun _ _ => trivial
  | cons param params ih =>
    have hfirst : L.Holds n (args.headD .null) := by
      cases args with
      | nil => exact L.holds_null
      | cons v args => exact hargs v List.mem_cons_self
    refine L.bind (L.declare hs (hparams _ List.mem_cons_self) hfirst) fun n' _ hle _ => ?_
    exact ih (L.owns_mono hle hs) (fun x hx => hparams x (List.mem_cons_of_mem _ hx))
      fun v hv => L.holds_mono hle (hargs v (List.mem_of_mem_tail hv))

/-! ## The evaluator -/

/-- With some fuel the evaluator meets the conditions of a logic. -/
structure Evaluates (L : Logic code) (fuel : Nat) : Prop where
  evaluate : ∀ {n node scope}, L.Sees n scope → code.Expression node →
    L.Meets n L.Holds (Evaluator.evaluate fuel node scope)
  evaluateAll : ∀ {n nodes scope}, L.Sees n scope → (∀ node ∈ nodes, code.Expression node) →
    L.Meets n (fun n vs => ∀ v ∈ vs, L.Holds n v) (Evaluator.evaluateAll fuel nodes scope)
  callClosure : ∀ {n function args}, L.Holds n (.closure function) → (∀ v ∈ args, L.Holds n v) →
    L.Meets n L.Holds (Evaluator.callClosure fuel function args)
  executeBlock : ∀ {n nodes scope}, L.Sees n scope → (∀ node ∈ nodes, code.Statement node) →
    L.Meets n (fun n c => L.Holds n c.value) (Evaluator.executeBlock fuel nodes scope)
  executeAll : ∀ {n nodes scope before}, L.Owns n scope → (∀ node ∈ nodes, code.Statement node) →
    L.Holds n before.value →
    L.Meets n (fun n c => L.Holds n c.value) (Evaluator.executeAll fuel nodes scope before)
  execute : ∀ {n node scope}, L.Owns n scope → code.Statement node →
    L.Meets n (fun n c => L.Holds n c.value) (Evaluator.execute fuel node scope)
  executeLoop : ∀ {n test body scope before}, L.Sees n scope → code.Expression test →
    (∀ node ∈ body, code.Statement node) → L.Holds n before.value →
    L.Meets n (fun n c => L.Holds n c.value) (Evaluator.executeLoop fuel test body scope before)

namespace Evaluates

theorem zero (L : Logic code) : L.Evaluates 0 where
  evaluate _ _ := by unfold Evaluator.evaluate; exact L.exhausted
  evaluateAll _ _ := by unfold Evaluator.evaluateAll; exact L.exhausted
  callClosure _ _ := by unfold Evaluator.callClosure; exact L.exhausted
  executeBlock _ _ := by unfold Evaluator.executeBlock; exact L.exhausted
  executeAll _ _ _ := by unfold Evaluator.executeAll; exact L.exhausted
  execute _ _ := by unfold Evaluator.execute; exact L.exhausted
  executeLoop _ _ _ _ := by unfold Evaluator.executeLoop; exact L.exhausted

theorem operation (ih : L.Evaluates fuel) {left right : Node} {op : Operator}
    (hs : L.Sees n scope) (hleft : code.Expression left) (hop : code.Operates op)
    (hright : code.Expression right) :
    L.Meets n L.Holds (do
      let l ← Evaluator.evaluate fuel left scope
      let r ← Evaluator.evaluate fuel right scope
      Eval.ofExcept (op.apply l r)) := by
  refine L.bind (ih.evaluate hs hleft) fun n' l hle hl => ?_
  refine L.bind (ih.evaluate (L.sees_mono hle hs) hright) fun n'' r hle' hr => ?_
  exact L.apply hop (L.holds_mono hle' hl) hr

theorem evaluate_succ (ih : L.Evaluates fuel) {node : Node} (hs : L.Sees n scope)
    (hnode : code.Expression node) :
    L.Meets n L.Holds (Evaluator.evaluate (fuel + 1) node scope) := by
  unfold Evaluator.evaluate
  cases node with
  | literal kind value => exact L.pure fun _ _ => L.holds_literal (code.literal hnode)
  | identifier x => exact L.lookup hs (code.identifier hnode)
  | binary left operator right =>
    have hassign := code.assignment hnode
    have hoperate := code.operation hnode
    dsimp only
    cases hop : Operator.ofDocument operator with
    | assign =>
      obtain ⟨hx, hstray, hright⟩ := hassign hop
      cases left with
      | identifier x =>
        refine L.bind (ih.evaluate hs hright) fun n' value hle hv => ?_
        exact L.bind (L.assign (L.sees_mono hle hs) (hx x rfl) hv) fun n'' _ hle' _ =>
          L.pure fun _ hle'' => L.holds_mono (Nat.le_trans hle' hle'') hv
      | _ => exact L.fail (L.allows_stray (hstray (by simp)))
    | _ =>
      obtain ⟨hleft, hoperates, hright⟩ := hoperate (by rw [hop]; simp)
      exact ih.operation hs hleft (hop ▸ hoperates) hright
  | call x args =>
    obtain ⟨hx, hargs⟩ := code.call hnode
    refine L.bind (L.lookup hs hx) fun n' callee hle hcallee => ?_
    refine L.bind (ih.evaluateAll (L.sees_mono hle hs) hargs) fun n'' args hle' hargs => ?_
    -- the function was looked up before its arguments, which may have made scopes since
    have hs'' := L.sees_mono (Nat.le_trans hle hle') hs
    have hcall : ∀ y vs, some (x, args) = some (y, vs) → ∀ v ∈ vs, L.Holds n'' v := by
      rintro y vs ⟨⟩
      exact hargs
    cases callee with
    | builtin builtinName home =>
      exact L.bind (L.step _ hs'' hcall) fun _ _ hle'' _ =>
        L.callBuiltin fun v hv => L.holds_mono hle'' (hargs v hv)
    | closure function =>
      refine L.bind (L.step _ hs'' hcall) fun _ _ hle'' _ => ?_
      exact ih.callClosure (L.holds_mono (Nat.le_trans hle' hle'') hcallee)
        fun v hv => L.holds_mono hle'' (hargs v hv)
    | _ => exact L.fail (L.allows_notAFunction hx)
  | _ =>
    exact L.fail (L.allows_stray (code.noExpression hnode rfl))

theorem evaluateAll_succ (ih : L.Evaluates fuel) {nodes : List Node} (hs : L.Sees n scope)
    (hnodes : ∀ node ∈ nodes, code.Expression node) :
    L.Meets n (fun n vs => ∀ v ∈ vs, L.Holds n v)
      (Evaluator.evaluateAll (fuel + 1) nodes scope) := by
  unfold Evaluator.evaluateAll
  cases nodes with
  | nil => exact L.pure fun _ _ => by simp
  | cons node nodes =>
    obtain ⟨hnode, hnodes⟩ := List.forall_mem_cons.mp hnodes
    refine L.bind (ih.evaluate hs hnode) fun n' first hle hfirst => ?_
    refine L.bind (ih.evaluateAll (L.sees_mono hle hs) hnodes) fun n'' rest hle' hrest => ?_
    refine L.pure fun _ hle'' => List.forall_mem_cons.mpr ⟨?_, fun v hv => ?_⟩
    · exact L.holds_mono (Nat.le_trans hle' hle'') hfirst
    · exact L.holds_mono hle'' (hrest v hv)

theorem callClosure_succ (ih : L.Evaluates fuel) {function : Closure} {args : List Value}
    (hf : L.Holds n (.closure function)) (hargs : ∀ v ∈ args, L.Holds n v) :
    L.Meets n L.Holds (Evaluator.callClosure (fuel + 1) function args) := by
  unfold Evaluator.callClosure
  obtain ⟨hs, hparams, hbody⟩ := L.of_closure hf
  refine L.bind (L.newScope hs) fun n' scope hle hs => ?_
  refine L.bind (bindParams hs hparams fun v hv => L.holds_mono hle (hargs v hv))
    fun n'' _ hle' _ => ?_
  have hs'' := L.owns_mono hle' hs
  exact L.invoke _ hs'' fun _ hle'' =>
    ih.executeBlock (L.sees_mono hle'' (L.sees hs'')) hbody

theorem executeBlock_succ (ih : L.Evaluates fuel) {nodes : List Node} (hs : L.Sees n scope)
    (hnodes : ∀ node ∈ nodes, code.Statement node) :
    L.Meets n (fun n c => L.Holds n c.value) (Evaluator.executeBlock (fuel + 1) nodes scope) := by
  unfold Evaluator.executeBlock
  exact L.bind (L.newScope hs) fun _ _ _ hinner => ih.executeAll hinner hnodes L.holds_null

theorem executeAll_succ (ih : L.Evaluates fuel) {nodes : List Node} {before : Completion}
    (hs : L.Owns n scope) (hnodes : ∀ node ∈ nodes, code.Statement node)
    (hb : L.Holds n before.value) :
    L.Meets n (fun n c => L.Holds n c.value)
      (Evaluator.executeAll (fuel + 1) nodes scope before) := by
  unfold Evaluator.executeAll
  cases nodes with
  | nil => exact L.pure fun _ hle => L.holds_mono hle hb
  | cons node nodes =>
    obtain ⟨hnode, hnodes⟩ := List.forall_mem_cons.mp hnodes
    refine L.bind (ih.execute hs hnode) fun n' c hle hc => ?_
    cases c with
    | returned v => exact L.pure fun _ hle' => L.holds_mono hle' hc
    | normal v => exact ih.executeAll (L.owns_mono hle hs) hnodes hc

theorem declareFunction (hs : L.Owns n scope) {x : Json} {params : List Json} {body : List Node}
    (h : code.Statement (.function x params body)) :
    L.Meets n (fun n c => L.Holds n c.value)
      (Evaluator.declareFunction x params body scope) := by
  have hf := L.holds_function hs h
  exact L.bind (L.declare hs (code.function h).1 hf) fun _ _ hle _ =>
    L.pure fun _ hle' => L.holds_mono (Nat.le_trans hle hle') hf

theorem execute_succ (ih : L.Evaluates fuel) {node : Node} (hs : L.Owns n scope)
    (hnode : code.Statement node) :
    L.Meets n (fun n c => L.Holds n c.value) (Evaluator.execute (fuel + 1) node scope) := by
  unfold Evaluator.execute
  refine L.bind (L.step _ (L.sees hs) (by simp)) fun n' _ hle _ => ?_
  replace hs := L.owns_mono hle hs
  have hsees := L.sees hs
  cases node with
  | expression value =>
    exact L.bind (ih.evaluate hsees (code.evaluation hnode)) fun _ _ _ _ =>
      L.pure fun _ _ => L.holds_null
  | declare x value =>
    obtain ⟨hx, hvalue⟩ := code.declaration hnode
    refine L.bind (ih.evaluate hsees hvalue) fun n'' v hle' hv => ?_
    exact L.bind (L.declare (L.owns_mono hle' hs) hx hv) fun _ _ hle'' _ =>
      L.pure fun _ hle₃ => L.holds_mono (Nat.le_trans hle'' hle₃) hv
  | block body => exact ih.executeBlock hsees (code.block hnode)
  | branch test consequent alternate =>
    obtain ⟨htest, hconsequent, halternate⟩ := code.branch hnode
    refine L.bind (ih.evaluate hsees htest) fun n'' chosen hle' _ => ?_
    have hsees'' := L.sees_mono hle' hsees
    split
    · exact ih.executeBlock hsees'' hconsequent
    · cases alternate with
      | none => exact L.pure fun _ _ => L.holds_null
      | some alternate => exact ih.executeBlock hsees'' (halternate _ rfl)
  | loop test body =>
    obtain ⟨htest, hbody⟩ := code.loop hnode
    exact ih.executeLoop hsees htest hbody L.holds_null
  | function x params body => exact declareFunction hs hnode
  | ret argument =>
    cases argument with
    | none => exact L.pure fun _ _ => L.holds_null
    | some argument =>
      exact L.bind (ih.evaluate hsees (code.ret hnode)) fun _ _ _ hv =>
        L.pure fun _ hle => L.holds_mono hle hv
  | importFile path => exact L.fail (L.allows_unlinked path)
  | _ =>
    exact L.fail (L.allows_stray (code.noStatement hnode rfl))

theorem executeLoop_succ (ih : L.Evaluates fuel) {test : Node} {body : List Node}
    {before : Completion} (hs : L.Sees n scope) (htest : code.Expression test)
    (hbody : ∀ node ∈ body, code.Statement node) (hb : L.Holds n before.value) :
    L.Meets n (fun n c => L.Holds n c.value)
      (Evaluator.executeLoop (fuel + 1) test body scope before) := by
  unfold Evaluator.executeLoop
  refine L.bind (ih.evaluate hs htest) fun n' again hle _ => ?_
  have hs' := L.sees_mono hle hs
  split
  · refine L.bind (ih.executeBlock hs' hbody) fun n'' c hle' hc => ?_
    cases c with
    | returned v => exact L.pure fun _ hle => L.holds_mono hle hc
    | normal v => exact ih.executeLoop (L.sees_mono hle' hs') htest hbody hc
  · exact L.pure fun _ hle' => L.holds_mono (Nat.le_trans hle hle') hb

end Evaluates

theorem evaluates (L : Logic code) (fuel : Nat) : L.Evaluates fuel := by
  induction fuel with
  | zero => exact .zero L
  | succ fuel ih =>
    exact {
      evaluate := ih.evaluate_succ
      evaluateAll := ih.evaluateAll_succ
      callClosure := ih.callClosure_succ
      executeBlock := ih.executeBlock_succ
      executeAll := ih.executeAll_succ
      execute := ih.execute_succ
      executeLoop := ih.executeLoop_succ }

/-! ## Runs -/

theorem hoist (L : Logic code) (fuel : Nat) {nodes : List Node}
    (hs : L.Owns n Machine.globalScope) (hnodes : ∀ node ∈ nodes, code.Statement node) :
    L.Meets n (fun _ _ => True) (Session.hoist fuel nodes) := by
  induction nodes generalizing n with
  | nil => exact L.pure fun _ _ => trivial
  | cons node nodes ih =>
    obtain ⟨hfirst, hrest⟩ := List.forall_mem_cons.mp hnodes
    unfold Session.hoist
    cases node with
    | function x params body =>
      exact L.bind ((L.evaluates fuel).execute hs hfirst) fun _ _ hle _ =>
        ih (L.owns_mono hle hs) hrest
    | _ => exact ih hs hrest

theorem runMain (L : Logic code) (fuel : Nat) (hs : L.Sees n Machine.globalScope) :
    L.Meets n L.Holds (do
      match ← Eval.read fun m => Session.mainOf m.scopes with
      | none => Eval.fail .mainMissing
      | some main =>
        Eval.step Evaluator.callRule Machine.globalScope (some (Session.mainName, []))
        Evaluator.callClosure fuel main []) := by
  refine L.bind L.main fun n' main hle hmain => ?_
  cases main with
  | none => exact L.fail L.allows_mainMissing
  | some main =>
    refine L.bind (L.step _ (L.sees_mono hle hs) ?_) fun _ _ hle' _ => ?_
    · rintro x args ⟨⟩
      simp
    · exact (L.evaluates fuel).callClosure (L.holds_mono hle' (hmain main rfl)) (by simp)

theorem runBody (L : Logic code) (fuel : Nat) {p : Program} (hs : L.Owns n Machine.globalScope)
    (hp : ∀ node ∈ p.statements, code.Statement node) :
    L.Meets n L.Holds (Session.runBody fuel p) := by
  unfold Session.runBody
  exact L.bind (L.hoist fuel hs hp) fun _ _ hle _ => L.runMain fuel (L.sees_mono hle (L.sees hs))

end Logic

end ScriptLang
