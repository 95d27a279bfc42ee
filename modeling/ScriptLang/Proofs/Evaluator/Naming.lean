import ScriptLang.Proofs.Evaluator.Framing

/-!
# Names come from declarations

Which names a scope has is changed by nothing but declarations executed in that scope. Whatever an
expression runs, down to functions that close over its own scope and end in a fault, declares names
only in scopes made meanwhile; a statement adds the name that it declares, when it completes, to the
scope it is executed in. The machine may be in any state.

Results:
* `naming`: the logic of scopes that keep their names;
* `Evaluator.names_by_declaration`: what evaluation and execution do to the names of all scopes.
-/
namespace ScriptLang

variable {α β : Type}

/-- All scopes of the first forest have in the second the names that they had. -/
def Scopes.SameNames (h h' : Scopes) : Prop :=
  ∀ id < h.size, (h'.get id).names = (h.get id).names

/-- The machine has the scopes of a forest with their names, and maybe more scopes. -/
structure Machine.Named (h : Scopes) (m : Machine) : Prop where
  exist : h.size ≤ m.scopes.size
  names : h.SameNames m.scopes

def Eval.Scopeless (x : Eval α) : Prop := ∀ m, (x m).2.scopes = m.scopes

theorem Eval.Unscoped.scopeless {x : Eval α} (h : x.Unscoped) : x.Scopeless :=
  fun m => (h m).2.2.1

namespace Machine.Named

variable {h : Scopes} {n : Nat}

theorem scopeless {x : Eval α} (hx : x.Scopeless) :
    Maintains (Machine.Named h) n (fun _ _ => True) x := by
  intro m _ hm
  have hscopes := hx m
  exact ⟨Nat.le_of_eq (congrArg Scopes.size hscopes.symm), ⟨hscopes ▸ hm.exist, hscopes ▸ hm.names⟩,
    fun _ _ => trivial⟩

/-- What is made is none of the scopes of the forest. -/
theorem newScope (parent : ScopeId) :
    Maintains (Machine.Named h) n (fun _ id => h.size ≤ id) (Eval.newScope parent) := by
  intro m _ hm
  have hgrows : m.scopes.size ≤ (m.scopes.push (some parent)).size := by simp
  refine ⟨hgrows, ⟨Nat.le_trans hm.exist hgrows, fun id hid => ?_⟩, ?_⟩
  · rw [← hm.names id hid]
    show ((m.scopes.push (some parent)).get id).names = _
    rw [Scopes.get_push, if_neg (Nat.ne_of_lt (Nat.lt_of_lt_of_le hid hm.exist))]
  · rintro _ ⟨⟩
    exact hm.exist

theorem declare {scope : ScopeId} (hs : h.size ≤ scope) (x : Json) (v : Value) :
    Maintains (Machine.Named h) n (fun _ _ => True) (Eval.declare scope x v) := by
  intro m _ hm
  rw [Eval.declare_run]
  split
  · refine ⟨by simp, ⟨by simpa using hm.exist, fun id hid => ?_⟩, fun _ _ => trivial⟩
    have hne : id ≠ scope := Nat.ne_of_lt (Nat.lt_of_lt_of_le hid hs)
    rw [Scopes.get_modify, if_neg fun h => hne h.1]
    exact hm.names id hid
  · exact ⟨Nat.le_refl _, hm, fun _ _ => trivial⟩

theorem assign (scope : ScopeId) (x : Json) (v : Value) :
    Maintains (Machine.Named h) n (fun _ _ => True) (Eval.assign scope x v) := by
  intro m _ hm
  rw [Eval.assign_run]
  split
  · refine ⟨by simp, ⟨by simpa using hm.exist, fun id hid => ?_⟩, fun _ _ => trivial⟩
    rw [← hm.names id hid]
    exact Scopes.names_get_set ..
  · exact ⟨Nat.le_refl _, hm, fun _ _ => trivial⟩

end Machine.Named

/-- The logic of scopes that keep their names. A computation owns the scopes that are not among
them. -/
def naming (h : Scopes) : Logic Code.any where
  Sees _ _ := True
  Owns _ scope := h.size ≤ scope
  Holds _ _ := True
  Allows _ := True
  Meets n Q x := Maintains (Machine.Named h) n Q x
  sees_mono _ _ := trivial
  owns_mono _ hs := hs
  holds_mono _ _ := trivial
  sees _ := trivial
  holds_null := trivial
  holds_literal _ := trivial
  holds_function _ _ := trivial
  of_closure _ := Code.any_closure _
  allows_stray _ := trivial
  allows_unlinked _ := trivial
  allows_notAFunction _ := trivial
  allows_mainMissing := trivial
  pure hq := .pure hq
  bind hx hk := .bind hx hk
  exhausted := .exhausted
  fail _ := .fail _
  newScope _ := Machine.Named.newScope _
  lookup _ _ := Machine.Named.scopeless (Eval.Unscoped.lookup _ _).scopeless
  declare hs _ _ := Machine.Named.declare hs _ _
  assign _ _ _ := Machine.Named.assign _ _ _
  apply _ _ _ := Machine.Named.scopeless (Eval.Unscoped.ofExcept _).scopeless
  step _ _ _ _ := Machine.Named.scopeless (Eval.Unscoped.step _ _ _).scopeless
  callBuiltin _ := Machine.Named.scopeless (Eval.Unscoped.callBuiltin _).scopeless
  invoke _ _ _ hbody := .invoke (fun _ hm => ⟨hm.exist, hm.names⟩) (fun _ hm => ⟨hm.exist, hm.names⟩)
    (fun _ _ hm => ⟨hm.exist, hm.names⟩) (hbody _ (Nat.le_refl _)) fun _ _ _ => trivial
  main := fun _ _ hm => ⟨Nat.le_refl _, hm, fun _ _ _ _ => trivial⟩

/-! ## Expressions, blocks, loops and calls -/

/-- What meets the conditions of the logic leaves all names as they are, however it ends. -/
theorem Scopes.SameNames.of_meets {m : Machine} {Q : Nat → α → Prop} {x : Eval α}
    (hx : (naming m.scopes).Meets m.scopes.size Q x) : m.scopes.SameNames (x m).2.scopes :=
  (hx m (Nat.le_refl _) ⟨Nat.le_refl _, fun _ _ => rfl⟩).invariant.names

/-- The name that a statement declares in its own scope. -/
def Node.declaredName? : Node → Option Json
  | .declare x _ | .function x _ _ => some x
  | _ => none

namespace Evaluator

/-- A statement that declares nothing in its own scope leaves all names as they are. -/
theorem execute_meets (h : Scopes) {n : Nat} (fuel : Nat) {node : Node} (scope : ScopeId)
    (hnode : node.declaredName? = none) :
    (naming h).Meets n (fun _ _ => True) (execute (fuel + 1) node scope) := by
  have hparts := (naming h).evaluates fuel
  unfold execute
  refine (naming h).bind ((naming h).step _ trivial (by simp)) fun n' _ _ _ => ?_
  cases node with
  | expression value =>
    exact (naming h).bind (hparts.evaluate trivial trivial) fun _ _ _ _ =>
      (naming h).pure fun _ _ => trivial
  | declare x value => cases hnode
  | block body => exact hparts.executeBlock trivial fun _ _ => trivial
  | branch test consequent alternate =>
    refine (naming h).bind (hparts.evaluate trivial trivial) fun _ chosen _ _ => ?_
    split
    · exact hparts.executeBlock trivial fun _ _ => trivial
    · cases alternate with
      | none => exact (naming h).pure fun _ _ => trivial
      | some alternate => exact hparts.executeBlock trivial fun _ _ => trivial
  | loop test body => exact hparts.executeLoop trivial trivial (fun _ _ => trivial) trivial
  | function x params body => cases hnode
  | ret argument =>
    cases argument with
    | none => exact (naming h).pure fun _ _ => trivial
    | some argument =>
      exact (naming h).bind (hparts.evaluate trivial trivial) fun _ _ _ _ =>
        (naming h).pure fun _ _ => trivial
  | _ => exact (naming h).fail trivial

/-! ## Declarations -/

/-- The names of the scopes of a forest after a statement in the scope `id`: there may be one name
more in that scope, if the statement completes. -/
structure NamesAfter (h : Scopes) (id : ScopeId) (name? : Option Json) (o : Outcome Completion)
    (h' : Scopes) : Prop where
  elsewhere : ∀ other < h.size, other ≠ id → (h'.get other).names = (h.get other).names
  completed : ∀ c, o = .value c → (h'.get id).names = (h.get id).names ++ name?.toList
  failed : (∀ c, o ≠ .value c) → (h'.get id).names = (h.get id).names

theorem NamesAfter.of_sameNames {h h' : Scopes} {id : ScopeId} (hid : id < h.size)
    (hsame : h.SameNames h') (o : Outcome Completion) : NamesAfter h id none o h' where
  elsewhere other hother _ := hsame other hother
  completed _ _ := (hsame id hid).trans (List.append_nil _).symm
  failed _ := hsame id hid

/-- The computation ends in the declaration of a name. -/
def EndsInDeclaration (h : Scopes) (id : ScopeId) (x : Json) (y : Eval Completion) : Prop :=
  ∀ m, Machine.Named h m → NamesAfter h id (some x) (y m).1 (y m).2.scopes

namespace EndsInDeclaration

variable {h : Scopes} {id : ScopeId} {x : Json}

theorem declare (hid : id < h.size) (v : Value) :
    EndsInDeclaration h id x (do
      Eval.declare id x v
      return .normal v) := by
  intro m hm
  rw [Eval.bind_run]
  rw [Eval.declare_run]
  cases m.scopes.freeKey id x with
  | error f =>
    refine ⟨fun other hother _ => hm.names other hother, ?_, fun _ => hm.names id hid⟩
    rintro _ ⟨⟩
  | ok key =>
    refine ⟨fun other hother hne => ?_, fun _ _ => ?_, fun hfail => absurd rfl (hfail _)⟩
    · rw [← hm.names other hother]
      show ((m.scopes.modify id _).get other).names = _
      rw [Scopes.get_modify, if_neg fun h => hne h.1]
    · rw [← hm.names id hid]
      show ((m.scopes.modify id _).get id).names = _
      rw [Scopes.get_modify, if_pos ⟨rfl, Nat.lt_of_lt_of_le hid hm.exist⟩, Scope.names_add]
      rfl

theorem bind (hid : id < h.size) {P : Nat → α → Prop} {y : Eval α} {k : α → Eval Completion}
    (hy : ∀ n, (naming h).Meets n P y) (hk : ∀ a, EndsInDeclaration h id x (k a)) :
    EndsInDeclaration h id x (y >>= k) := by
  intro m hm
  have hfirst := (hy m.scopes.size m (Nat.le_refl _) hm).invariant
  rw [Eval.bind_run]
  rcases hrun : y m with ⟨o, m₁⟩
  rw [hrun] at hfirst
  cases o with
  | value a => exact hk a m₁ hfirst
  | _ =>
    refine ⟨fun other hother _ => hfirst.names other hother, ?_, fun _ => hfirst.names id hid⟩
    rintro _ ⟨⟩

end EndsInDeclaration

theorem execute_names {m : Machine} {id : ScopeId} (hid : id < m.scopes.size) (fuel : Nat)
    (node : Node) :
    NamesAfter m.scopes id node.declaredName? (execute fuel node id m).1
      (execute fuel node id m).2.scopes := by
  have hm : Machine.Named m.scopes m := ⟨Nat.le_refl _, fun _ _ => rfl⟩
  cases fuel with
  | zero =>
    unfold execute
    refine ⟨fun _ _ _ => rfl, ?_, fun _ => rfl⟩
    rintro _ ⟨⟩
  | succ fuel =>
    cases hname : node.declaredName? with
    | none => exact .of_sameNames hid (.of_meets (execute_meets m.scopes fuel id hname)) _
    | some x =>
      -- what comes before the declaration leaves all names as they are, as in any expression
      refine (?_ : EndsInDeclaration m.scopes id x (execute (fuel + 1) node id)) m hm
      have hstep (n : Nat) : (naming m.scopes).Meets n _ (Eval.step (.str node.kindName) id none) :=
        (naming m.scopes).step _ trivial (by simp)
      unfold execute
      cases node with
      | declare x value =>
        cases hname
        refine .bind hid hstep fun _ => ?_
        exact .bind hid (fun _ => ((naming m.scopes).evaluates fuel).evaluate trivial trivial)
          fun v => .declare hid v
      | function x params body =>
        cases hname
        exact .bind hid hstep fun _ => .declare hid _
      | _ => cases hname

/-- Only a declaration that completes adds a name to a scope, the one it is executed in. Whatever else
is evaluated, called or executed leaves all the names there were. -/
theorem names_by_declaration (fuel : Nat) (m : Machine) :
    (∀ node scope, m.scopes.SameNames (evaluate fuel node scope m).2.scopes) ∧
    (∀ nodes scope, m.scopes.SameNames (evaluateAll fuel nodes scope m).2.scopes) ∧
    (∀ function args, m.scopes.SameNames (callClosure fuel function args m).2.scopes) ∧
    (∀ nodes scope, m.scopes.SameNames (executeBlock fuel nodes scope m).2.scopes) ∧
    (∀ test body scope before,
      m.scopes.SameNames (executeLoop fuel test body scope before m).2.scopes) ∧
    ∀ node id, id < m.scopes.size →
      NamesAfter m.scopes id node.declaredName? (execute fuel node id m).1
        (execute fuel node id m).2.scopes := by
  have h := (naming m.scopes).evaluates fuel
  refine ⟨fun _ _ => ?_, fun _ _ => ?_, fun _ _ => ?_, fun _ _ => ?_, fun _ _ _ _ => ?_, ?_⟩
  · exact .of_meets (h.evaluate trivial trivial)
  · exact .of_meets (h.evaluateAll trivial fun _ _ => trivial)
  · exact .of_meets (h.callClosure trivial fun _ _ => trivial)
  · exact .of_meets (h.executeBlock trivial fun _ _ => trivial)
  · exact .of_meets (h.executeLoop trivial trivial (fun _ _ => trivial) trivial)
  · exact fun node id hid => execute_names hid fuel node

/-- A block that declares a name, in the global scope of a new machine. -/
theorem names_by_declaration_block :
    let m := Machine.fresh false none
    let node := Node.block [.declare (.str "x") (.literal .number (.int 1))]
    0 < m.scopes.size ∧
      NamesAfter m.scopes 0 none (execute 5 node 0 m).1 (execute 5 node 0 m).2.scopes ∧
      ((execute 5 node 0 m).2.scopes.get 0).names = [.str "print"] ∧
      ((execute 5 node 0 m).2.scopes.get 1).names = [.str "x"] := by
  intro m node
  have hid : 0 < m.scopes.size := by decide
  obtain ⟨-, -, -, -, -, hexecute⟩ := names_by_declaration 5 m
  exact ⟨hid, hexecute node 0 hid, by decide +kernel, by decide +kernel⟩

end Evaluator

end ScriptLang
