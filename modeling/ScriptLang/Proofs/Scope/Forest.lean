import ScriptLang.Machine
import ScriptLang.Proofs.Scope.Chains

/-!
# Operations on a forest of scopes

What declaring and assigning change for all the other scopes, which may have any scopes in common. An
assignment is seen from exactly the scopes whose nearest owner of the name is the one assigned to; a
declaration from those whose chain comes to the new owner before any other. Which scope is around which
is never changed, so an assignment leaves all nearest owners as they are, and a declaration puts one
more on the chains.

Results:
* `Scopes.Built.assign_effect`, `Scopes.Built.declare_effect`: all that an operation changes;
* `Eval.scope_effects`: the same with the failures, of which there are no others and which change
  nothing.
-/
namespace ScriptLang

namespace Scopes

variable {h : Scopes} {key : Json.Key} {id id' parent owner target : ScopeId} {name : Json}
  {value : Value}

/-- The forests that come about by adding scopes, declaring and assigning. -/
inductive Built : Scopes → Prop
  | empty : Built ⟨#[]⟩
  | root {h : Scopes} : Built h → Built (h.push none)
  | child {h : Scopes} {parent : ScopeId} : Built h → parent < h.size → Built (h.push (some parent))
  | declare {h h' : Scopes} {id : ScopeId} {name : Json} {value : Value} : Built h → id < h.size →
      h.declare id name value = .ok h' → Built h'
  | assign {h h' : Scopes} {id : ScopeId} {name : Json} {value : Value} : Built h → id < h.size →
      h.assign id name value = .ok h' → Built h'

/-! ## Which scope is around which -/

/-- No change of bindings moves a scope. -/
theorem isParent_modify {f : Scope → Scope} (hf : ∀ s, (f s).parent = s.parent) :
    (h.modify target f).IsParent = h.IsParent := by
  funext id parent
  unfold IsParent
  rw [get_modify]
  split
  · rw [hf]
  · rfl

@[simp]
theorem isParent_add : (h.modify target (·.add name value)).IsParent = h.IsParent :=
  isParent_modify fun _ => rfl

@[simp]
theorem isParent_set : (h.modify target (·.set key value)).IsParent = h.IsParent :=
  isParent_modify fun _ => rfl

theorem Descending.of_isParent {h' : Scopes} (hd : h.Descending)
    (hp : h'.IsParent = h.IsParent) : h'.Descending := by
  intro id parent hparent
  exact hd id parent (hp ▸ hparent)

theorem declare_eq_ok {h' : Scopes} (hok : h.declare id name value = .ok h') :
    h' = h.modify id (·.add name value) := by
  unfold declare at hok
  cases hfree : h.freeKey id name with
  | error f =>
    rw [hfree] at hok
    cases hok
  | ok key =>
    rw [hfree] at hok
    cases hok
    rfl

theorem assign_eq_ok {h' : Scopes} (hok : h.assign id name value = .ok h') :
    ∃ owner key, h.boundKey id name = .ok (owner, key) ∧ h' = h.modify owner (·.set key value) := by
  unfold assign at hok
  cases hbound : h.boundKey id name with
  | error f =>
    rw [hbound] at hok
    cases hok
  | ok found =>
    rw [hbound] at hok
    cases hok
    exact ⟨_, _, rfl, rfl⟩

theorem Descending.push {parent? : Option ScopeId} (hd : h.Descending)
    (hparent : ∀ parent, parent? = some parent → parent < h.size) :
    (h.push parent?).Descending := by
  intro id parent hp
  unfold IsParent at hp
  rw [get_push] at hp
  split at hp
  · next heq => exact heq ▸ hparent parent hp
  · exact hd id parent hp

theorem Built.descending (hb : h.Built) : h.Descending := by
  induction hb with
  | empty =>
    intro id parent hp
    cases hp
  | root _ ih => exact ih.push fun _ hparent => by cases hparent
  | child _ hlt ih => exact ih.push fun _ hparent => Option.some.inj hparent ▸ hlt
  | declare _ _ hok ih =>
    obtain rfl := declare_eq_ok hok
    exact ih.of_isParent isParent_add
  | assign _ _ hok ih =>
    obtain ⟨owner, key, -, rfl⟩ := assign_eq_ok hok
    exact ih.of_isParent isParent_set

/-! ## Lookups -/

theorem keyOf_eq (hkey : name.key? = some key) : keyOf name = .ok key := by
  rw [keyOf, hkey]

/-- What a name stands for depends on its nearest owner and on the value there. -/
theorem lookup_congr {h' : Scopes} (hd : h.Descending) (hp : h'.IsParent = h.IsParent)
    (ho : ∀ key, name.key? = some key → ∀ s, h.Reaches key id s →
      (h'.get s).value? key = (h.get s).value? key) : h'.lookup id name = h.lookup id name := by
  unfold lookup keyOf
  cases hkey : name.key? with
  | none => rfl
  | some key =>
    have hvalue := ho key hkey
    have howner : h'.owner? id key = h.owner? id key := by
      refine Option.ext fun owner => ?_
      rw [hd.owner?_eq_some, (hd.of_isParent hp).owner?_eq_some]
      refine nearest_congr hd hp fun s hs => ?_
      rw [Scope.owns_eq, Scope.owns_eq, hvalue s hs]
    have hbind : ((h'.owner? id key).bind fun owner => (h'.get owner).value? key) =
        (h.owner? id key).bind fun owner => (h.get owner).value? key := by
      rw [howner]
      refine Option.bind_congr fun owner hfound => ?_
      exact hvalue owner (hd.owner?_eq_some.mp hfound).1
    simp only [bind, Except.bind, hbind]

theorem lookup_of_nearest (hd : h.Descending) (hkey : name.key? = some key)
    (hn : h.Nearest key id owner) (hv : (h.get owner).value? key = some value) :
    h.lookup id name = .ok value :=
  (h.lookup_eq_ok).mpr ⟨key, owner, keyOf_eq hkey, hd.owner?_eq_some.mpr hn, hv⟩

/-! ## Assigning -/

theorem value?_get_set (s : ScopeId) (k : Json.Key) :
    ((h.modify owner (·.set key value)).get s).value? k =
      if s = owner ∧ k = key then ((h.get s).value? k).map fun _ => value
      else (h.get s).value? k := by
  rw [get_modify]
  by_cases hs : s < h.size
  · by_cases ho : s = owner
    · simp only [ho, ho ▸ hs, and_self, true_and, if_true, Scope.value?_set]
    · simp [ho]
  · rw [if_neg fun hlt => hs hlt.2, get_of_size_le h (Nat.le_of_not_lt hs)]
    exact (ite_self _).symm

/-- What assigning to a name does to a forest. -/
structure Assigned (h h' : Scopes) (id : ScopeId) (key : Json.Key) (value : Value) : Prop where
  bound : ∃ owner, h.Nearest key id owner
  shared (id' : ScopeId) (name : Json) : name.key? = some key →
    (∃ owner, h.Nearest key id owner ∧ h.Nearest key id' owner) → h'.lookup id' name = .ok value
  elsewhere (id' : ScopeId) (name : Json) : name.key? = some key →
    (¬ ∃ owner, h.Nearest key id owner ∧ h.Nearest key id' owner) →
      h'.lookup id' name = h.lookup id' name
  others (id' : ScopeId) (name : Json) : name.key? ≠ some key →
    h'.lookup id' name = h.lookup id' name
  names (id' : ScopeId) : (h'.get id').names = (h.get id').names

theorem Nearest.unique (hd : h.Descending) (hn : h.Nearest key id owner)
    (hn' : h.Nearest key id target) : target = owner :=
  Option.some.inj ((hd.owner?_eq_some.mpr hn').symm.trans (hd.owner?_eq_some.mpr hn))

theorem assigned_set (hd : h.Descending) (hn : h.Nearest key id owner) (value : Value) :
    h.Assigned (h.modify owner (·.set key value)) id key value where
  bound := ⟨owner, hn⟩
  shared id' name hkey hshared := by
    obtain ⟨owner', hn₁, hn₂⟩ := hshared
    obtain rfl := hn.unique hd hn₁
    obtain ⟨old, hold⟩ := Option.isSome_iff_exists.mp (Scope.owns_eq _ _ ▸ hn.2)
    have hn' : (h.modify owner' (·.set key value)).Nearest key id' owner' := by
      refine (nearest_congr hd isParent_set fun s _ => ?_).mpr hn₂
      rw [Scope.owns_eq, Scope.owns_eq, value?_get_set]
      split
      · rw [Option.isSome_map]
      · rfl
    refine lookup_of_nearest (hd.of_isParent isParent_set) hkey hn' ?_
    rw [value?_get_set, if_pos ⟨rfl, rfl⟩, hold, Option.map_some]
  elsewhere id' name hkey hnot := by
    refine lookup_congr hd isParent_set fun k hk s hs => ?_
    obtain rfl := Option.some.inj (hkey.symm.trans hk)
    rw [value?_get_set, if_neg]
    -- the owner of the assignment would be the nearest one here as well
    rintro ⟨rfl, -⟩
    exact hnot ⟨s, hn, hs, hn.2⟩
  others id' name hkey := by
    refine lookup_congr hd isParent_set fun k hk s _ => ?_
    rw [value?_get_set, if_neg]
    rintro ⟨-, rfl⟩
    exact hkey hk
  names := h.names_get_set owner key value

/-! ## Declaring -/

theorem value?_get_add (s : ScopeId) (k : Json.Key) :
    ((h.modify target (·.add name value)).get s).value? k =
      if s = target ∧ s < h.size then
        ((h.get s).value? k).or (if name.key? = some k then some value else none)
      else (h.get s).value? k := by
  rw [get_modify]
  split
  · rw [Scope.value?_add]
  · rfl

/-- What declaring a name does to a forest. -/
structure Declared (h h' : Scopes) (id : ScopeId) (name : Json) (key : Json.Key) (value : Value) :
    Prop where
  free : (h.get id).owns key = false
  reached (id' : ScopeId) (name' : Json) : name'.key? = some key → h.Reaches key id' id →
    h'.lookup id' name' = .ok value
  elsewhere (id' : ScopeId) (name' : Json) : name'.key? = some key → ¬ h.Reaches key id' id →
    h'.lookup id' name' = h.lookup id' name'
  others (id' : ScopeId) (name' : Json) : name'.key? ≠ some key →
    h'.lookup id' name' = h.lookup id' name'
  appended : (h'.get id).names = (h.get id).names ++ [name]
  names (id' : ScopeId) : id' ≠ id → (h'.get id').names = (h.get id').names

/-- A new owner that the chain comes to is the nearest one. -/
theorem Reaches.nearest_add (hid : target < h.size) (hkey : name.key? = some key)
    (hr : h.Reaches key id target) :
    (h.modify target (·.add name value)).Nearest key id target := by
  have howns : ((h.modify target (·.add name value)).get target).owns key = true := by
    rw [Scope.owns_eq, value?_get_add, if_pos ⟨rfl, hid⟩, if_pos hkey, Option.isSome_or]
    exact Bool.or_true _
  refine ⟨?_, howns⟩
  induction hr with
  | here id => exact .here id
  | @up id parent target hno hp _ ih =>
    -- a chain does not come back to its start, but that need not be known here
    by_cases heq : id = target
    · exact heq ▸ .here _
    · refine .up ?_ (by rw [isParent_add]; exact hp) (ih hid howns)
      rw [Scope.owns_eq, value?_get_add, if_neg fun h => heq h.1, ← Scope.owns_eq]
      exact hno

theorem declared_add (hd : h.Descending) (hid : id < h.size) (hkey : name.key? = some key)
    (hfree : (h.get id).owns key = false) (value : Value) :
    h.Declared (h.modify id (·.add name value)) id name key value where
  free := hfree
  reached id' name' hkey' hr := by
    refine lookup_of_nearest (hd.of_isParent isParent_add) hkey' (hr.nearest_add hid hkey) ?_
    have hnone : (h.get id).value? key = none := by
      rw [Scope.owns_eq] at hfree
      exact Option.not_isSome_iff_eq_none.mp (by rw [hfree]; exact Bool.false_ne_true)
    rw [value?_get_add, if_pos ⟨rfl, hid⟩, if_pos hkey, hnone, Option.none_or]
  elsewhere id' name' hkey' hnot := by
    refine lookup_congr hd isParent_add fun k hk s hs => ?_
    obtain rfl := Option.some.inj (hkey'.symm.trans hk)
    rw [value?_get_add, if_neg]
    rintro ⟨rfl, -⟩
    exact hnot hs
  others id' name' hne := by
    refine lookup_congr hd isParent_add fun k hk s _ => ?_
    have hkey' : name.key? ≠ some k := fun h => hne (hk.trans (h.symm.trans hkey))
    rw [value?_get_add, if_neg hkey', Option.or_none, ite_self]
  appended := by
    rw [get_modify, if_pos ⟨rfl, hid⟩, Scope.names_add]
  names id' hne := by
    rw [get_modify, if_neg fun h => hne h.1]

/-! ## Failing -/

/-- No scope on the chain owns the name. -/
def NowhereBound (h : Scopes) (id : ScopeId) (key : Json.Key) : Prop :=
  ∀ s, h.OnChain id s → (h.get s).owns key = false

theorem boundKey_cases (hd : h.Descending) (id : ScopeId) (hkey : name.key? = some key) :
    (∃ owner, h.Nearest key id owner ∧ h.boundKey id name = .ok (owner, key)) ∨
      h.NowhereBound id key ∧ h.boundKey id name = .error (.unassignable name) := by
  unfold boundKey
  rw [keyOf_eq hkey]
  simp only [bind, Except.bind]
  cases howner : h.owner? id key with
  | some owner => exact .inl ⟨owner, hd.owner?_eq_some.mp howner, rfl⟩
  | none => exact .inr ⟨hd.owner?_eq_none.mp howner, rfl⟩

theorem freeKey_cases (h : Scopes) (id : ScopeId) (hkey : name.key? = some key) :
    (h.get id).owns key = false ∧ h.freeKey id name = .ok key ∨
      (h.get id).owns key = true ∧ h.freeKey id name = .error (.duplicate name) := by
  unfold freeKey
  rw [keyOf_eq hkey]
  simp only [bind, Except.bind]
  cases (h.get id).owns key with
  | false => exact .inl ⟨rfl, rfl⟩
  | true => exact .inr ⟨rfl, rfl⟩

theorem lookup_cases (hd : h.Descending) (id : ScopeId) (hkey : name.key? = some key) :
    (∃ owner v, h.Nearest key id owner ∧ (h.get owner).value? key = some v ∧
        h.lookup id name = .ok v) ∨
      h.NowhereBound id key ∧ h.lookup id name = .error (.undeclared name) := by
  cases howner : h.owner? id key with
  | some owner =>
    have hn := hd.owner?_eq_some.mp howner
    obtain ⟨v, hv⟩ := Option.isSome_iff_exists.mp (Scope.owns_eq _ _ ▸ hn.2)
    exact .inl ⟨owner, v, hn, hv, lookup_of_nearest hd hkey hn hv⟩
  | none =>
    refine .inr ⟨hd.owner?_eq_none.mp howner, ?_⟩
    unfold lookup
    rw [keyOf_eq hkey]
    simp only [bind, Except.bind, howner]
    rfl

end Scopes

namespace Eval

open Scopes

/-- In a forest that came about by adding scopes, declaring and assigning, an operation has the effect
described for it, or fails for the one reason there is and changes nothing. -/
theorem scope_effects {m : Machine} (hm : m.scopes.Built) {id : ScopeId} (hid : id < m.scopes.size)
    {name : Json} {key : Json.Key} (hkey : name.key? = some key) (value : Value) :
    (match assign id name value m with
      | (.value (), m') => m'.scopes.Built ∧ m.scopes.Assigned m'.scopes id key value
      | (.fault f, m') => m' = m ∧ f = .unassignable name ∧ m.scopes.NowhereBound id key
      | (.outOfFuel, _) => False) ∧
    (match declare id name value m with
      | (.value (), m') => m'.scopes.Built ∧ m.scopes.Declared m'.scopes id name key value
      | (.fault f, m') => m' = m ∧ f = .duplicate name ∧ (m.scopes.get id).owns key = true
      | (.outOfFuel, _) => False) ∧
    (match lookup id name m with
      | (.value v, m') => m' = m ∧
          ∃ owner, m.scopes.Nearest key id owner ∧ (m.scopes.get owner).value? key = some v
      | (.fault f, m') => m' = m ∧ f = .undeclared name ∧ m.scopes.NowhereBound id key
      | (.outOfFuel, _) => False) := by
  have hd := hm.descending
  refine ⟨?_, ?_, ?_⟩
  · rw [assign, rescope]
    obtain ⟨owner, hn, hbound⟩ | ⟨hnowhere, hbound⟩ := boundKey_cases hd id hkey
    · have hok : m.scopes.assign id name value = .ok (m.scopes.modify owner (·.set key value)) := by
        rw [Scopes.assign, hbound]
        rfl
      rw [hok]
      exact ⟨.assign hm hid hok, assigned_set hd hn value⟩
    · have herror : m.scopes.assign id name value = .error (.unassignable name) := by
        rw [Scopes.assign, hbound]
        rfl
      rw [herror]
      exact ⟨rfl, rfl, hnowhere⟩
  · rw [declare, rescope]
    obtain ⟨hfree, hkeyok⟩ | ⟨howns, htaken⟩ := m.scopes.freeKey_cases id hkey
    · have hok : m.scopes.declare id name value = .ok (m.scopes.modify id (·.add name value)) := by
        rw [Scopes.declare, hkeyok]
        rfl
      rw [hok]
      exact ⟨.declare hm hid hok, declared_add hd hid hkey hfree value⟩
    · have herror : m.scopes.declare id name value = .error (.duplicate name) := by
        rw [Scopes.declare, htaken]
        rfl
      rw [herror]
      exact ⟨rfl, rfl, howns⟩
  · unfold lookup
    obtain ⟨owner, v, hn, hv, hlookup⟩ | ⟨hnowhere, hlookup⟩ := lookup_cases hd id hkey
    · rw [hlookup]
      exact ⟨rfl, owner, hn, hv⟩
    · rw [hlookup]
      exact ⟨rfl, rfl, hnowhere⟩

/-- Two scopes around a third that bind one name, and a fourth inside the outermost only. -/
def shadowed : Machine :=
  { Machine.fresh false none with
    scopes := ⟨#[⟨none, [(.str "x", .data (.int 1))]⟩, ⟨some 0, [(.str "x", .data (.int 10))]⟩,
      ⟨some 1, []⟩, ⟨some 0, []⟩]⟩ }

theorem shadowed_built : shadowed.scopes.Built := by
  have houter : Built ⟨#[⟨none, [(.str "x", .data (.int 1))]⟩]⟩ :=
    .declare (.root .empty) (show 0 < 1 by decide)
      (show Scopes.declare _ 0 (.str "x") (.data (.int 1)) = .ok _ from rfl)
  have hinner : Built ⟨#[⟨none, [(.str "x", .data (.int 1))]⟩,
      ⟨some 0, [(.str "x", .data (.int 10))]⟩]⟩ :=
    .declare (.child houter (show 0 < 1 by decide)) (show 1 < 2 by decide)
      (show Scopes.declare _ 1 (.str "x") (.data (.int 10)) = .ok _ from rfl)
  exact .child (.child hinner (show 1 < 2 by decide)) (show 0 < 3 by decide)

/-- An assignment from the third scope is seen in the second and not in the fourth. -/
theorem scope_effects_shadowed :
    shadowed.scopes.Built ∧ 2 < shadowed.scopes.size ∧ Json.key? (.str "x") = some (.text "x") ∧
      ∃ m', assign 2 (.str "x") (.data (.int 11)) shadowed = (.value (), m') ∧
        shadowed.scopes.Assigned m'.scopes 2 (.text "x") (.data (.int 11)) ∧
        m'.scopes.lookup 1 (.str "x") = .ok (.data (.int 11)) ∧
        m'.scopes.lookup 3 (.str "x") = .ok (.data (.int 1)) := by
  have hsize : 2 < shadowed.scopes.size := show 2 < 4 by decide
  have hkey : Json.key? (.str "x") = some (.text "x") := rfl
  obtain ⟨⟨-, hassigned⟩, -, -⟩ := scope_effects shadowed_built hsize hkey (.data (.int 11))
  exact ⟨shadowed_built, hsize, hkey, _, rfl, hassigned, rfl, rfl⟩

end Eval

end ScriptLang
