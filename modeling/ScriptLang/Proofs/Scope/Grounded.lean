import ScriptLang.Proofs.Scope.Forest

/-!
# Forests with one root

The scopes of a session are one tree: every scope but the global one came after the one around it, so
every chain comes to the global scope and ends there. Functions are values in them, and the scope that
a function was declared in exists. The search for a name goes up a chain and ends, and a name of the
global scope is found from every scope.

Scopes are made inside scopes that exist, and no other change moves one, so all of this stays so.

Results:
* `Scopes.Grounded.push`, `Scopes.Grounded.add`, `Scopes.Grounded.set`: what keeps a forest so;
* `Scopes.Grounded.onChain`: all chains end in the global scope;
* `Scopes.Descending.searchEnds_iff`: the search for a name ends, with the owner of the name.
-/
namespace ScriptLang

open Machine (globalScope printName)

/-- The value is data, or a function that was declared in one of the first `n` scopes. -/
inductive Value.IsGrounded (n : Nat) : Value → Prop
  | data (j : Json) : IsGrounded n (.data j)
  | closure {c : Closure} : c.scope < n → IsGrounded n (.closure c)
  | builtin {name : String} {home : ScopeId} : home < n → IsGrounded n (.builtin name home)

theorem Value.IsGrounded.mono {n n' : Nat} {v : Value} (h : v.IsGrounded n) (hle : n ≤ n') :
    v.IsGrounded n' := by
  cases h with
  | data j => exact .data j
  | closure hc => exact .closure (Nat.lt_of_lt_of_le hc hle)
  | builtin hhome => exact .builtin (Nat.lt_of_lt_of_le hhome hle)

namespace Scopes

variable {h : Scopes} {id parent target : ScopeId} {key : Json.Key} {name : Json} {value : Value}

/-- The scopes are one tree around which there is the global scope, where `print` is bound, and they
bind functions of their own only. -/
structure Grounded (h : Scopes) : Prop where
  root : (h.get globalScope).parent = none
  inside : ∀ id < h.size, id ≠ globalScope → ∃ parent < id, h.IsParent id parent
  bound : ∀ id, ∀ entry ∈ (h.get id).bindings, entry.2.IsGrounded h.size
  builtin : .str printName ∈ (h.get globalScope).names

namespace Grounded

/-- A machine before its first run has nothing but the global scope. -/
theorem fresh (sink : Sink) (verbose : Bool) : (Machine.freshInto sink verbose).scopes.Grounded where
  root := rfl
  inside id hid hne := absurd (Nat.lt_one_iff.mp hid) hne
  bound id entry hentry := by
    cases id with
    | zero =>
      obtain rfl := List.mem_singleton.mp hentry
      exact .builtin Nat.zero_lt_one
    | succ id =>
      rw [get_of_size_le _ (Nat.succ_le_succ (Nat.zero_le id))] at hentry
      cases hentry
  builtin := List.mem_singleton_self _

theorem exists_global (hg : h.Grounded) : globalScope < h.size := by
  refine Nat.lt_of_not_le fun hnone => ?_
  have hprint := hg.builtin
  rw [get_of_size_le h hnone] at hprint
  cases hprint

theorem descending (hg : h.Grounded) : h.Descending := by
  intro id parent hp
  have hid : id < h.size := by
    refine Nat.lt_of_not_le fun hnone => ?_
    rw [IsParent, get_of_size_le h hnone] at hp
    cases hp
  have hne : id ≠ globalScope := by
    rintro rfl
    cases hg.root.symm.trans hp
  obtain ⟨parent', hlt, hp'⟩ := hg.inside id hid hne
  cases hp.symm.trans hp'
  exact hlt

/-- Every chain comes to the global scope. -/
theorem onChain (hg : h.Grounded) (hid : id < h.size) : h.OnChain id globalScope := by
  induction id using hg.descending.along with
  | root id hroot =>
    by_cases hne : id = globalScope
    · exact hne ▸ .refl
    · obtain ⟨parent, -, hp⟩ := hg.inside id hid hne
      cases hroot.symm.trans hp
  | child id parent hp ih => exact .head hp (ih (Nat.lt_trans (hg.descending id parent hp) hid))

/-! ## What keeps a forest grounded -/

theorem push (hg : h.Grounded) (hparent : parent < h.size) : (h.push (some parent)).Grounded := by
  have hsize : h.size ≤ (h.push (some parent)).size := by simp
  have hold (id : ScopeId) (hid : id ≠ h.size) : (h.push (some parent)).get id = h.get id := by
    rw [get_push, if_neg hid]
  have hglobal := hold globalScope (Nat.ne_of_lt hg.exists_global)
  refine ⟨hglobal ▸ hg.root, fun id hid hne => ?_, fun id entry hentry => ?_, hglobal ▸ hg.builtin⟩
  · by_cases hnew : id = h.size
    · refine ⟨parent, hnew ▸ hparent, ?_⟩
      rw [IsParent, get_push, if_pos hnew]
    · rw [size_push] at hid
      obtain ⟨parent', hlt, hp⟩ := hg.inside id (by omega) hne
      exact ⟨parent', hlt, (congrArg Scope.parent (hold id hnew)).trans hp⟩
  · rw [get_push] at hentry
    split at hentry
    · cases hentry
    · exact (hg.bound id entry hentry).mono hsize

/-- A change of one scope that leaves it in its place, drops no name, and binds nothing but data and
functions of existing scopes. -/
theorem modify (hg : h.Grounded) {f : Scope → Scope} (hplace : ∀ s, (f s).parent = s.parent)
    (hnames : ∀ s, s.names ⊆ (f s).names)
    (hbound : ∀ s, (∀ entry ∈ s.bindings, entry.2.IsGrounded h.size) →
      ∀ entry ∈ (f s).bindings, entry.2.IsGrounded h.size) : (h.modify target f).Grounded where
  root := by
    rw [get_modify]
    split
    · exact (hplace _).trans hg.root
    · exact hg.root
  inside id hid hne := by
    rw [isParent_modify hplace]
    exact hg.inside id (h.size_modify target f ▸ hid) hne
  bound id := by
    rw [get_modify, size_modify]
    split
    · exact hbound _ (hg.bound id)
    · exact hg.bound id
  builtin := by
    rw [get_modify]
    split
    · exact hnames _ hg.builtin
    · exact hg.builtin

theorem add (hg : h.Grounded) (hv : value.IsGrounded h.size) :
    (h.modify target (·.add name value)).Grounded := by
  refine hg.modify (fun _ => rfl) (fun s => ?_) fun s hs entry hentry => ?_
  · rw [Scope.names_add]
    exact List.subset_append_left _ _
  · rcases List.mem_append.mp hentry with hentry | hentry
    · exact hs entry hentry
    · obtain rfl := List.mem_singleton.mp hentry
      exact hv

theorem set (hg : h.Grounded) (hv : value.IsGrounded h.size) :
    (h.modify target (·.set key value)).Grounded := by
  refine hg.modify (fun _ => rfl) (fun s => ?_) fun s hs entry hentry => ?_
  · rw [Scope.names_set]
    exact List.Subset.refl _
  · obtain ⟨old, hold, rfl⟩ := List.mem_map.mp hentry
    split
    · exact hv
    · exact hs old hold

/-! ## What names stand for -/

theorem lookup (hg : h.Grounded) {v : Value} (hlookup : h.lookup id name = .ok v) :
    v.IsGrounded h.size := by
  obtain ⟨key, owner, -, -, hvalue⟩ := h.lookup_eq_ok.mp hlookup
  obtain ⟨entry, hfind, rfl⟩ := Option.map_eq_some_iff.mp hvalue
  exact hg.bound owner entry (List.mem_of_find?_eq_some hfind)

/-- From every scope there is one around it that binds `print`. -/
theorem builtin_bound (hg : h.Grounded) (hid : id < h.size) :
    ¬ h.NowhereBound id (.text printName) := by
  intro hnowhere
  have howns := (Scope.owns_text _ printName).mpr hg.builtin
  rw [hnowhere globalScope (hg.onChain hid)] at howns
  cases howns

theorem lookup_builtin (hg : h.Grounded) (hid : id < h.size) :
    ∃ v, h.lookup id (.str printName) = .ok v := by
  have hkey : (Json.str printName).key? = some (.text printName) := rfl
  obtain ⟨-, v, -, -, hlookup⟩ | ⟨hnowhere, -⟩ := lookup_cases hg.descending id hkey
  · exact ⟨v, hlookup⟩
  · exact absurd hnowhere (hg.builtin_bound hid)

theorem boundKey_builtin (hg : h.Grounded) (hid : id < h.size) :
    ∃ owner, h.boundKey id (.str printName) = .ok (owner, .text printName) := by
  have hkey : (Json.str printName).key? = some (.text printName) := rfl
  obtain ⟨owner, -, hbound⟩ | ⟨hnowhere, -⟩ := boundKey_cases hg.descending id hkey
  · exact ⟨owner, hbound⟩
  · exact absurd hnowhere (hg.builtin_bound hid)

end Grounded

/-! ## Searching a chain -/

/-- The search for a name from a scope ends with a result. It ends with the scope itself if that one
owns the name, and with nothing if there is no scope around it; otherwise it goes on from the scope
around it. -/
inductive SearchEnds (h : Scopes) (key : Json.Key) : ScopeId → Option ScopeId → Prop
  | found {id : ScopeId} : (h.get id).owns key = true → SearchEnds h key id (some id)
  | out {id : ScopeId} : (h.get id).owns key = false → (h.get id).parent = none →
      SearchEnds h key id none
  | up {id parent : ScopeId} {result : Option ScopeId} : (h.get id).owns key = false →
      h.IsParent id parent → SearchEnds h key parent result → SearchEnds h key id result

variable {result result' : Option ScopeId}

theorem SearchEnds.unique (hs : h.SearchEnds key id result) (hs' : h.SearchEnds key id result') :
    result' = result := by
  induction hs with
  | found howns =>
    cases hs' with
    | found _ => rfl
    | out hno _ => cases howns.symm.trans hno
    | up hno _ _ => cases howns.symm.trans hno
  | out hno hroot =>
    cases hs' with
    | found howns => cases howns.symm.trans hno
    | out _ _ => rfl
    | up _ hp _ => cases hroot.symm.trans hp
  | up hno hp _ ih =>
    cases hs' with
    | found howns => cases howns.symm.trans hno
    | out _ hroot => cases hroot.symm.trans hp
    | up _ hp' hrest =>
      cases hp.symm.trans hp'
      exact ih hrest

/-- The search ends with what `owner?` gives. -/
theorem Descending.searchEnds (hd : h.Descending) (key : Json.Key) (id : ScopeId) :
    h.SearchEnds key id (h.owner? id key) := by
  have owned {id : ScopeId} (howns : (h.get id).owns key = true) :
      h.SearchEnds key id (h.owner? id key) := by
    rw [hd.owner?_eq_some.mpr ((nearest_of_owns howns).mpr rfl)]
    exact .found howns
  induction id using hd.along with
  | root id hroot =>
    cases hid : (h.get id).owns key with
    | true => exact owned hid
    | false =>
      have hnone : h.owner? id key = none :=
        Option.eq_none_iff_forall_ne_some.mpr fun owner howner =>
          nearest_of_root hid hroot (hd.owner?_eq_some.mp howner)
      exact hnone ▸ .out hid hroot
  | child id parent hp ih =>
    cases hid : (h.get id).owns key with
    | true => exact owned hid
    | false =>
      have hsame : h.owner? id key = h.owner? parent key := by
        refine Option.ext fun owner => ?_
        rw [hd.owner?_eq_some, hd.owner?_eq_some]
        exact nearest_of_parent hid hp
      exact .up hid hp (hsame ▸ ih)

theorem Descending.searchEnds_iff (hd : h.Descending) :
    h.SearchEnds key id result ↔ result = h.owner? id key := by
  refine ⟨fun hs => (hd.searchEnds key id).unique hs, ?_⟩
  rintro rfl
  exact hd.searchEnds key id

end Scopes

end ScriptLang
