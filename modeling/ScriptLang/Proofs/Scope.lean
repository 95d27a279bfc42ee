import ScriptLang.Scope

/-!
# What is in the scopes

What each scope binds after one has been added or changed, what a name stands for in it, and where the
value of a name comes from.
-/
namespace ScriptLang

namespace Scope

theorem owns_eq (s : Scope) (key : Json.Key) : s.owns key = (s.value? key).isSome := by
  rw [owns, value?, Option.isSome_map, List.isSome_find?]

theorem value?_add (s : Scope) (name : Json) (value : Value) (key : Json.Key) :
    (s.add name value).value? key =
      (s.value? key).or (if name.key? = some key then some value else none) := by
  unfold value? add isNamed
  rw [List.find?_append, Option.map_or, List.find?_singleton]
  by_cases hk : name.key? = some key <;> simp [hk]

theorem value?_set (s : Scope) (key : Json.Key) (value : Value) (k : Json.Key) :
    (s.set key value).value? k =
      if k = key then (s.value? k).map fun _ => value else s.value? k := by
  have hname : (isNamed k ∘ fun b => if isNamed key b then (b.1, value) else b) = isNamed k := by
    funext b
    rw [Function.comp_apply]
    split <;> rfl
  unfold value? set
  rw [List.find?_map, hname, Option.map_map]
  cases hb : s.bindings.find? (isNamed k) with
  | none => simp
  | some b =>
    have hk : b.1.key? = some k := by simpa [isNamed] using List.find?_some hb
    simp only [Option.map_some, Function.comp_apply, isNamed, hk]
    by_cases hkey : k = key <;> simp [hkey]

@[simp]
theorem names_add (s : Scope) (name : Json) (value : Value) :
    (s.add name value).names = s.names ++ [name] := by
  simp [names, add]

/-- Assigning to a name leaves the names as they are. -/
@[simp]
theorem names_set (s : Scope) (key : Json.Key) (value : Value) :
    (s.set key value).names = s.names := by
  unfold names set
  rw [List.map_map]
  refine List.map_congr_left fun b _ => ?_
  rw [Function.comp_apply]
  split <;> rfl

/-- A string is bound iff it is among the names: nothing else has the key of a string. -/
theorem owns_text (s : Scope) (t : String) : s.owns (.text t) = true ↔ .str t ∈ s.names := by
  have hkey (j : Json) : j.key? = some (.text t) ↔ j = .str t := by
    cases j <;> simp [Json.key?]
  simp [owns, names, isNamed, hkey]

end Scope

namespace Scopes

variable (h : Scopes)

@[simp]
theorem size_push (parent : Option ScopeId) : (h.push parent).size = h.size + 1 :=
  Array.size_push _

@[simp]
theorem size_modify (id : ScopeId) (f : Scope → Scope) : (h.modify id f).size = h.size :=
  Array.size_modify

theorem get_eq (id : ScopeId) : h.get id = h.toArray[id]?.getD ⟨none, []⟩ :=
  Array.getD_eq_getD_getElem?

theorem get_of_size_le {id : ScopeId} (hid : h.size ≤ id) : h.get id = ⟨none, []⟩ := by
  rw [get_eq, Array.getElem?_eq_none hid]
  rfl

theorem get_push (parent : Option ScopeId) (id : ScopeId) :
    (h.push parent).get id = if id = h.size then ⟨parent, []⟩ else h.get id := by
  rw [get_eq, get_eq]
  unfold push size
  rw [Array.getElem?_push]
  split <;> rfl

theorem get_modify (target : ScopeId) (f : Scope → Scope) (id : ScopeId) :
    (h.modify target f).get id =
      if id = target ∧ id < h.size then f (h.get id) else h.get id := by
  rw [get_eq, get_eq]
  unfold modify size
  rw [Array.getElem?_modify]
  by_cases hid : id < h.toArray.size
  · by_cases ht : id = target
    · subst ht
      simp [hid]
    · simp [ht, Ne.symm ht]
  · simp [hid]

/-- Assigning leaves the names of all scopes as they are. -/
theorem names_get_set (owner : ScopeId) (key : Json.Key) (value : Value) (id : ScopeId) :
    ((h.modify owner (·.set key value)).get id).names = (h.get id).names := by
  rw [get_modify]
  split
  · exact Scope.names_set _ _ _
  · rfl

/-- A name stands for the value that it has in the nearest scope that binds it. -/
theorem lookup_eq_ok {id : ScopeId} {name : Json} {v : Value} :
    h.lookup id name = .ok v ↔ ∃ key owner, keyOf name = .ok key ∧
      h.owner? id key = some owner ∧ (h.get owner).value? key = some v := by
  unfold lookup
  cases keyOf name with
  | error f => simp [bind, Except.bind]
  | ok key =>
    cases ho : h.owner? id key with
    | none => simp [bind, Except.bind, ho, throw, throwThe, MonadExceptOf.throw]
    | some owner =>
      cases hv : (h.get owner).value? key with
      | none => simp [bind, Except.bind, ho, hv, throw, throwThe, MonadExceptOf.throw]
      | some w => simp [bind, Except.bind, ho, hv, pure, Except.pure]

/-- A name is assigned to in the nearest scope that binds it. -/
theorem boundKey_eq_ok {id owner : ScopeId} {name : Json} {key : Json.Key} :
    h.boundKey id name = .ok (owner, key) ↔
      keyOf name = .ok key ∧ h.owner? id key = some owner := by
  unfold boundKey
  cases keyOf name with
  | error f => simp [bind, Except.bind]
  | ok k =>
    cases ho : h.owner? id k with
    | none =>
      have hne : k = key → h.owner? id key ≠ some owner := by
        rintro rfl
        simp [ho]
      simpa [bind, Except.bind, ho, throw, throwThe, MonadExceptOf.throw] using hne
    | some o =>
      have heq : o = owner ∧ k = key ↔ k = key ∧ h.owner? id key = some owner := by
        constructor
        · rintro ⟨rfl, rfl⟩
          exact ⟨rfl, ho⟩
        · rintro ⟨rfl, howner⟩
          exact ⟨Option.some.inj (ho.symm.trans howner), rfl⟩
      simpa [bind, Except.bind, ho, pure, Except.pure] using heq

end Scopes

end ScriptLang
