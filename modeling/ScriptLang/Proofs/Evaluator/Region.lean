import Mathlib.Data.List.Find
import ScriptLang.Machine
import ScriptLang.Proofs.Scope

/-!
# Regions of scopes

A region is some scopes and all that are made from now on. It is closed if no way leads out of it:
the scope around one of its own is in the region, and so is the scope that a function bound in one of
its own closes over. What is looked up from within a closed region is found in it, and does not depend
on the scopes outside.

What a region has depends on how many scopes there are, so what it comes to have is known to be made.

Results:
* `Closed.push`, `Closed.modify`: what keeps a region closed;
* `Closed.lookup`: what is found from within a closed region;
* `Scopes.Agrees.lookup_eq` and the lemmas around it: it does not depend on other scopes.
-/
namespace ScriptLang

/-- If the value is a function, the scope it closes over is in the set. -/
def Value.ClosesIn (S : ScopeId → Prop) : Value → Prop
  | .closure c => S c.scope
  | _ => True

instance (S : ScopeId → Prop) [DecidablePred S] : DecidablePred (Value.ClosesIn S)
  | .closure c => inferInstanceAs (Decidable (S c.scope))
  | .data _ | .builtin .. | .list _ | .record _ => .isTrue trivial

/-- Some scopes, and those that are made from the scope `first` on. -/
structure Region where
  base : ScopeId → Prop
  first : ScopeId

namespace Region

variable {R : Region} {n n' : Nat} {id : ScopeId} {h h₂ : Scopes}

def Has (R : Region) (n : Nat) (id : ScopeId) : Prop := R.base id ∨ R.first ≤ id ∧ id < n

theorem Has.mono (hid : R.Has n id) (hle : n ≤ n') : R.Has n' id :=
  hid.imp_right fun hid => ⟨hid.1, Nat.lt_of_lt_of_le hid.2 hle⟩

theorem Has.of_ne (hid : R.Has (n + 1) id) (hne : id ≠ n) : R.Has n id :=
  hid.imp_right fun hid => ⟨hid.1, Nat.lt_of_le_of_ne (Nat.le_of_lt_succ hid.2) hne⟩

/-- The value leads to no scope outside of the region. -/
def Holds (R : Region) (n : Nat) (v : Value) : Prop := v.ClosesIn (R.Has n)

theorem Holds.mono {v : Value} (hv : R.Holds n v) (hle : n ≤ n') : R.Holds n' v := by
  cases v with
  | closure c => exact Has.mono hv hle
  | _ => trivial

theorem Holds.data {v : Value} (hv : ∃ j, v = .data j) : R.Holds n v := by
  obtain ⟨j, rfl⟩ := hv
  trivial

/-- No way leads out of the region. -/
structure Closed (R : Region) (h : Scopes) : Prop where
  first : R.first ≤ h.size
  parent : ∀ id p, R.Has h.size id → (h.get id).parent = some p → R.Has h.size p
  bound : ∀ id, R.Has h.size id → ∀ b ∈ (h.get id).bindings, R.Holds h.size b.2

/-- Adding a scope inside one of the region. -/
theorem Closed.push (hc : R.Closed h) (hid : R.Has h.size id) : R.Closed (h.push (some id)) where
  first := by
    rw [Scopes.size_push]
    exact Nat.le_succ_of_le hc.first
  parent s p hs hp := by
    rw [Scopes.size_push] at hs ⊢
    rw [Scopes.get_push] at hp
    split at hp
    · cases hp
      exact hid.mono (Nat.le_succ _)
    next hne => exact (hc.parent s p (hs.of_ne hne) hp).mono (Nat.le_succ _)
  bound s hs b hb := by
    rw [Scopes.size_push] at hs ⊢
    rw [Scopes.get_push] at hb
    split at hb
    · cases hb
    next hne => exact (hc.bound s (hs.of_ne hne) b hb).mono (Nat.le_succ _)

/-- Changing the bindings of a scope to values of the region. -/
theorem Closed.modify (hc : R.Closed h) {f : Scope → Scope}
    (hparent : (f (h.get id)).parent = (h.get id).parent)
    (hbound : ∀ b ∈ (f (h.get id)).bindings, b ∈ (h.get id).bindings ∨ R.Holds h.size b.2) :
    R.Closed (h.modify id f) where
  first := by
    rw [Scopes.size_modify]
    exact hc.first
  parent s p hs hp := by
    rw [Scopes.size_modify] at hs ⊢
    rw [Scopes.get_modify] at hp
    split at hp
    next heq =>
      rw [heq.1, hparent, ← heq.1] at hp
      exact hc.parent s p hs hp
    · exact hc.parent s p hs hp
  bound s hs b hb := by
    rw [Scopes.size_modify] at hs ⊢
    rw [Scopes.get_modify] at hb
    split at hb
    next heq =>
      rw [heq.1] at hb
      rcases hbound b hb with hold | hnew
      · exact hc.bound s hs b (heq.1 ▸ hold)
      · exact hnew
    · exact hc.bound s hs b hb

theorem Closed.add (hc : R.Closed h) (id : ScopeId) (name : Json) {v : Value}
    (hv : R.Holds h.size v) : R.Closed (h.modify id (·.add name v)) := by
  refine hc.modify rfl fun b hb => ?_
  rcases List.mem_append.mp hb with hb | hb
  · exact .inl hb
  · rw [List.mem_singleton.mp hb]
    exact .inr hv

theorem Closed.set (hc : R.Closed h) (id : ScopeId) (key : Json.Key) {v : Value}
    (hv : R.Holds h.size v) : R.Closed (h.modify id (·.set key v)) := by
  refine hc.modify rfl fun b hb => ?_
  obtain ⟨old, hold, rfl⟩ := List.mem_map.mp hb
  split
  · exact .inr hv
  · exact .inl hold

/-! ## Looking names up -/

theorem Closed.mem_chainFrom (hc : R.Closed h) (fuel : Nat) (hid : R.Has h.size id) :
    ∀ s ∈ h.chainFrom fuel id, R.Has h.size s := by
  induction fuel generalizing id with
  | zero =>
    intro s hs
    rw [List.mem_singleton.mp hs]
    exact hid
  | succ fuel ih =>
    intro s hs
    rw [Scopes.chainFrom] at hs
    split at hs
    next p hp =>
      rcases List.mem_cons.mp hs with rfl | hs
      · exact hid
      · exact ih (hc.parent id p hid hp) s hs
    · rw [List.mem_singleton.mp hs]
      exact hid

/-- The nearest scope that binds a name is in the region. -/
theorem Closed.owner (hc : R.Closed h) {key : Json.Key} {owner : ScopeId}
    (hid : R.Has h.size id) (ho : h.owner? id key = some owner) : R.Has h.size owner :=
  hc.mem_chainFrom id hid owner (List.mem_of_find?_eq_some ho)

/-- What a name stands for is in the region. -/
theorem Closed.lookup (hc : R.Closed h) {name : Json} {v : Value} (hid : R.Has h.size id)
    (hv : h.lookup id name = .ok v) : R.Holds h.size v := by
  obtain ⟨key, owner, -, ho, hvalue⟩ := h.lookup_eq_ok.mp hv
  obtain ⟨b, hb, rfl⟩ := Option.map_eq_some_iff.mp hvalue
  exact hc.bound owner (hc.owner hid ho) b (List.mem_of_find?_eq_some hb)

end Region

/-! ## Scopes that agree -/

/-- There are as many scopes, and those of the set are the same. -/
structure Scopes.Agrees (S : ScopeId → Prop) (h h₂ : Scopes) : Prop where
  size : h₂.size = h.size
  get : ∀ id, S id → h₂.get id = h.get id

namespace Scopes.Agrees

variable {R : Region} {id : ScopeId} {h h₂ : Scopes}

theorem push (ha : h.Agrees (R.Has h.size) h₂) (parent : Option ScopeId) :
    (h.push parent).Agrees (R.Has (h.push parent).size) (h₂.push parent) where
  size := by rw [size_push, size_push, ha.size]
  get s hs := by
    rw [size_push] at hs
    rw [get_push, get_push, ha.size]
    split
    · rfl
    next hne => exact ha.get s (hs.of_ne hne)

theorem modify (ha : h.Agrees (R.Has h.size) h₂) (f : Scope → Scope) :
    (h.modify id f).Agrees (R.Has (h.modify id f).size) (h₂.modify id f) where
  size := by rw [size_modify, size_modify, ha.size]
  get s hs := by
    rw [size_modify] at hs
    rw [get_modify, get_modify, ha.size, ha.get s hs]

theorem chainFrom_eq (ha : h.Agrees (R.Has h.size) h₂) (hc : R.Closed h) (fuel : Nat)
    (hid : R.Has h.size id) : h₂.chainFrom fuel id = h.chainFrom fuel id := by
  induction fuel generalizing id with
  | zero => rfl
  | succ fuel ih =>
    rw [chainFrom, chainFrom, ha.get id hid]
    cases hp : (h.get id).parent with
    | none => rfl
    | some p => exact congrArg (id :: ·) (ih (hc.parent id p hid hp))

theorem owner_eq (ha : h.Agrees (R.Has h.size) h₂) (hc : R.Closed h) (hid : R.Has h.size id)
    (key : Json.Key) : h₂.owner? id key = h.owner? id key := by
  unfold owner? chain
  rw [ha.chainFrom_eq hc id hid]
  refine List.find?_congr fun s hs => ?_
  rw [ha.get s (hc.mem_chainFrom id hid s hs)]

theorem lookup_eq (ha : h.Agrees (R.Has h.size) h₂) (hc : R.Closed h) (hid : R.Has h.size id)
    (name : Json) : h₂.lookup id name = h.lookup id name := by
  unfold lookup
  cases keyOf name with
  | error f => rfl
  | ok key =>
    simp only [bind, Except.bind]
    rw [ha.owner_eq hc hid]
    cases ho : h.owner? id key with
    | none => rfl
    | some owner =>
      simp only [Option.bind]
      rw [ha.get owner (hc.owner hid ho)]

theorem freeKey_eq (ha : h.Agrees (R.Has h.size) h₂) (hid : R.Has h.size id) (name : Json) :
    h₂.freeKey id name = h.freeKey id name := by
  unfold freeKey
  rw [ha.get id hid]

theorem boundKey_eq (ha : h.Agrees (R.Has h.size) h₂) (hc : R.Closed h)
    (hid : R.Has h.size id) (name : Json) : h₂.boundKey id name = h.boundKey id name := by
  unfold boundKey
  cases keyOf name with
  | error f => rfl
  | ok key =>
    simp only [bind, Except.bind]
    rw [ha.owner_eq hc hid]

theorem notes_eq (ha : h.Agrees (R.Has h.size) h₂) (hid : R.Has h.size id)
    (call : Option (Json × List Value)) : Eval.notes h₂ id call = Eval.notes h id call := by
  unfold Eval.notes snapshot
  rw [ha.get id hid]

end Scopes.Agrees

end ScriptLang
