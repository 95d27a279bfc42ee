import ScriptLang.Proofs.Linked.Reads

/-!
# Stores that answer alike

A link knows a store by its answers only. Two stores answer alike if states of theirs that are related
give the same result for every read, and related states after it; then links through them from related
states have the same result.

Result:
* `link_alike`: links through stores that answer alike have the same result.
-/
namespace ScriptLang

variable {σ τ : Type}

/-- From related states the two stores give the same result for every read, and are in related states
after it. -/
def Store.ReadsAlike (R : σ → τ → Prop) (store : Store (StateM σ)) (other : Store (StateM τ)) : Prop :=
  ∀ path s t, R s t →
    (store.read path s).1 = (other.read path t).1 ∧ R (store.read path s).2 (other.read path t).2

namespace Linked

/-- From related states the two computations have the same result, and end in related states. -/
def Alike (R : σ → τ → Prop) {α : Type} (x : ExceptT LinkError (StateM σ) α)
    (y : ExceptT LinkError (StateM τ) α) : Prop :=
  ∀ s t, R s t → (x s).1 = (y t).1 ∧ R (x s).2 (y t).2

variable {R : σ → τ → Prop} {store : Store (StateM σ)} {other : Store (StateM τ)}

theorem Alike.pure {α : Type} (a : α) :
    Alike R (pure a : ExceptT LinkError (StateM σ) α) (pure a) :=
  fun _ _ h => ⟨rfl, h⟩

theorem Alike.bind {α β : Type} {x : ExceptT LinkError (StateM σ) α}
    {y : ExceptT LinkError (StateM τ) α} {f : α → ExceptT LinkError (StateM σ) β}
    {g : α → ExceptT LinkError (StateM τ) β} (hx : Alike R x y) (hf : ∀ a, Alike R (f a) (g a)) :
    Alike R (x >>= f) (y >>= g) := by
  intro s t h
  rw [bind_run, bind_run]
  obtain ⟨hresult, hstate⟩ := hx s t h
  generalize x s = run at *
  generalize y t = run' at *
  obtain ⟨result, s'⟩ := run
  obtain ⟨_, t'⟩ := run'
  cases hresult
  cases result with
  | ok a => exact hf a s' t' hstate
  | error e => exact ⟨rfl, hstate⟩

theorem load_alike (h : store.ReadsAlike R other) (path : String) :
    Alike R (load store path) (load other path) := by
  intro s t hR
  obtain ⟨hresult, hstate⟩ := h path s t hR
  rw [load_run, load_run, hresult]
  exact ⟨rfl, hstate⟩

theorem gather_alike (h : store.ReadsAlike R other) (fuel : Nat) (directory : String)
    (nodes : List Node) (p : Progress) :
    Alike R (gather store fuel directory nodes p) (gather other fuel directory nodes p) := by
  induction fuel generalizing directory nodes p with
  | zero =>
    rw [gather, gather]
    exact fun _ _ hR => ⟨rfl, hR⟩
  | succ fuel ih =>
    cases nodes with
    | nil =>
      rw [gather, gather]
      exact .pure _
    | cons node nodes =>
      cases hi : node.isImport with
      | false =>
        rw [gather_skip _ _ _ _ _ hi, gather_skip _ _ _ _ _ hi]
        exact ih directory nodes p
      | true =>
        obtain ⟨path, rfl⟩ := isImport_iff.mp hi
        rw [gather, gather]
        split
        · exact ih directory nodes p
        · refine (load_alike h _).bind fun imported => (ih _ imported.statements _).bind ?_
          rintro ⟨below, p₁⟩
          refine (ih directory nodes _).bind ?_
          rintro ⟨after, p₂⟩
          exact .pure _

/-- Links through stores that answer alike have the same result. -/
theorem link_alike (h : store.ReadsAlike R other) (path : String) {s : σ} {t : τ} (hR : R s t) :
    (link store path s).1 = (link other path t).1 ∧
      R (link store path s).2 (link other path t).2 := by
  have hlink : Alike R (linkWith fuel store path) (linkWith fuel other path) :=
    (load_alike h _).bind fun _ => (gather_alike h _ _ _ _).bind fun _ => .pure _
  exact hlink s t hR

end Linked

end ScriptLang
