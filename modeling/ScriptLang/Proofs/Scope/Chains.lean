import Mathlib.Logic.Relation
import ScriptLang.Proofs.Scope

/-!
# Chains and nearest owners

The scope around a scope came before it, so chains go down and end. Which scope a name belongs to is
said here without searching: the chain comes to an owner of the name and passes none on the way. The
search along the chain finds just that one.

Results:
* `Scopes.Descending.owner?_eq_some`: the search finds the nearest owner;
* `Scopes.Descending.owner?_eq_none`: it finds none iff no scope on the chain is one.
-/
namespace ScriptLang.Scopes

variable {h : Scopes} {key : Json.Key} {id parent owner target : ScopeId}

/-! ## Chains -/

/-- The second scope is the one around the first. -/
def IsParent (h : Scopes) (id parent : ScopeId) : Prop := (h.get id).parent = some parent

/-- The second scope is on the chain of the first. -/
def OnChain (h : Scopes) : ScopeId → ScopeId → Prop := Relation.ReflTransGen h.IsParent

/-- Every scope came after the one around it. -/
def Descending (h : Scopes) : Prop := ∀ id parent, h.IsParent id parent → parent < id

/-- Induction along a chain, from its end. -/
theorem Descending.along {motive : ScopeId → Prop} (hd : h.Descending)
    (root : ∀ id, (h.get id).parent = none → motive id)
    (child : ∀ id parent, h.IsParent id parent → motive parent → motive id) (id : ScopeId) :
    motive id := by
  induction id using Nat.strongRecOn with
  | ind id ih =>
    cases hp : (h.get id).parent with
    | none => exact root id hp
    | some parent => exact child id parent hp (ih parent (hd id parent hp))

/-! ## Nearest owners -/

/-- The chain of the first scope comes to the second and passes no owner of the name before. -/
inductive Reaches (h : Scopes) (key : Json.Key) : ScopeId → ScopeId → Prop
  | here (id : ScopeId) : Reaches h key id id
  | up {id parent target : ScopeId} : (h.get id).owns key = false → h.IsParent id parent →
      Reaches h key parent target → Reaches h key id target

/-- The second scope is the first owner of the name on the chain of the first. -/
def Nearest (h : Scopes) (key : Json.Key) (id owner : ScopeId) : Prop :=
  h.Reaches key id owner ∧ (h.get owner).owns key = true

theorem reaches_of_owns (howns : (h.get id).owns key = true) :
    h.Reaches key id target ↔ target = id := by
  constructor
  · rintro (_ | ⟨hno, -, -⟩)
    · rfl
    · rw [howns] at hno
      cases hno
  · rintro rfl
    exact .here _

theorem reaches_of_root (hroot : (h.get id).parent = none) :
    h.Reaches key id target ↔ target = id := by
  constructor
  · rintro (_ | ⟨-, hp, -⟩)
    · rfl
    · cases hroot.symm.trans hp
  · rintro rfl
    exact .here _

theorem reaches_of_parent (hno : (h.get id).owns key = false) (hp : h.IsParent id parent)
    (hne : target ≠ id) : h.Reaches key id target ↔ h.Reaches key parent target := by
  constructor
  · rintro (_ | ⟨-, hp', hreach⟩)
    · exact absurd rfl hne
    · cases hp.symm.trans hp'
      exact hreach
  · exact .up hno hp

theorem nearest_of_owns (howns : (h.get id).owns key = true) :
    h.Nearest key id owner ↔ owner = id := by
  rw [Nearest, reaches_of_owns howns]
  exact ⟨And.left, fun heq => ⟨heq, heq ▸ howns⟩⟩

theorem nearest_of_root (hno : (h.get id).owns key = false) (hroot : (h.get id).parent = none) :
    ¬ h.Nearest key id owner := by
  rw [Nearest, reaches_of_root hroot]
  rintro ⟨rfl, howns⟩
  rw [hno] at howns
  cases howns

theorem nearest_of_parent (hno : (h.get id).owns key = false) (hp : h.IsParent id parent) :
    h.Nearest key id owner ↔ h.Nearest key parent owner := by
  unfold Nearest
  refine and_congr_left fun howns => reaches_of_parent hno hp ?_
  rintro rfl
  rw [hno] at howns
  cases howns

/-- There is a nearest owner as soon as there is an owner on the chain. -/
theorem exists_nearest_iff :
    (∃ owner, h.Nearest key id owner) ↔ ∃ s, h.OnChain id s ∧ (h.get s).owns key = true := by
  constructor
  · rintro ⟨owner, hreach, howns⟩
    refine ⟨owner, ?_, howns⟩
    induction hreach with
    | here id => exact .refl
    | up _ hp _ ih => exact .head hp (ih howns)
  · rintro ⟨s, hchain, howns⟩
    induction hchain using Relation.ReflTransGen.head_induction_on with
    | refl => exact ⟨s, .here s, howns⟩
    | @head id parent hp _ ih =>
      cases hid : (h.get id).owns key with
      | true => exact ⟨id, .here id, hid⟩
      | false => exact ih.imp fun _ => (nearest_of_parent hid hp).mpr

/-- Nearest owners depend on what the chain passes and on nothing else. -/
theorem nearest_congr {h' : Scopes} (hd : h.Descending) (hp : h'.IsParent = h.IsParent)
    (ho : ∀ s, h.Reaches key id s → (h'.get s).owns key = (h.get s).owns key) :
    h'.Nearest key id owner ↔ h.Nearest key id owner := by
  induction id using hd.along with
  | root id hroot =>
    have hroot' : (h'.get id).parent = none := by
      refine Option.eq_none_iff_forall_ne_some.mpr fun parent hp' => ?_
      have hparent : h.IsParent id parent := hp ▸ hp'
      cases hroot.symm.trans hparent
    have hid := ho id (.here id)
    cases howns : (h.get id).owns key with
    | true => rw [nearest_of_owns howns, nearest_of_owns (hid.trans howns)]
    | false =>
      exact iff_of_false (nearest_of_root (hid.trans howns) hroot') (nearest_of_root howns hroot)
  | child id parent hparent ih =>
    have hid := ho id (.here id)
    cases howns : (h.get id).owns key with
    | true => rw [nearest_of_owns howns, nearest_of_owns (hid.trans howns)]
    | false =>
      rw [nearest_of_parent howns hparent, nearest_of_parent (hid.trans howns) (hp ▸ hparent)]
      exact ih fun s hs => ho s (.up howns hparent hs)

/-! ## The search -/

/-- The search along a chain, with fuel for all of it, finds the nearest owner. -/
theorem find?_chainFrom (hd : h.Descending) (fuel : Nat) (hle : id ≤ fuel) :
    (h.chainFrom fuel id).find? (fun s => (h.get s).owns key) = some owner ↔
      h.Nearest key id owner := by
  have hroot (id : ScopeId) (hp : (h.get id).parent = none) :
      [id].find? (fun s => (h.get s).owns key) = some owner ↔ h.Nearest key id owner := by
    cases hid : (h.get id).owns key with
    | true => simp [hid, nearest_of_owns hid, eq_comm]
    | false => simp [hid, nearest_of_root hid hp]
  induction fuel generalizing id with
  | zero =>
    refine hroot id (Option.eq_none_iff_forall_ne_some.mpr fun parent hp => ?_)
    exact Nat.not_lt_zero parent (Nat.lt_of_lt_of_le (hd id parent hp) hle)
  | succ fuel ih =>
    rw [chainFrom]
    split
    · next parent hp =>
      cases hid : (h.get id).owns key with
      | true => simp [hid, nearest_of_owns hid, eq_comm]
      | false =>
        rw [List.find?_cons_of_neg (by simp [hid]), nearest_of_parent hid hp]
        exact ih (Nat.le_of_lt_succ (Nat.lt_of_lt_of_le (hd id parent hp) hle))
    · next hp => exact hroot id hp

theorem Descending.owner?_eq_some (hd : h.Descending) :
    h.owner? id key = some owner ↔ h.Nearest key id owner :=
  find?_chainFrom hd id (Nat.le_refl id)

theorem Descending.owner?_eq_none (hd : h.Descending) :
    h.owner? id key = none ↔ ∀ s, h.OnChain id s → (h.get s).owns key = false := by
  have hsome : (h.owner? id key).isSome ↔ ∃ s, h.OnChain id s ∧ (h.get s).owns key = true := by
    rw [Option.isSome_iff_exists, ← exists_nearest_iff]
    exact exists_congr fun _ => hd.owner?_eq_some
  rw [← Option.not_isSome_iff_eq_none, hsome]
  simp

end ScriptLang.Scopes
