import Mathlib.Data.List.Nodup
import ScriptLang.Proofs.Linked.Gather
import ScriptLang.Proofs.VirtualPath.Normal

/-!
# The walk of a link without fuel

A link may fail at each file that it reads. `Walks` is the walk of a link without fuel: what it has
read when it ends, and how it ends. There is such a walk for every store in which finitely many
paths can be read, because each file that is walked over is a new one; and `gather` is that walk as
soon as its fuel exceeds the number of statements and files that are read.

Results:
* `Walks.gather`: the fuel that `gather` needs for a walk;
* `walks_of_gather`: with less fuel it is used up, or it was enough;
* `exists_walk`: the walk comes to an end.
-/
namespace ScriptLang

variable {σ : Type}

/-- Whatever is read from the state `s` on, no other paths in normal form than these can be read. -/
def Store.ReadsOnly (store : Store (StateM σ)) (s : σ) (readable : List String) : Prop :=
  ∀ log s', store.Answers s log s' → ∀ f, VirtualPath.IsNormal f →
    ∀ text, (store.read f s').1 = .text text → f ∈ readable

theorem Store.ReadsOnly.after {store : Store (StateM σ)} {s s' : σ} {readable : List String}
    (h : store.ReadsOnly s readable) {log : List (String × ReadResult)}
    (ha : store.Answers s log s') : store.ReadsOnly s' readable :=
  fun _ s'' hmore => h _ s'' (ha.append hmore)

namespace Linked

/-! ## The walk without fuel -/

/-- The walk over the statements `nodes` of a file in a directory, from a state of the store to
another: what it reads, and what it gathers or why it fails. -/
inductive Walks (store : Store (StateM σ)) : σ → String → List Node → Progress →
    List (String × ReadResult) → Except LinkError (List Node × Progress) → σ → Prop
  | done (s : σ) (directory : String) (p : Progress) :
      Walks store s directory [] p [] (.ok ([], p)) s
  | skip {s s' : σ} {directory : String} {node : Node} {nodes : List Node} {p : Progress}
      {log : List (String × ReadResult)} {r : Except LinkError (List Node × Progress)} :
      node.isImport = false → Walks store s directory nodes p log r s' →
      Walks store s directory (node :: nodes) p log r s'
  | seen {s s' : σ} {directory path : String} {nodes : List Node} {p : Progress}
      {log : List (String × ReadResult)} {r : Except LinkError (List Node × Progress)} :
      VirtualPath.resolve path directory ∈ p.visited → Walks store s directory nodes p log r s' →
      Walks store s directory (.importFile path :: nodes) p log r s'
  /-- The file is no program. -/
  | unusable {s : σ} {directory path target : String} {nodes : List Node} {p : Progress}
      {e : LinkError} :
      VirtualPath.resolve path directory = target → target ∉ p.visited →
      parseRead target (store.read target s).1 = .error e →
      Walks store s directory (.importFile path :: nodes) p [(target, (store.read target s).1)]
        (.error e) (store.read target s).2
  /-- The walk over the file fails. -/
  | broken {s s' : σ} {directory path target : String} {nodes : List Node} {p : Progress}
      {imported : Program} {log : List (String × ReadResult)} {e : LinkError} :
      VirtualPath.resolve path directory = target → target ∉ p.visited →
      parseRead target (store.read target s).1 = .ok imported →
      Walks store (store.read target s).2 (VirtualPath.directory target) imported.statements
        ⟨target :: p.visited, p.files⟩ log (.error e) s' →
      Walks store s directory (.importFile path :: nodes) p
        ((target, (store.read target s).1) :: log) (.error e) s'
  | visit {s s₁ s₂ : σ} {directory path target : String} {nodes body : List Node}
      {p p₁ : Progress} {imported : Program} {log₁ log₂ : List (String × ReadResult)}
      {r : Except LinkError (List Node × Progress)} :
      VirtualPath.resolve path directory = target → target ∉ p.visited →
      parseRead target (store.read target s).1 = .ok imported →
      Walks store (store.read target s).2 (VirtualPath.directory target) imported.statements
        ⟨target :: p.visited, p.files⟩ log₁ (.ok (body, p₁)) s₁ →
      Walks store s₁ directory nodes ⟨p₁.visited, p₁.files ++ [target]⟩ log₂ r s₂ →
      Walks store s directory (.importFile path :: nodes) p
        ((target, (store.read target s).1) :: (log₁ ++ log₂))
        (r.map fun (after, p₂) => (body ++ own imported.statements ++ after, p₂)) s₂

/-- The statements that a read gave, none if it gave no program. -/
def statementsOf (e : String × ReadResult) : List Node :=
  match parseRead e.1 e.2 with
  | .ok p => p.statements
  | .error _ => []

/-- The number of statements and files that were read. -/
def cost : List (String × ReadResult) → Nat
  | [] => 0
  | e :: log => (statementsOf e).length + 1 + cost log

theorem cost_cons (e : String × ReadResult) (log : List (String × ReadResult)) :
    cost (e :: log) = (statementsOf e).length + 1 + cost log := rfl

theorem cost_append (a b : List (String × ReadResult)) : cost (a ++ b) = cost a + cost b := by
  induction a with
  | nil => simp [cost]
  | cons e a ih => rw [List.cons_append, cost_cons, cost_cons, ih, ← Nat.add_assoc]

theorem statementsOf_ok {path : String} {r : ReadResult} {p : Program}
    (h : parseRead path r = .ok p) : statementsOf (path, r) = p.statements := by
  simp [statementsOf, h]

theorem gather_seen (store : Store (StateM σ)) (fuel : Nat) {directory path : String}
    (nodes : List Node) {p : Progress} (h : VirtualPath.resolve path directory ∈ p.visited) :
    gather store (fuel + 1) directory (.importFile path :: nodes) p =
      gather store fuel directory nodes p := by
  rw [gather, if_pos (by simpa using h)]

/-- The walk over a new file. -/
theorem gather_new (store : Store (StateM σ)) (fuel : Nat) {directory path target : String}
    (nodes : List Node) {p : Progress} (ht : VirtualPath.resolve path directory = target)
    (hv : target ∉ p.visited) :
    gather store (fuel + 1) directory (.importFile path :: nodes) p =
      load store target >>= fun imported =>
        gather store fuel (VirtualPath.directory target) imported.statements
            ⟨target :: p.visited, p.files⟩ >>= fun (body, p₁) =>
          gather store fuel directory nodes ⟨p₁.visited, p₁.files ++ [target]⟩ >>=
            fun (after, p₂) => pure (body ++ own imported.statements ++ after, p₂) := by
  subst ht
  rw [gather, if_neg (by simpa using hv)]

/-! ## Runs of a walk -/

section Runs

variable {store : Store (StateM σ)} {s s' : σ} {directory : String} {nodes : List Node}
  {p : Progress} {log : List (String × ReadResult)} {r : Except LinkError (List Node × Progress)}

/-- The fuel that a walk needs: more than the statements of the file, and the statements and files
that are read. -/
theorem Walks.gather (w : Walks store s directory nodes p log r s') :
    ∀ fuel, nodes.length + cost log < fuel →
      Linked.gather store fuel directory nodes p s = (r, s') := by
  induction w with
  | done s directory p =>
    rintro (_ | fuel) h
    · omega
    · rfl
  | skip hi _ ih =>
    rintro (_ | fuel) h
    · omega
    · rw [gather_skip store fuel _ _ _ hi]
      exact ih fuel (by simp only [List.length_cons] at h; omega)
  | seen hv _ ih =>
    rintro (_ | fuel) h
    · omega
    · rw [gather_seen store fuel _ hv]
      exact ih fuel (by simp only [List.length_cons] at h; omega)
  | unusable ht hv hparse =>
    rintro (_ | fuel) h
    · omega
    · rw [gather_new store fuel _ ht hv, bind_run, load_run, hparse]
  | broken ht hv hparse _ ih =>
    rintro (_ | fuel) h
    · omega
    · rw [cost_cons, statementsOf_ok hparse] at h
      rw [gather_new store fuel _ ht hv, bind_run, load_run, hparse]
      dsimp only
      rw [bind_run, ih fuel (by omega)]
  | @visit s s₁ s₂ directory path target nodes body p p₁ imported log₁ log₂ r ht hv hparse _ _ ih₁
      ih₂ =>
    rintro (_ | fuel) h
    · omega
    · rw [cost_cons, cost_append, statementsOf_ok hparse, List.length_cons] at h
      rw [gather_new store fuel _ ht hv, bind_run, load_run, hparse]
      dsimp only
      rw [bind_run, ih₁ fuel (by omega)]
      dsimp only
      rw [bind_run, ih₂ fuel (by omega)]
      cases r <;> rfl

/-- With any fuel `gather` runs out of it, or it is a walk. -/
theorem walks_of_gather (store : Store (StateM σ)) (fuel : Nat) (directory : String)
    (nodes : List Node) (p : Progress) (s : σ) :
    (Linked.gather store fuel directory nodes p s).1 = .error .outOfFuel ∨
    ∃ log, Walks store s directory nodes p log (Linked.gather store fuel directory nodes p s).1
      (Linked.gather store fuel directory nodes p s).2 := by
  induction fuel generalizing directory nodes p s with
  | zero => exact .inl rfl
  | succ fuel ih =>
    cases nodes with
    | nil => exact .inr ⟨[], .done s directory p⟩
    | cons node nodes =>
      cases hi : node.isImport with
      | false =>
        rw [gather_skip store fuel _ _ _ hi]
        rcases ih directory nodes p s with h | ⟨log, w⟩
        · exact .inl h
        · exact .inr ⟨log, .skip hi w⟩
      | true =>
        obtain ⟨path, rfl⟩ := isImport_iff.mp hi
        by_cases hv : VirtualPath.resolve path directory ∈ p.visited
        · rw [gather_seen store fuel _ hv]
          rcases ih directory nodes p s with h | ⟨log, w⟩
          · exact .inl h
          · exact .inr ⟨log, .seen hv w⟩
        · generalize ht : VirtualPath.resolve path directory = target at hv
          rw [gather_new store fuel _ ht hv, bind_run, load_run]
          cases hparse : parseRead target (store.read target s).1 with
          | error e => exact .inr ⟨_, .unusable ht hv hparse⟩
          | ok imported =>
            dsimp only
            rw [bind_run]
            have ih₁ := ih (VirtualPath.directory target) imported.statements
              ⟨target :: p.visited, p.files⟩ (store.read target s).2
            generalize Linked.gather store fuel (VirtualPath.directory target) imported.statements
              ⟨target :: p.visited, p.files⟩ (store.read target s).2 = run at ih₁ ⊢
            obtain ⟨r₁, s₁⟩ := run
            cases r₁ with
            | error e =>
              rcases ih₁ with h | ⟨log, w⟩
              · exact .inl h
              · exact .inr ⟨_, .broken ht hv hparse w⟩
            | ok result =>
              obtain ⟨body, p₁⟩ := result
              obtain ⟨log₁, w₁⟩ := ih₁.resolve_left (by rintro ⟨⟩)
              dsimp only
              rw [bind_run]
              have ih₂ := ih directory nodes ⟨p₁.visited, p₁.files ++ [target]⟩ s₁
              generalize Linked.gather store fuel directory nodes
                ⟨p₁.visited, p₁.files ++ [target]⟩ s₁ = run at ih₂ ⊢
              obtain ⟨r₂, s₂⟩ := run
              cases r₂ with
              | error e =>
                rcases ih₂ with h | ⟨log, w⟩
                · exact .inl h
                · exact .inr ⟨_, .visit ht hv hparse w₁ w⟩
              | ok result =>
                obtain ⟨log₂, w₂⟩ := ih₂.resolve_left (by rintro ⟨⟩)
                exact .inr ⟨_, .visit ht hv hparse w₁ w₂⟩

/-- From one state there is one walk. -/
theorem Walks.unique {store : Store (StateM σ)} {s s₁ s₂ : σ} {directory : String}
    {nodes : List Node} {p : Progress} {log₁ log₂ : List (String × ReadResult)}
    {r₁ r₂ : Except LinkError (List Node × Progress)}
    (w₁ : Walks store s directory nodes p log₁ r₁ s₁)
    (w₂ : Walks store s directory nodes p log₂ r₂ s₂) : r₁ = r₂ ∧ s₁ = s₂ := by
  have h₁ := w₁.gather (nodes.length + cost log₁ + cost log₂ + 1) (by omega)
  have h₂ := w₂.gather (nodes.length + cost log₁ + cost log₂ + 1) (by omega)
  exact Prod.mk.inj (h₁.symm.trans h₂)

theorem Walks.answers (w : Walks store s directory nodes p log r s') :
    store.Answers s log s' := by
  induction w with
  | done s => exact .nil s
  | skip _ _ ih => exact ih
  | seen _ _ ih => exact ih
  | unusable => exact .cons _ (.nil _)
  | broken _ _ _ _ ih => exact .cons _ ih
  | visit _ _ _ _ _ ih₁ ih₂ => exact .cons _ (ih₁.append ih₂)

/-- The visited paths, in the order of their visits, are those before the walk and those it read. -/
theorem Walks.visited {store : Store (StateM σ)} {s s' : σ} {directory : String}
    {nodes body : List Node} {p p' : Progress} {log : List (String × ReadResult)}
    (w : Walks store s directory nodes p log (.ok (body, p')) s') :
    p'.visited.reverse = p.visited.reverse ++ log.map Prod.fst := by
  generalize hr : (Except.ok (body, p') : Except LinkError (List Node × Progress)) = r at w
  induction w generalizing body p' with
  | done =>
    cases hr
    simp
  | skip _ _ ih => exact ih hr
  | seen _ _ ih => exact ih hr
  | unusable => cases hr
  | broken => cases hr
  | @visit _ _ _ _ _ _ _ _ _ _ _ _ _ r _ _ _ _ _ ih₁ ih₂ =>
    cases r with
    | error e => cases hr
    | ok after =>
      cases hr
      rw [ih₂ rfl, ih₁ rfl]
      simp

/-- Each path is visited once. -/
theorem Walks.nodup (w : Walks store s directory nodes p log r s')
    (hn : p.visited.reverse.Nodup) : (p.visited.reverse ++ log.map Prod.fst).Nodup := by
  have new : ∀ {visited : List String} {target : String}, visited.reverse.Nodup →
      target ∉ visited → (target :: visited).reverse.Nodup := fun hn hv =>
    List.nodup_reverse.mpr (List.nodup_cons.mpr ⟨hv, List.nodup_reverse.mp hn⟩)
  induction w with
  | done => simpa using hn
  | skip _ _ ih => exact ih hn
  | seen _ _ ih => exact ih hn
  | unusable _ hv _ => simpa using new hn hv
  | broken _ hv _ _ ih => simpa using ih (new hn hv)
  | visit _ hv _ w₁ _ ih₁ ih₂ =>
    have hn₁ := ih₁ (new hn hv)
    rw [← w₁.visited] at hn₁
    have hn₂ := ih₂ hn₁
    rw [w₁.visited] at hn₂
    simpa using hn₂

end Runs

/-! ## Walks come to an end -/

/-- The paths that can be read and have not been visited. -/
def unread (readable : List String) (p : Progress) : List String :=
  readable.filter fun f => !p.visited.contains f

theorem mem_unread {readable : List String} {p : Progress} {f : String} :
    f ∈ unread readable p ↔ f ∈ readable ∧ f ∉ p.visited := by
  simp [unread]

theorem unread_sublist (readable : List String) (p p' : Progress)
    (h : ∀ f ∈ p.visited, f ∈ p'.visited) : (unread readable p').Sublist (unread readable p) := by
  refine List.monotone_filter_right readable fun f hf => ?_
  simp only [Bool.not_eq_true', List.contains_eq_mem, decide_eq_false_iff_not] at hf ⊢
  exact fun hv => hf (h f hv)

/-- To visit a path that can be read leaves fewer of them. -/
theorem unread_length_lt {readable : List String} {p : Progress} {f : String} (hf : f ∈ readable)
    (hv : f ∉ p.visited) :
    (unread readable ⟨f :: p.visited, p.files⟩).length < (unread readable p).length := by
  have hsub := unread_sublist readable p ⟨f :: p.visited, p.files⟩
    fun _ => List.mem_cons_of_mem f
  by_contra hge
  have heq := hsub.eq_of_length_le (by omega)
  have hmem : f ∈ unread readable ⟨f :: p.visited, p.files⟩ := heq ▸ mem_unread.mpr ⟨hf, hv⟩
  exact (mem_unread.mp hmem).2 List.mem_cons_self

theorem text_of_parseRead {path : String} {r : ReadResult} {q : Program}
    (h : parseRead path r = .ok q) : ∃ text, r = .text text := by
  cases r with
  | text t => exact ⟨t, rfl⟩
  | absent => cases h
  | failed f => cases h

/-- A walk over statements ends, because every file that is walked over on the way is a new one of
finitely many. -/
theorem exists_walk (store : Store (StateM σ)) (readable : List String) :
    ∀ (n : Nat) (nodes : List Node) (s : σ) (directory : String) (p : Progress),
      store.ReadsOnly s readable → (unread readable p).length ≤ n →
      ∃ log r s', Walks store s directory nodes p log r s' := by
  intro n
  induction n using Nat.strongRecOn with
  | ind n ihn =>
    intro nodes
    induction nodes with
    | nil => exact fun s directory p _ _ => ⟨_, _, _, .done s directory p⟩
    | cons node nodes ih =>
      intro s directory p hs hn
      cases hi : node.isImport with
      | false =>
        obtain ⟨log, r, s', w⟩ := ih s directory p hs hn
        exact ⟨_, _, _, .skip hi w⟩
      | true =>
        obtain ⟨path, rfl⟩ := isImport_iff.mp hi
        by_cases hv : VirtualPath.resolve path directory ∈ p.visited
        · obtain ⟨log, r, s', w⟩ := ih s directory p hs hn
          exact ⟨_, _, _, .seen hv w⟩
        · generalize ht : VirtualPath.resolve path directory = target at hv
          cases hparse : parseRead target (store.read target s).1 with
          | error e => exact ⟨_, _, _, .unusable ht hv hparse⟩
          | ok imported =>
            obtain ⟨text, htext⟩ := text_of_parseRead hparse
            have hread : target ∈ readable :=
              hs [] s (.nil s) target (ht ▸ VirtualPath.isNormal_resolve _ _) text htext
            have hone : store.Answers s [(target, (store.read target s).1)]
                (store.read target s).2 := .cons target (.nil _)
            obtain ⟨log₁, r₁, s₁, w₁⟩ := ihn _
              (Nat.lt_of_lt_of_le (unread_length_lt hread hv) hn) imported.statements
              (store.read target s).2 (VirtualPath.directory target)
              ⟨target :: p.visited, p.files⟩ (hs.after hone) (Nat.le_refl _)
            cases r₁ with
            | error e => exact ⟨_, _, _, .broken ht hv hparse w₁⟩
            | ok result =>
              obtain ⟨body, p₁⟩ := result
              have hle : (unread readable ⟨p₁.visited, p₁.files ++ [target]⟩).length ≤ n := by
                refine Nat.le_trans (unread_sublist readable p _ fun f hf => ?_).length_le hn
                rw [← List.mem_reverse, w₁.visited]
                simp [hf]
              obtain ⟨log₂, r₂, s₂, w₂⟩ := ih s₁ directory ⟨p₁.visited, p₁.files ++ [target]⟩
                ((hs.after hone).after w₁.answers) hle
              exact ⟨_, _, _, .visit ht hv hparse w₁ w₂⟩

end Linked

end ScriptLang
