import Mathlib.Data.List.Perm.Basic
import Mathlib.Logic.Relation
import ScriptLang.Linked

/-!
# What a link reads and gathers

A link is a depth-first walk over import statements that reads files on the way. Here the walk is
taken apart from the store: `Store.Answers` is what the store said to the reads of a run, in their
order, and `Gathers` is the walk over files that are known already. A store may change with every
read; nothing is assumed of it.

Results:
* `gather_run`: a walk that succeeds reads each new path once, the paths it reads are the ones it
  adds to the visited ones, and it is the walk `Gathers` over the files as they were read.
* `gathers_visit`: what a walk adds (`Visit`). The files it finishes are the paths that it visits,
  their imports are all visited, each of them is reached from a statement of the walk, and the
  statements it gathers are theirs, file by file.
-/
namespace ScriptLang

variable {σ : Type}

/-- From the state `s` the store answers the reads of `log`, one after another, and is in the state
`s'` after them. -/
inductive Store.Answers (store : Store (StateM σ)) : σ → List (String × ReadResult) → σ → Prop
  | nil (s : σ) : Answers store s [] s
  | cons {s s' : σ} {log : List (String × ReadResult)} (path : String) :
      Answers store (store.read path s).2 log s' →
      Answers store s ((path, (store.read path s).1) :: log) s'

theorem Store.Answers.append {store : Store (StateM σ)} {s s' s'' : σ}
    {log more : List (String × ReadResult)} (h : store.Answers s log s')
    (h' : store.Answers s' more s'') : store.Answers s (log ++ more) s'' := by
  induction h with
  | nil => exact h'
  | cons path _ ih => exact .cons path (ih h')

/-- A store that does not change when it is read has one answer for each path. -/
theorem Store.Answers.of_still {store : Store (StateM σ)} {s s' : σ}
    {log : List (String × ReadResult)} (hstill : ∀ path, (store.read path s).2 = s)
    (h : store.Answers s log s') : s' = s ∧ ∀ e ∈ log, e.2 = (store.read e.1 s).1 := by
  induction h with
  | nil => simp
  | cons path _ ih =>
    rw [hstill path] at ih
    obtain ⟨hstate, hlog⟩ := ih hstill
    exact ⟨hstate, List.forall_mem_cons.mpr ⟨rfl, hlog⟩⟩

namespace Linked

/-! ## The walk over known files -/

/-- What every file that was read holds: the statements that `source` has for its path. -/
def Agrees (source : String → List Node) (log : List (String × ReadResult)) : Prop :=
  ∀ e ∈ log, parseRead e.1 e.2 = .ok ⟨source e.1⟩

/-- The statements of the files in a log of reads. -/
def sourceOf (log : List (String × ReadResult)) (path : String) : List Node :=
  match (log.lookup path).map (parseRead path) with
  | some (.ok p) => p.statements
  | _ => []

/-- The file `f` has a top-level import of the file `g`. -/
def Imports (source : String → List Node) (f g : String) : Prop :=
  ∃ path, .importFile path ∈ source f ∧ VirtualPath.resolve path (VirtualPath.directory f) = g

/-- The walk over the statements `nodes` of a file in a directory, from one progress to another,
with the statements that it gathers. -/
inductive Gathers (source : String → List Node) :
    String → List Node → Progress → List Node → Progress → Prop
  | done (directory : String) (p : Progress) : Gathers source directory [] p [] p
  | seen {directory path : String} {nodes body : List Node} {p p' : Progress} :
      VirtualPath.resolve path directory ∈ p.visited →
      Gathers source directory nodes p body p' →
      Gathers source directory (.importFile path :: nodes) p body p'
  | visit {directory path target : String} {nodes below after : List Node}
      {p p₁ p₂ : Progress} :
      VirtualPath.resolve path directory = target → target ∉ p.visited →
      Gathers source (VirtualPath.directory target) (source target)
        ⟨target :: p.visited, p.files⟩ below p₁ →
      Gathers source directory nodes ⟨p₁.visited, p₁.files ++ [target]⟩ after p₂ →
      Gathers source directory (.importFile path :: nodes) p
        (below ++ own (source target) ++ after) p₂
  | skip {directory : String} {node : Node} {nodes body : List Node} {p p' : Progress} :
      node.isImport = false → Gathers source directory nodes p body p' →
      Gathers source directory (node :: nodes) p body p'

theorem agrees_append {source : String → List Node} {log more : List (String × ReadResult)} :
    Agrees source (log ++ more) ↔ Agrees source log ∧ Agrees source more := by
  simp only [Agrees, List.mem_append, or_imp, forall_and]

theorem agrees_cons {source : String → List Node} {e : String × ReadResult}
    {log : List (String × ReadResult)} :
    Agrees source (e :: log) ↔ parseRead e.1 e.2 = .ok ⟨source e.1⟩ ∧ Agrees source log := by
  simp only [Agrees, List.mem_cons, forall_eq_or_imp]

theorem lookup_of_mem {log : List (String × ReadResult)} (hn : (log.map Prod.fst).Nodup)
    {e : String × ReadResult} (he : e ∈ log) : log.lookup e.1 = some e.2 := by
  induction log with
  | nil => cases he
  | cons first rest ih =>
    obtain ⟨path, r⟩ := first
    rw [List.map_cons, List.nodup_cons] at hn
    rcases List.mem_cons.mp he with rfl | he
    · simp
    · have hne : e.1 ≠ path := fun h => hn.1 (List.mem_map.mpr ⟨e, he, h⟩)
      rw [List.lookup_cons, beq_false_of_ne hne]
      exact ih hn.2 he

/-- As no path was read twice, the statements of the files that were read are well defined. -/
theorem agrees_sourceOf {log : List (String × ReadResult)} (hn : (log.map Prod.fst).Nodup)
    (hp : ∀ e ∈ log, ∃ p, parseRead e.1 e.2 = .ok p) : Agrees (sourceOf log) log := by
  intro e he
  obtain ⟨p, hp⟩ := hp e he
  have hl : sourceOf log e.1 = p.statements := by
    simp only [sourceOf, lookup_of_mem hn he, Option.map_some, hp]
  rw [hp, hl]

/-! ## A run of the walk -/

theorem load_run (store : Store (StateM σ)) (path : String) (s : σ) :
    load store path s = (parseRead path (store.read path s).1, (store.read path s).2) := rfl

/-- Running one computation after another that may fail. -/
theorem bind_run {α β : Type} (x : ExceptT LinkError (StateM σ) α)
    (f : α → ExceptT LinkError (StateM σ) β) (s : σ) :
    (x >>= f) s =
      match x s with
      | (.ok a, s') => f a s'
      | (.error e, s') => (.error e, s') := by
  show StateT.bind x (ExceptT.bindCont f) s = _
  cases h : x s with
  | mk r s' =>
    cases r <;> simp only [StateT.bind, h] <;> rfl

theorem bind_run_ok {α β : Type} {x : ExceptT LinkError (StateM σ) α}
    {f : α → ExceptT LinkError (StateM σ) β} {s s' : σ} {b : β} (h : (x >>= f) s = (.ok b, s')) :
    ∃ a s₁, x s = (.ok a, s₁) ∧ f a s₁ = (.ok b, s') := by
  rw [bind_run] at h
  split at h
  · next a s₁ hx => exact ⟨a, s₁, hx, h⟩
  · cases h

theorem load_run_ok {store : Store (StateM σ)} {path : String} {s s' : σ} {p : Program}
    (h : load store path s = (.ok p, s')) :
    parseRead path (store.read path s).1 = .ok p ∧ (store.read path s).2 = s' := by
  rw [load_run, Prod.mk.injEq] at h
  exact h

/-- What a run of the walk did: the reads it logged are answers of the store, each file it read was
a program, it read no path twice and none that was visited, and over the files as they were read
it is the walk `Gathers`. -/
structure Ran (store : Store (StateM σ)) (s s' : σ) (log : List (String × ReadResult))
    (directory : String) (nodes : List Node) (p : Progress) (body : List Node) (p' : Progress) :
    Prop where
  answers : store.Answers s log s'
  parsed : ∀ e ∈ log, ∃ q, parseRead e.1 e.2 = .ok q
  visited : p'.visited = (log.map Prod.fst).reverse ++ p.visited
  nodup : p.visited.Nodup → p'.visited.Nodup
  gathers : ∀ source, Agrees source log → Gathers source directory nodes p body p'

theorem isImport_iff {node : Node} : node.isImport = true ↔ ∃ path, node = .importFile path := by
  cases node <;> simp [Node.isImport]

theorem gather_skip (store : Store (StateM σ)) (fuel : Nat) (directory : String) {node : Node}
    (nodes : List Node) (p : Progress) (h : node.isImport = false) :
    gather store (fuel + 1) directory (node :: nodes) p = gather store fuel directory nodes p := by
  cases node with
  | importFile path => cases h
  | _ => rw [gather]; simp

theorem Ran.visit {store : Store (StateM σ)} {s s₂ s₃ : σ} {log₁ log₂ : List (String × ReadResult)}
    {directory path target : String} {nodes below after : List Node} {p p₁ p₂ : Progress}
    {imported : Program} (ht : VirtualPath.resolve path directory = target)
    (hv : target ∉ p.visited) (hparse : parseRead target (store.read target s).1 = .ok imported)
    (r₁ : Ran store (store.read target s).2 s₂ log₁ (VirtualPath.directory target)
      imported.statements ⟨target :: p.visited, p.files⟩ below p₁)
    (r₂ : Ran store s₂ s₃ log₂ directory nodes ⟨p₁.visited, p₁.files ++ [target]⟩ after p₂) :
    Ran store s s₃ ((target, (store.read target s).1) :: (log₁ ++ log₂)) directory
      (.importFile path :: nodes) p (below ++ own imported.statements ++ after) p₂ where
  answers := .cons target (r₁.answers.append r₂.answers)
  parsed := by
    intro e he
    rcases List.mem_cons.mp he with rfl | he
    · exact ⟨imported, hparse⟩
    · rcases List.mem_append.mp he with he | he
      · exact r₁.parsed e he
      · exact r₂.parsed e he
  visited := by
    rw [r₂.visited, r₁.visited]
    simp
  nodup hn := r₂.nodup (r₁.nodup (List.nodup_cons.mpr ⟨hv, hn⟩))
  gathers := by
    intro source ha
    rw [agrees_cons, agrees_append] at ha
    obtain ⟨h₀, h₁, h₂⟩ := ha
    have hsource : imported.statements = source target := by
      rw [hparse] at h₀
      cases h₀
      rfl
    have hbelow := r₁.gathers source h₁
    rw [hsource] at hbelow ⊢
    exact .visit ht hv hbelow (r₂.gathers source h₂)

theorem gather_run (store : Store (StateM σ)) : ∀ (fuel : Nat) (directory : String)
    (nodes : List Node) (p : Progress) (s s' : σ) (body : List Node) (p' : Progress),
    gather store fuel directory nodes p s = (.ok (body, p'), s') →
    ∃ log, Ran store s s' log directory nodes p body p'
  | 0, _, _, _, _, _, _, _, h => by
    rw [gather] at h
    cases h
  | fuel + 1, directory, nodes, p, s, s', body, p', h => by
    have ih := gather_run store fuel
    match nodes with
    | [] =>
      rw [gather] at h
      cases h
      exact ⟨[], .nil s, by simp, by simp, id, fun source _ => .done directory p⟩
    | node :: nodes =>
      cases hi : node.isImport with
      | false =>
        rw [gather_skip store fuel directory nodes p hi] at h
        obtain ⟨log, hr⟩ := ih _ _ _ _ _ _ _ h
        exact ⟨log, hr.answers, hr.parsed, hr.visited, hr.nodup,
          fun source ha => .skip hi (hr.gathers source ha)⟩
      | true =>
        obtain ⟨path, rfl⟩ := isImport_iff.mp hi
        rw [gather] at h
        by_cases hv : VirtualPath.resolve path directory ∈ p.visited
        · rw [if_pos (by simpa using hv)] at h
          obtain ⟨log, hr⟩ := ih _ _ _ _ _ _ _ h
          exact ⟨log, hr.answers, hr.parsed, hr.visited, hr.nodup,
            fun source ha => .seen hv (hr.gathers source ha)⟩
        · rw [if_neg (by simpa using hv)] at h
          generalize ht : VirtualPath.resolve path directory = target at h hv
          obtain ⟨imported, s₁, hload, h⟩ := bind_run_ok h
          obtain ⟨⟨below, p₁⟩, s₂, hbelow, h⟩ := bind_run_ok h
          obtain ⟨⟨after, p₂⟩, s₃, hafter, h⟩ := bind_run_ok h
          cases h
          obtain ⟨hparse, rfl⟩ := load_run_ok hload
          obtain ⟨log₁, r₁⟩ := ih _ _ _ _ _ _ _ hbelow
          obtain ⟨log₂, r₂⟩ := ih _ _ _ _ _ _ _ hafter
          exact ⟨_, r₁.visit ht hv hparse r₂⟩

/-! ## What a walk adds -/

theorem own_flatMap (source : String → List Node) (a b : List String) (f : String) :
    (a ++ f :: b).flatMap (fun f => own (source f)) =
      a.flatMap (fun f => own (source f)) ++ own (source f) ++
        b.flatMap (fun f => own (source f)) := by
  simp [List.flatMap_append, List.flatMap_cons]

/-- What a walk adds: it finishes the files `done`, in this order. -/
structure Visit (source : String → List Node) (directory : String) (nodes : List Node)
    (p : Progress) (body : List Node) (p' : Progress) (done : List String) : Prop where
  files : p'.files = p.files ++ done
  visited : p'.visited.Perm (done ++ p.visited)
  body : body = done.flatMap fun f => own (source f)
  /-- Nothing that the walk comes past is left out. -/
  targets : ∀ path, .importFile path ∈ nodes → VirtualPath.resolve path directory ∈ p'.visited
  closed : ∀ f ∈ done, ∀ g, Imports source f g → g ∈ p'.visited
  /-- Nothing else is visited. -/
  reached : ∀ f ∈ done, ∃ path, .importFile path ∈ nodes ∧
    Relation.ReflTransGen (Imports source) (VirtualPath.resolve path directory) f

theorem Visit.mono {source : String → List Node} {directory : String} {nodes body : List Node}
    {p p' : Progress} {done : List String} (v : Visit source directory nodes p body p' done)
    {f : String} (hf : f ∈ p.visited) : f ∈ p'.visited :=
  v.visited.mem_iff.mpr (List.mem_append_right done hf)

/-- A statement that imports nothing new adds nothing. -/
theorem Visit.pass {source : String → List Node} {directory : String} {node : Node}
    {nodes body : List Node} {p p' : Progress} {done : List String}
    (h : ∀ path, node = .importFile path → VirtualPath.resolve path directory ∈ p.visited)
    (v : Visit source directory nodes p body p' done) :
    Visit source directory (node :: nodes) p body p' done where
  files := v.files
  visited := v.visited
  body := v.body
  targets := by
    intro path hp
    rcases List.mem_cons.mp hp with hp | hp
    · exact v.mono (h path hp.symm)
    · exact v.targets path hp
  closed := v.closed
  reached := by
    intro f hf
    obtain ⟨path, hp, hr⟩ := v.reached f hf
    exact ⟨path, List.mem_cons_of_mem node hp, hr⟩

theorem Visit.visit {source : String → List Node} {directory path target : String}
    {nodes below after : List Node} {p p₁ p₂ : Progress} {done₁ done₂ : List String}
    (ht : VirtualPath.resolve path directory = target)
    (v₁ : Visit source (VirtualPath.directory target) (source target)
      ⟨target :: p.visited, p.files⟩ below p₁ done₁)
    (v₂ : Visit source directory nodes ⟨p₁.visited, p₁.files ++ [target]⟩ after p₂ done₂) :
    Visit source directory (.importFile path :: nodes) p
      (below ++ own (source target) ++ after) p₂ (done₁ ++ target :: done₂) where
  files := by
    rw [v₂.files, v₁.files]
    simp
  visited := by
    refine v₂.visited.trans ((v₁.visited.append_left done₂).trans ?_)
    refine List.perm_append_comm.trans ?_
    simp only [List.append_assoc, List.cons_append]
    exact (List.perm_append_comm.cons target).append_left done₁
  body := by rw [own_flatMap, ← v₁.body, ← v₂.body]
  targets := by
    intro q hq
    rcases List.mem_cons.mp hq with hq | hq
    · cases hq
      rw [ht]
      exact v₂.mono (v₁.mono List.mem_cons_self)
    · exact v₂.targets q hq
  closed := by
    intro f hf g hg
    rcases List.mem_append.mp hf with hf | hf
    · exact v₂.mono (v₁.closed f hf g hg)
    · rcases List.mem_cons.mp hf with rfl | hf
      · obtain ⟨q, hq, rfl⟩ := hg
        exact v₂.mono (v₁.targets q hq)
      · exact v₂.closed f hf g hg
  reached := by
    intro f hf
    rcases List.mem_append.mp hf with hf | hf
    · obtain ⟨q, hq, hr⟩ := v₁.reached f hf
      refine ⟨path, List.mem_cons_self, ?_⟩
      rw [ht]
      exact .head ⟨q, hq, rfl⟩ hr
    · rcases List.mem_cons.mp hf with rfl | hf
      · exact ⟨path, List.mem_cons_self, by rw [ht]⟩
      · obtain ⟨q, hq, hr⟩ := v₂.reached f hf
        exact ⟨q, List.mem_cons_of_mem _ hq, hr⟩

theorem gathers_visit {source : String → List Node} {directory : String} {nodes body : List Node}
    {p p' : Progress} (h : Gathers source directory nodes p body p') :
    ∃ done, Visit source directory nodes p body p' done := by
  induction h with
  | done directory p =>
    exact ⟨[], by simp, by simp, by simp, by simp, by simp, by simp⟩
  | seen hv _ ih =>
    obtain ⟨done, v⟩ := ih
    refine ⟨done, v.pass ?_⟩
    intro q hq
    cases hq
    exact hv
  | visit ht _ _ _ ih₁ ih₂ =>
    obtain ⟨done₁, v₁⟩ := ih₁
    obtain ⟨done₂, v₂⟩ := ih₂
    exact ⟨_, v₁.visit ht v₂⟩
  | skip hi _ ih =>
    obtain ⟨done, v⟩ := ih
    refine ⟨done, v.pass ?_⟩
    rintro q rfl
    cases hi

end Linked

end ScriptLang
