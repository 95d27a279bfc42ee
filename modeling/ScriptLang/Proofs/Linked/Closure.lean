import ScriptLang.Proofs.Linked.Gather
import ScriptLang.Store.Memory

/-!
# Linked files are the files that the entry reaches

A link takes the entry and all that it imports, directly or through other files, and takes each of
them once, whatever the graph of imports is: files may be shared, import themselves or import each
other in a circle.

Results:
* `linkWith_run`: a link that succeeds read the entry first and then walked over its statements.
* `link_exactly_once`: the linked files are the files reachable from the entry, without repetition
  and with the entry last, and the program is theirs, file by file, without import statements.
-/
namespace ScriptLang.Linked

variable {σ : Type}

/-- The path that the entry of a link is read under. -/
def entryOf (path : String) : String := VirtualPath.resolve path VirtualPath.root

/-- The entry reaches the file through top-level imports. -/
def Reaches (source : String → List Node) (entry f : String) : Prop :=
  Relation.ReflTransGen (Imports source) entry f

/-- A link that succeeds reads the entry, then walks over its statements with nothing but the entry
visited. -/
theorem linkWith_run {store : Store (StateM σ)} {fuel : Nat} {path : String} {s s' : σ}
    {linked : Linked} (h : linkWith fuel store path s = (.ok linked, s')) :
    ∃ log p', store.Answers s log s' ∧ (log.map Prod.fst).Nodup ∧
      (log.map Prod.fst).Perm p'.visited ∧ (∀ e ∈ log, ∃ q, parseRead e.1 e.2 = .ok q) ∧
      ∀ source, Agrees source log → ∃ body,
        Gathers source (VirtualPath.directory (entryOf path)) (source (entryOf path))
          ⟨[entryOf path], []⟩ body p' ∧
        linked = ⟨⟨body ++ own (source (entryOf path))⟩, p'.files ++ [entryOf path]⟩ := by
  unfold linkWith at h
  obtain ⟨main, s₁, hload, h⟩ := bind_run_ok h
  obtain ⟨⟨body, p'⟩, s₂, hgather, h⟩ := bind_run_ok h
  cases h
  obtain ⟨hparse, rfl⟩ := load_run_ok hload
  obtain ⟨log, r⟩ := gather_run store _ _ _ _ _ _ _ _ hgather
  have hreads : (((entryOf path, (store.read (entryOf path) s).1) :: log).map Prod.fst).Perm
      p'.visited := by
    rw [r.visited, List.map_cons]
    exact (List.perm_append_singleton (entryOf path) _).symm.trans
      ((List.reverse_perm _).symm.append_right [entryOf path])
  refine ⟨_, p', .cons (entryOf path) r.answers, ?_, hreads, ?_, ?_⟩
  · exact hreads.nodup_iff.mpr (r.nodup (by simp))
  · intro e he
    rcases List.mem_cons.mp he with rfl | he
    · exact ⟨main, hparse⟩
    · exact r.parsed e he
  · intro source ha
    obtain ⟨hentry, hlog⟩ := agrees_cons.mp ha
    have hmain : main.statements = source (entryOf path) := by
      have := hparse.symm.trans hentry
      cases this
      rfl
    have hg := r.gathers source hlog
    rw [hmain] at hg ⊢
    exact ⟨body, hg, rfl⟩

/-- The files that a walk from the entry finishes, with the entry, are those that it reaches. -/
theorem Visit.mem_iff_reaches {source : String → List Node} {entry : String} {body : List Node}
    {p' : Progress} {done : List String}
    (v : Visit source (VirtualPath.directory entry) (source entry) ⟨[entry], []⟩ body p' done)
    (f : String) : f ∈ done ++ [entry] ↔ Reaches source entry f := by
  constructor
  · intro hf
    rcases List.mem_append.mp hf with hf | hf
    · obtain ⟨path, hp, hr⟩ := v.reached f hf
      exact .head ⟨path, hp, rfl⟩ hr
    · rw [List.mem_singleton.mp hf]
      exact .refl
  · intro hr
    -- the finished files and the entry are closed under imports
    induction hr with
    | refl => simp
    | @tail f g _ hi ih =>
      refine v.visited.mem_iff.mp ?_
      rcases List.mem_append.mp ih with hf | hf
      · exact v.closed f hf g hi
      · rw [List.mem_singleton.mp hf] at hi
        obtain ⟨path, hp, rfl⟩ := hi
        exact v.targets path hp

/-- A link that succeeds has read each file that it links once and no other; `source` is what these
files hold. Its files are those that the entry reaches through top-level imports, each of them once
and the entry last, and its program is, file by file in this order, what each of them holds but for
its import statements. -/
theorem link_exactly_once (store : Store (StateM σ)) (path : String) (s s' : σ) (linked : Linked)
    (h : link store path s = (.ok linked, s')) :
    ∃ (log : List (String × ReadResult)) (source : String → List Node),
      (store.Answers s log s' ∧ (log.map Prod.fst).Nodup ∧
        (∀ f, f ∈ log.map Prod.fst ↔ f ∈ linked.files) ∧
        ∀ e ∈ log, parseRead e.1 e.2 = .ok ⟨source e.1⟩) ∧
      linked.files.Nodup ∧
      linked.files.getLast? = some (VirtualPath.resolve path VirtualPath.root) ∧
      (∀ f, f ∈ linked.files ↔
        Relation.ReflTransGen (Imports source) (VirtualPath.resolve path VirtualPath.root) f) ∧
      linked.program.statements =
        linked.files.flatMap fun f => (source f).filter fun node => !node.isImport := by
  obtain ⟨log, p', hanswers, hnodup, hreads, hparsed, hwalk⟩ := linkWith_run h
  have hagrees := agrees_sourceOf hnodup hparsed
  obtain ⟨body, hg, rfl⟩ := hwalk _ hagrees
  obtain ⟨done, v⟩ := gathers_visit hg
  have hfiles : p'.files = done := by simpa using v.files
  have hlog : (log.map Prod.fst).Perm (done ++ [entryOf path]) := hreads.trans v.visited
  refine ⟨log, sourceOf log, ⟨hanswers, hnodup, ?_, hagrees⟩, ?_, ?_, ?_, ?_⟩
  · intro f
    rw [hfiles]
    exact hlog.mem_iff
  · rw [hfiles]
    exact hlog.nodup_iff.mp hnodup
  · exact List.getLast?_concat
  · intro f
    rw [hfiles]
    exact v.mem_iff_reaches f
  · show body ++ own _ = (p'.files ++ [entryOf path]).flatMap fun f => own (sourceOf log f)
    rw [hfiles, List.flatMap_append, ← v.body]
    simp

/-- Three files that import each other, and one of them itself. -/
def circle : MemoryFiles := MemoryFiles.ofTexts [
  ("/main", "import \"lib/a\"; import \"b\"; let x = 1;"),
  ("/lib/a", "import \"../b\"; let y = 2;"),
  ("/b", "import \"lib/a\"; import \"./b\"; import \"/main\"; let z = 3;")]

theorem ok_of_toOption {α ε β : Type} {r : Except ε α × β} {a : α} {b : β}
    (h : r.1.toOption = some a) (h' : r.2 = b) : r = (.ok a, b) := by
  obtain ⟨x, y⟩ := r
  cases x with
  | error e => cases h
  | ok x =>
    cases h
    rw [← h']

theorem link_circle :
    ∃ linked source,
      link MemoryFiles.store "main" circle = (.ok linked, circle) ∧
      linked.files = ["/b", "/lib/a", "/main"] ∧
      (∀ f, f ∈ linked.files ↔ Relation.ReflTransGen (Imports source) "/main" f) ∧
      linked.program.statements =
        linked.files.flatMap fun f => (source f).filter fun node => !node.isImport := by
  have h : link MemoryFiles.store "main" circle =
      (.ok ⟨⟨[.declare (.str "z") (.literal .number (.int 3)),
        .declare (.str "y") (.literal .number (.int 2)),
        .declare (.str "x") (.literal .number (.int 1))]⟩, ["/b", "/lib/a", "/main"]⟩, circle) :=
    ok_of_toOption (by decide +kernel) (by decide +kernel)
  obtain ⟨-, source, -, -, -, hreach, hprogram⟩ :=
    link_exactly_once MemoryFiles.store "main" circle circle _ h
  have hentry : VirtualPath.resolve "main" VirtualPath.root = "/main" := by decide +kernel
  rw [hentry] at hreach
  exact ⟨_, source, h, rfl, hreach, hprogram⟩

end ScriptLang.Linked
