import ScriptLang.Proofs.Linked.Closure

/-!
# Linked files come after what they import

A file is finished when all of its imports have been walked over, so an import is finished before
the file that asks for it, unless it is still being walked over. In that case the file is reached
from it, and the two lie on a circle.

Results:
* `gathers_imports_first`: what a walk finishes stands after its imports, but for those that reach
  it;
* `link_imports_first`: so do the files of a link, and their statements. Without circles every file
  stands after all that it imports, directly or through other files.
-/
namespace ScriptLang.Linked

variable {σ : Type}

/-- The file `f` is in the list, and `g` stands before it. -/
def Precedes (files : List String) (g f : String) : Prop :=
  ∃ before after, files = before ++ f :: after ∧ g ∈ before

theorem Precedes.append {files : List String} {g f : String} (h : Precedes files g f)
    (more : List String) : Precedes (files ++ more) g f := by
  obtain ⟨before, after, rfl, hg⟩ := h
  exact ⟨before, after ++ more, by simp, hg⟩

theorem Precedes.of_mem {files : List String} {g : String} (h : g ∈ files) (f : String) :
    Precedes (files ++ [f]) g f :=
  ⟨files, [], rfl, h⟩

/-- In a list without repetition the places of two files are their first ones. -/
theorem precedes_iff {files : List String} (hn : files.Nodup) {g f : String} :
    Precedes files g f ↔ f ∈ files ∧ files.idxOf g < files.idxOf f := by
  constructor
  · rintro ⟨before, after, rfl, hg⟩
    have hf : f ∉ before := fun h => (List.nodup_append.mp hn).2.2 f h f (by simp) rfl
    refine ⟨by simp, ?_⟩
    rw [List.idxOf_append_of_mem hg, List.idxOf_append_of_notMem hf]
    have := List.idxOf_lt_length_of_mem hg
    omega
  · rintro ⟨hf, hlt⟩
    obtain ⟨before, after, rfl⟩ := List.append_of_mem hf
    refine ⟨before, after, rfl, ?_⟩
    by_contra hg
    rw [List.idxOf_append_of_notMem hg] at hlt
    have hf : f ∉ before := fun h => (List.nodup_append.mp hn).2.2 f h f (by simp) rfl
    rw [List.idxOf_append_of_notMem hf, List.idxOf_cons_self] at hlt
    omega

theorem Precedes.trans {files : List String} (hn : files.Nodup) {g h f : String}
    (h₁ : Precedes files g h) (h₂ : Precedes files h f) : Precedes files g f := by
  rw [precedes_iff hn] at h₁ h₂ ⊢
  exact ⟨h₂.1, Nat.lt_trans h₁.2 h₂.2⟩

/-- Every visited file is finished, or it reaches all that the statements import: it is the file of
the statements, or one on the way to it. -/
def Pending (source : String → List Node) (directory : String) (nodes : List Node) (p : Progress) :
    Prop :=
  ∀ h ∈ p.visited, h ∈ p.files ∨ ∀ path, .importFile path ∈ nodes →
    Relation.TransGen (Imports source) h (VirtualPath.resolve path directory)

theorem Pending.tail {source : String → List Node} {directory : String} {node : Node}
    {nodes : List Node} {p : Progress} (h : Pending source directory (node :: nodes) p) :
    Pending source directory nodes p := by
  intro f hf
  rcases h f hf with hf | hf
  · exact .inl hf
  · exact .inr fun path hp => hf path (List.mem_cons_of_mem node hp)

/-- A file that is about to be walked over reaches its own imports, and those on the way to it reach
them through it. -/
theorem Pending.below {source : String → List Node} {directory path target : String}
    {nodes : List Node} {p : Progress} (ht : VirtualPath.resolve path directory = target)
    (h : Pending source directory (.importFile path :: nodes) p) :
    Pending source (VirtualPath.directory target) (source target)
      ⟨target :: p.visited, p.files⟩ := by
  intro f hf
  rcases List.mem_cons.mp hf with rfl | hf
  · exact .inr fun q hq => .single ⟨q, hq, rfl⟩
  · rcases h f hf with hf | hf
    · exact .inl hf
    · refine .inr fun q hq => ?_
      have hr := hf path List.mem_cons_self
      rw [ht] at hr
      exact hr.tail ⟨q, hq, rfl⟩

theorem Pending.after {source : String → List Node} {directory path target : String}
    {nodes below : List Node} {p p₁ : Progress} {done : List String}
    (h : Pending source directory (.importFile path :: nodes) p)
    (v : Visit source (VirtualPath.directory target) (source target)
      ⟨target :: p.visited, p.files⟩ below p₁ done) :
    Pending source directory nodes ⟨p₁.visited, p₁.files ++ [target]⟩ := by
  intro f hf
  have hfiles : p₁.files = p.files ++ done := v.files
  rcases List.mem_append.mp (v.visited.mem_iff.mp hf) with hf | hf
  · exact .inl (by simp [hfiles, hf])
  · rcases List.mem_cons.mp hf with rfl | hf
    · exact .inl (by simp)
    · rcases h.tail f hf with hf | hf
      · exact .inl (by simp [hfiles, hf])
      · exact .inr hf

/-- The files that a walk finishes stand after their imports, but for those that reach them. -/
theorem gathers_imports_first {source : String → List Node} {directory : String}
    {nodes body : List Node} {p p' : Progress} (h : Gathers source directory nodes p body p')
    (hp : Pending source directory nodes p) :
    ∀ f ∈ p'.files, f ∉ p.files → ∀ g, Imports source f g → f ≠ g →
      Precedes p'.files g f ∨ Relation.TransGen (Imports source) g f := by
  induction h with
  | done directory p => exact fun f hf hn => absurd hf hn
  | seen _ _ ih => exact ih hp.tail
  | skip _ _ ih => exact ih hp.tail
  | @visit directory path target nodes below after p p₁ p₂ ht hv h₁ h₂ ih₁ ih₂ =>
    obtain ⟨done₁, v₁⟩ := gathers_visit h₁
    obtain ⟨done₂, v₂⟩ := gathers_visit h₂
    have hfiles₁ : p₁.files = p.files ++ done₁ := v₁.files
    have hfiles₂ : p₂.files = p₁.files ++ [target] ++ done₂ := v₂.files
    intro f hf hn g hi hne
    by_cases hbelow : f ∈ p₁.files
    · -- finished below the target
      rcases ih₁ (hp.below ht) f hbelow hn g hi hne with hg | hg
      · rw [hfiles₂, List.append_assoc]
        exact .inl (hg.append _)
      · exact .inr hg
    · by_cases htarget : f = target
      · -- the target itself, whose imports have all been visited by now
        subst htarget
        obtain ⟨q, hq, rfl⟩ := hi
        have hg := v₁.visited.mem_iff.mp (v₁.targets q hq)
        have finished : ∀ g ∈ p₁.files, Precedes p₂.files g f := fun g hg => by
          rw [hfiles₂]
          exact (Precedes.of_mem hg f).append done₂
        rcases List.mem_append.mp hg with hg | hg
        · exact .inl (finished _ (by simp [hfiles₁, hg]))
        · rcases List.mem_cons.mp hg with hg | hg
          · exact absurd hg.symm hne
          · rcases hp _ hg with hg | hg
            · exact .inl (finished _ (by simp [hfiles₁, hg]))
            · have hr := hg path List.mem_cons_self
              rw [ht] at hr
              exact .inr hr
      · exact ih₂ (hp.after v₁) f hf (by simp [hbelow, htarget]) g hi hne

/-- What a link that succeeds has read and gathered: each of its files once, with the entry at the
end. -/
theorem linkWith_files {store : Store (StateM σ)} {fuel : Nat} {path : String} {s s' : σ}
    {linked : Linked} (h : linkWith fuel store path s = (.ok linked, s')) :
    ∃ log source body p', store.Answers s log s' ∧
      (∀ f, f ∈ log.map Prod.fst ↔ f ∈ linked.files) ∧ Agrees source log ∧
      Gathers source (VirtualPath.directory (entryOf path)) (source (entryOf path))
        ⟨[entryOf path], []⟩ body p' ∧
      linked.files = p'.files ++ [entryOf path] ∧ linked.files.Nodup ∧
      linked.program.statements = linked.files.flatMap fun f => own (source f) := by
  obtain ⟨log, p', hanswers, hnodup, hreads, hparsed, hwalk⟩ := linkWith_run h
  have hagrees := agrees_sourceOf hnodup hparsed
  obtain ⟨body, hg, rfl⟩ := hwalk _ hagrees
  obtain ⟨done, v⟩ := gathers_visit hg
  have hfiles : p'.files = done := by simpa using v.files
  have hlog : (log.map Prod.fst).Perm (done ++ [entryOf path]) := hreads.trans v.visited
  refine ⟨log, sourceOf log, body, p', hanswers, ?_, hagrees, hg, rfl, ?_, ?_⟩
  · intro f
    rw [hfiles]
    exact hlog.mem_iff
  · rw [hfiles]
    exact hlog.nodup_iff.mp hnodup
  · rw [hfiles, List.flatMap_append, ← v.body]
    simp

/-- The files of a walk from the entry, and then the entry, stand after their imports, but for those
that reach them. -/
theorem linkWith_imports_first {source : String → List Node} {entry : String} {body : List Node}
    {p' : Progress}
    (hg : Gathers source (VirtualPath.directory entry) (source entry) ⟨[entry], []⟩ body p')
    {f g : String} (hf : f ∈ p'.files ++ [entry]) (hi : Imports source f g) (hne : f ≠ g) :
    Precedes (p'.files ++ [entry]) g f ∨ Relation.TransGen (Imports source) g f := by
  have hp : Pending source (VirtualPath.directory entry) (source entry) ⟨[entry], []⟩ := by
    intro h hh
    rw [List.mem_singleton.mp hh]
    exact .inr fun q hq => .single ⟨q, hq, rfl⟩
  rcases List.mem_append.mp hf with hf | hf
  · rcases gathers_imports_first hg hp f hf (by simp) g hi hne with h | h
    · exact .inl (h.append _)
    · exact .inr h
  · rw [List.mem_singleton.mp hf] at hi hne ⊢
    obtain ⟨done, v⟩ := gathers_visit hg
    have hfiles : p'.files = done := by simpa using v.files
    obtain ⟨q, hq, rfl⟩ := hi
    rcases List.mem_append.mp (v.visited.mem_iff.mp (v.targets q hq)) with h | h
    · exact .inl (.of_mem (hfiles ▸ h) _)
    · exact absurd (List.mem_singleton.mp h).symm hne

/-- The file `g` stands before the file `f` in a linked program, with all of its statements before
all statements of `f`. -/
def Before (source : String → List Node) (linked : Linked) (g f : String) : Prop :=
  ∃ a b c, linked.files = a ++ g :: (b ++ f :: c) ∧
    linked.program.statements =
      a.flatMap (fun f => own (source f)) ++ own (source g) ++
        (b.flatMap (fun f => own (source f)) ++ own (source f) ++
          c.flatMap fun f => own (source f))

theorem Precedes.before {source : String → List Node} {linked : Linked}
    (hs : linked.program.statements = linked.files.flatMap fun f => own (source f)) {g f : String}
    (h : Precedes linked.files g f) : Before source linked g f := by
  obtain ⟨before, c, hfiles, hg⟩ := h
  obtain ⟨a, b, rfl⟩ := List.append_of_mem hg
  have hfiles : linked.files = a ++ g :: (b ++ f :: c) := by simpa using hfiles
  exact ⟨a, b, c, hfiles, by rw [hs, hfiles, own_flatMap, own_flatMap]⟩

/-- The files of a link stand in the order of their dependencies; `source` is what they hold. A file
comes after each other file that it imports, unless that one reaches it again, and so do its
statements. If no file reaches itself, it comes after all that it reaches. -/
theorem link_imports_first (store : Store (StateM σ)) (fuel : Nat) (path : String) (s s' : σ)
    (linked : Linked) (h : linkWith fuel store path s = (.ok linked, s')) :
    ∃ (log : List (String × ReadResult)) (source : String → List Node),
      (store.Answers s log s' ∧ (∀ f, f ∈ log.map Prod.fst ↔ f ∈ linked.files) ∧
        ∀ e ∈ log, parseRead e.1 e.2 = .ok ⟨source e.1⟩) ∧
      linked.files.Nodup ∧
      (∀ f ∈ linked.files, ∀ g, Imports source f g → f ≠ g →
        ¬ Relation.ReflTransGen (Imports source) g f → Before source linked g f) ∧
      ((∀ f ∈ linked.files, ¬ Relation.TransGen (Imports source) f f) →
        ∀ f ∈ linked.files, ∀ g, Relation.TransGen (Imports source) f g →
          Before source linked g f) := by
  obtain ⟨log, source, body, p', hanswers, hreads, hagrees, hg, hfiles, hnodup, hs⟩ :=
    linkWith_files h
  have direct : ∀ f ∈ linked.files, ∀ g, Imports source f g → f ≠ g →
      ¬ Relation.TransGen (Imports source) g f → Precedes linked.files g f := by
    intro f hf g hi hne hr
    rw [hfiles] at hf ⊢
    exact (linkWith_imports_first hg hf hi hne).resolve_right hr
  refine ⟨log, source, ⟨hanswers, hreads, hagrees⟩, hnodup, ?_, ?_⟩
  · intro f hf g hi hne hr
    exact (direct f hf g hi hne fun h => hr h.to_reflTransGen).before hs
  · intro acyclic f hf g hr
    refine Precedes.before hs ?_
    -- along a chain of imports each file precedes the one before it
    have step : ∀ f ∈ linked.files, ∀ g, Imports source f g → Precedes linked.files g f := by
      intro f hf g hi
      refine direct f hf g hi ?_ fun h => acyclic f hf (.head hi h)
      rintro rfl
      exact acyclic f hf (.single hi)
    induction hr with
    | single hi => exact step f hf _ hi
    | @tail h g _ hi ih =>
      obtain ⟨before, after, hsplit, hh⟩ := ih
      have hmem : h ∈ linked.files := by simp [hsplit, hh]
      exact (step h hmem g hi).trans hnodup ⟨before, after, hsplit, hh⟩

/-- Reading leaves files in memory as they are. -/
theorem answers_memory {s s' : MemoryFiles} {log : List (String × ReadResult)}
    (h : MemoryFiles.store.Answers s log s') :
    s' = s ∧ ∀ e ∈ log, e.2 = (MemoryFiles.store.read e.1 s).1 :=
  h.of_still fun _ => rfl

/-- What a file in memory holds, as a link has read it. -/
theorem source_memory {s s' : MemoryFiles} {log : List (String × ReadResult)}
    {source : String → List Node} {files : List String} {nodes : List Node} {f : String}
    (h : MemoryFiles.store.Answers s log s')
    (hreads : ∀ f, f ∈ log.map Prod.fst ↔ f ∈ files)
    (hparsed : ∀ e ∈ log, parseRead e.1 e.2 = .ok ⟨source e.1⟩) (hf : f ∈ files)
    (hnodes : (parseRead f (MemoryFiles.store.read f s).1).toOption = some ⟨nodes⟩) :
    source f = nodes := by
  obtain ⟨e, he, rfl⟩ := List.mem_map.mp ((hreads f).mpr hf)
  rw [← (answers_memory h).2 e he, hparsed e he] at hnodes
  cases hnodes
  rfl

/-- Two files that import each other, and one that is shared. -/
def shared : MemoryFiles := MemoryFiles.ofTexts [
  ("/main", "import \"lib/a\"; import \"b\"; let x = 1;"),
  ("/lib/a", "import \"c\"; import \"../b\"; let y = 2;"),
  ("/lib/c", "import \"a\"; let w = 4;"),
  ("/b", "let z = 3;")]

theorem link_shared :
    ∃ linked source,
      link MemoryFiles.store "main" shared = (.ok linked, shared) ∧
      linked.files = ["/lib/c", "/b", "/lib/a", "/main"] ∧
      Imports source "/lib/a" "/b" ∧ ¬ Relation.ReflTransGen (Imports source) "/b" "/lib/a" ∧
      Before source linked "/b" "/lib/a" := by
  have h : link MemoryFiles.store "main" shared =
      (.ok ⟨⟨[.declare (.str "w") (.literal .number (.int 4)),
        .declare (.str "z") (.literal .number (.int 3)),
        .declare (.str "y") (.literal .number (.int 2)),
        .declare (.str "x") (.literal .number (.int 1))]⟩,
        ["/lib/c", "/b", "/lib/a", "/main"]⟩, shared) :=
    ok_of_toOption (by decide +kernel) (by decide +kernel)
  obtain ⟨log, source, ⟨hanswers, hreads, hparsed⟩, -, hbefore, -⟩ :=
    link_imports_first MemoryFiles.store fuel "main" shared shared _ h
  have ha : source "/lib/a" = [.importFile "c", .importFile "../b",
      .declare (.str "y") (.literal .number (.int 2))] :=
    source_memory hanswers hreads hparsed (by simp) (by decide +kernel)
  have hb : source "/b" = [.declare (.str "z") (.literal .number (.int 3))] :=
    source_memory hanswers hreads hparsed (by simp) (by decide +kernel)
  have hi : Imports source "/lib/a" "/b" := by
    refine ⟨"../b", by simp [ha], ?_⟩
    decide +kernel
  have hr : ¬ Relation.ReflTransGen (Imports source) "/b" "/lib/a" := by
    intro hr
    rcases hr.cases_head with he | ⟨g, ⟨path, hp, -⟩, -⟩
    · exact absurd he (by decide)
    · simp [hb] at hp
  exact ⟨_, source, h, rfl, hi, hr, hbefore "/lib/a" (by simp) "/b" hi (by decide) hr⟩

end ScriptLang.Linked
