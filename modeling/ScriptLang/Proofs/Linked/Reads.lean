import ScriptLang.Proofs.Linked.DepthFirst
import ScriptLang.Proofs.Linked.Order
import ScriptLang.Proofs.Linked.Walk

/-!
# What a link reads, and when it fails

A link reads files in the order in which a depth-first search over their imports comes to them, and
it ends where that search comes to a file that is no program.

Results:
* `Walks.depthFirst`: a walk reads the files in depth-first preorder;
* `exists_link`: a link comes to an end, with what it reads and the fuel that it needs (`Links`);
* `Links.error_iff`: it fails at the first file in that order that is no program;
* `link_reads_preorder`: a link reads, in this order, all files that the entry reaches, or those up
  to the first one that is no program, of which it reports the error.
-/
namespace ScriptLang.Linked

variable {σ : Type} {store : Store (StateM σ)} {s s' : σ} {directory : String} {nodes : List Node}
  {p : Progress} {log : List (String × ReadResult)} {r : Except LinkError (List Node × Progress)}

/-! ## The order of the reads -/

/-- The paths that some statements in a directory import, in their order. -/
def targets (directory : String) (nodes : List Node) : List String :=
  nodes.filterMap fun node =>
    match node with
    | .importFile path => some (VirtualPath.resolve path directory)
    | _ => none

/-- The paths that a file imports, in their order. A file that cannot be read or is no program
imports none. -/
def importsOf (files : String → ReadResult) (f : String) : List String :=
  match parseRead f (files f) with
  | .ok p => targets (VirtualPath.directory f) p.statements
  | .error _ => []

theorem targets_skip {directory : String} {node : Node} (nodes : List Node)
    (h : node.isImport = false) : targets directory (node :: nodes) = targets directory nodes := by
  cases node with
  | importFile path => cases h
  | _ => rfl

theorem targets_import {directory path target : String} (nodes : List Node)
    (ht : VirtualPath.resolve path directory = target) :
    targets directory (.importFile path :: nodes) = target :: targets directory nodes := by
  subst ht
  rfl

theorem importsOf_ok {files : String → ReadResult} {f : String} {r : ReadResult} {p : Program}
    (hf : files f = r) (h : parseRead f r = .ok p) :
    importsOf files f = targets (VirtualPath.directory f) p.statements := by
  simp [importsOf, hf, h]

/-- The search goes on below a file that it has come to. -/
theorem search_enter {files : String → ReadResult} {entry target : String} {nodes : List Node}
    {visited rest : List String} (hd : DepthFirst (importsOf files) entry visited.reverse)
    (ha : Awaits (importsOf files) visited.reverse (target :: rest)) (hv : target ∉ visited)
    (himports : importsOf files target = targets (VirtualPath.directory target) nodes) :
    DepthFirst (importsOf files) entry (target :: visited).reverse ∧
      Awaits (importsOf files) (target :: visited).reverse
        (targets (VirtualPath.directory target) nodes) := by
  rw [List.reverse_cons, ← himports]
  exact ⟨hd.visit ⟨by simpa using hv, rest, ha⟩, .enter _ _ _⟩

/-- A walk reads the files in depth-first preorder; if it succeeds, it has come to all that its
statements import, and to all that is imported by what it has read. -/
theorem Walks.depthFirst (w : Walks store s directory nodes p log r s')
    {files : String → ReadResult} (hf : ∀ e ∈ log, files e.1 = e.2) {entry : String}
    (hd : DepthFirst (importsOf files) entry p.visited.reverse)
    (ha : Awaits (importsOf files) p.visited.reverse (targets directory nodes)) :
    DepthFirst (importsOf files) entry (p.visited.reverse ++ log.map Prod.fst) ∧
      (r.isOk = true →
        (∀ x ∈ targets directory nodes, x ∈ p.visited.reverse ++ log.map Prod.fst) ∧
        ∀ f ∈ log.map Prod.fst, ∀ x ∈ importsOf files f,
          x ∈ p.visited.reverse ++ log.map Prod.fst) := by
  induction w with
  | done => simpa [targets] using hd
  | skip hi _ ih =>
    rw [targets_skip _ hi] at ha ⊢
    exact ih hf hd ha
  | @seen s s' directory path nodes p log r hv _ ih =>
    have hmem := List.mem_reverse.mpr hv
    rw [targets_import nodes rfl] at ha ⊢
    obtain ⟨h, hall⟩ := ih hf hd (ha.seen hmem)
    refine ⟨h, fun hr => ⟨?_, (hall hr).2⟩⟩
    exact List.forall_mem_cons.mpr ⟨List.mem_append_left _ hmem, (hall hr).1⟩
  | @unusable s directory path target nodes p e ht hv hparse =>
    rw [targets_import nodes ht] at ha
    exact ⟨hd.visit ⟨by simpa using hv, _, ha⟩, by rintro ⟨⟩⟩
  | @broken s s' directory path target nodes p imported log e ht hv hparse _ ih =>
    rw [targets_import nodes ht] at ha
    obtain ⟨hf₀, hf⟩ := List.forall_mem_cons.mp hf
    obtain ⟨hd, ha⟩ := search_enter hd ha hv (importsOf_ok hf₀ hparse)
    have h := (ih hf hd ha).1
    exact ⟨by simpa using h, by rintro ⟨⟩⟩
  | @visit s s₁ s₂ directory path target nodes body p p₁ imported log₁ log₂ r ht hv hparse w₁ _ ih₁
      ih₂ =>
    rw [targets_import nodes ht] at ha ⊢
    obtain ⟨hf₀, hf⟩ := List.forall_mem_cons.mp hf
    obtain ⟨hf₁, hf₂⟩ := List.forall_mem_append.mp hf
    have htarget := importsOf_ok hf₀ hparse
    obtain ⟨hd₁, ha₁⟩ := search_enter hd ha hv htarget
    obtain ⟨h₁, hall₁⟩ := ih₁ hf₁ hd₁ ha₁
    obtain ⟨htargets, himports⟩ := hall₁ rfl
    -- the target and what was read below it are finished
    have hvisited : p₁.visited.reverse = p.visited.reverse ++ target :: log₁.map Prod.fst := by
      rw [w₁.visited]
      simp
    rw [← w₁.visited, hvisited] at h₁ htargets himports
    have hclosed : ∀ f ∈ target :: log₁.map Prod.fst, ∀ x ∈ importsOf files f,
        x ∈ p.visited.reverse ++ target :: log₁.map Prod.fst := by
      intro f hmem x hx
      rcases List.mem_cons.mp hmem with rfl | hmem
      · rw [htarget] at hx
        exact htargets x hx
      · exact himports f hmem x hx
    rw [hvisited] at ih₂
    obtain ⟨h₂, hall₂⟩ := ih₂ hf₂ h₁ (ha.leave hclosed)
    have hall : p.visited.reverse ++ target :: log₁.map Prod.fst ++ log₂.map Prod.fst =
        p.visited.reverse ++ ((target, (store.read target s).1) :: (log₁ ++ log₂)).map Prod.fst := by
      simp
    rw [hall] at h₂ hall₂
    refine ⟨h₂, fun hr => ?_⟩
    have hr : r.isOk = true := by
      cases r with
      | error e => exact hr
      | ok _ => rfl
    obtain ⟨htargets₂, himports₂⟩ := hall₂ hr
    refine ⟨List.forall_mem_cons.mpr ⟨by simp, htargets₂⟩, fun f hmem x hx => ?_⟩
    rw [List.map_cons, List.map_append, ← List.cons_append] at hmem
    rcases List.mem_append.mp hmem with hmem | hmem
    · rw [← hall]
      exact List.mem_append_left _ (hclosed f hmem x hx)
    · exact himports₂ f hmem x hx

/-! ## Success and failure -/

/-- The read gave a program. -/
def IsProgram (path : String) (r : ReadResult) : Prop := ∃ p, parseRead path r = .ok p

/-- The reads account for a result: all gave programs, or the last one gave the error. -/
def Explains {β : Type} (log : List (String × ReadResult)) : Except LinkError β → Prop
  | .ok _ => ∀ e ∈ log, IsProgram e.1 e.2
  | .error error => ∃ before e, log = before ++ [e] ∧ (∀ d ∈ before, IsProgram d.1 d.2) ∧
      parseRead e.1 e.2 = .error error

theorem Explains.append {β γ : Type} {log more : List (String × ReadResult)}
    {r : Except LinkError β} {r' : Except LinkError γ} (hlog : ∀ e ∈ log, IsProgram e.1 e.2)
    (h : Explains more r) (f : β → γ) (hr : r' = r.map f) : Explains (log ++ more) r' := by
  subst hr
  cases r with
  | ok b => exact List.forall_mem_append.mpr ⟨hlog, h⟩
  | error error =>
    obtain ⟨before, e, rfl, hbefore, he⟩ := h
    exact ⟨log ++ before, e, by simp, List.forall_mem_append.mpr ⟨hlog, hbefore⟩, he⟩

theorem Walks.explains (w : Walks store s directory nodes p log r s') :
    Explains log r := by
  induction w with
  | done => simp [Explains]
  | skip _ _ ih => exact ih
  | seen _ _ ih => exact ih
  | unusable _ _ hparse => exact ⟨[], _, rfl, by simp, hparse⟩
  | broken _ _ hparse _ ih =>
    exact Explains.append (List.forall_mem_singleton.mpr ⟨_, hparse⟩) ih id rfl
  | visit _ _ hparse _ _ ih₁ ih₂ =>
    exact Explains.append (List.forall_mem_cons.mpr ⟨⟨_, hparse⟩, ih₁⟩) ih₂ _ rfl

/-- An error of a file names the file, or it is the failure of the store. -/
theorem parseRead_error {path : String} {r : ReadResult} {e : LinkError}
    (h : parseRead path r = .error e) :
    e = .unreadable path ∨ (∃ x, e = .lex path x) ∨ (∃ x, e = .parse path x) ∨
      ∃ x, e = .failed x := by
  cases r with
  | absent =>
    cases h
    exact .inl rfl
  | failed failure =>
    cases h
    exact .inr (.inr (.inr ⟨failure, rfl⟩))
  | text t =>
    simp only [parseRead, parseText] at h
    split at h
    · cases h
      exact .inr (.inl ⟨_, rfl⟩)
    · split at h
      · cases h
        exact .inr (.inr (.inl ⟨_, rfl⟩))
      · cases h

/-- The failure of the store is the failure of a read. -/
theorem failed_of_parseRead {path : String} {r : ReadResult} {failure : StoreFailure}
    (h : parseRead path r = .error (.failed failure)) : r = .failed failure := by
  cases r with
  | text source =>
    rw [parseRead, parseText] at h
    split at h
    · cases h
    · split at h <;> cases h
  | absent => cases h
  | failed other =>
    cases h
    rfl

/-- Files are read and parsed without the fuel of a link. -/
theorem Explains.ne_outOfFuel {β : Type} {log : List (String × ReadResult)}
    {r : Except LinkError β} (h : Explains log r) : r ≠ .error .outOfFuel := by
  rintro rfl
  obtain ⟨before, e, -, -, h⟩ := h
  rcases parseRead_error h with he | ⟨x, he⟩ | ⟨x, he⟩ | ⟨x, he⟩ <;> cases he

theorem linkWith_eq (store : Store (StateM σ)) (fuel : Nat) (path : String) :
    linkWith fuel store path =
      load store (entryOf path) >>= fun main =>
        gather store fuel (VirtualPath.directory (entryOf path)) main.statements
            ⟨[entryOf path], []⟩ >>= fun (body, p') =>
          pure ⟨⟨body ++ own main.statements⟩, p'.files ++ [entryOf path]⟩ := rfl

/-- What a link reads and how it ends: it has a result for all fuel above the number of statements
and files that it reads, and less fuel is used up before. -/
structure Links (store : Store (StateM σ)) (path : String) (s : σ)
    (log : List (String × ReadResult)) (result : Except LinkError Linked) (s' : σ) : Prop where
  run : ∀ fuel, linkWith fuel store path s = (result, s') ∨
    fuel ≤ cost log ∧ (linkWith fuel store path s).1 = .error .outOfFuel
  answers : store.Answers s log s'
  nodup : (log.map Prod.fst).Nodup
  explains : Explains log result
  depthFirst : ∀ files : String → ReadResult, (∀ e ∈ log, files e.1 = e.2) →
    DepthFirst (importsOf files) (entryOf path) (log.map Prod.fst)
  closed : ∀ files : String → ReadResult, (∀ e ∈ log, files e.1 = e.2) → result.isOk = true →
    ∀ f ∈ log.map Prod.fst, ∀ x ∈ importsOf files f, x ∈ log.map Prod.fst

/-- A link whose walk uses up the fuel does so itself. -/
theorem linkWith_outOfFuel {store : Store (StateM σ)} {fuel : Nat} {path : String} {s : σ}
    {main : Program}
    (hparse : parseRead (entryOf path) (store.read (entryOf path) s).1 = .ok main)
    (h : (gather store fuel (VirtualPath.directory (entryOf path)) main.statements
      ⟨[entryOf path], []⟩ (store.read (entryOf path) s).2).1 = .error .outOfFuel) :
    (linkWith fuel store path s).1 = .error .outOfFuel := by
  rw [linkWith_eq, bind_run, load_run, hparse]
  dsimp only
  rw [bind_run]
  split
  · next hg =>
    rw [hg] at h
    cases h
  · next hg =>
    rw [hg] at h
    cases h
    rfl

theorem Walks.links {store : Store (StateM σ)} {path : String} {s s' : σ} {main : Program}
    {log : List (String × ReadResult)} {r : Except LinkError (List Node × Progress)}
    (hparse : parseRead (entryOf path) (store.read (entryOf path) s).1 = .ok main)
    (w : Walks store (store.read (entryOf path) s).2 (VirtualPath.directory (entryOf path))
      main.statements ⟨[entryOf path], []⟩ log r s') :
    Links store path s ((entryOf path, (store.read (entryOf path) s).1) :: log)
      (r.map fun (body, p') => ⟨⟨body ++ own main.statements⟩, p'.files ++ [entryOf path]⟩) s'
    where
  run fuel := by
    rw [cost_cons, statementsOf_ok hparse]
    rcases walks_of_gather store fuel (VirtualPath.directory (entryOf path)) main.statements
      ⟨[entryOf path], []⟩ (store.read (entryOf path) s).2 with h | ⟨log', w'⟩
    · refine .inr ⟨?_, linkWith_outOfFuel hparse h⟩
      by_contra hfuel
      rw [w.gather fuel (by omega)] at h
      exact w.explains.ne_outOfFuel h
    · obtain ⟨hr, hs⟩ := w'.unique w
      rw [linkWith_eq, bind_run, load_run, hparse]
      dsimp only
      rw [bind_run, ← hr, ← hs]
      split <;> next hg => rw [hg]; exact .inl rfl
  answers := .cons _ w.answers
  nodup := w.nodup (by simp)
  explains := Explains.append (List.forall_mem_singleton.mpr ⟨_, hparse⟩) w.explains _ rfl
  depthFirst files hf := by
    obtain ⟨hf₀, hf⟩ := List.forall_mem_cons.mp hf
    have hentry := importsOf_ok hf₀ hparse
    exact (w.depthFirst hf .start (hentry ▸ .enter _ [] _)).1
  closed files hf hr := by
    obtain ⟨hf₀, hf⟩ := List.forall_mem_cons.mp hf
    have hentry := importsOf_ok hf₀ hparse
    obtain ⟨htargets, himports⟩ := (w.depthFirst hf .start (hentry ▸ .enter _ [] _)).2
      (by cases r <;> exact hr)
    exact List.forall_mem_cons.mpr ⟨hentry ▸ htargets, himports⟩

/-- An entry that is no program is all that is read. -/
theorem links_unusable {store : Store (StateM σ)} {path : String} {s : σ} {e : LinkError}
    (hparse : parseRead (entryOf path) (store.read (entryOf path) s).1 = .error e) :
    Links store path s [(entryOf path, (store.read (entryOf path) s).1)] (.error e)
      (store.read (entryOf path) s).2 where
  run fuel := by
    rw [linkWith_eq, bind_run, load_run, hparse]
    exact .inl rfl
  answers := .cons _ (.nil _)
  nodup := by simp
  explains := ⟨[], _, rfl, by simp, hparse⟩
  depthFirst _ _ := .start
  closed := by rintro _ _ ⟨⟩

theorem exists_link (store : Store (StateM σ)) (path : String) (s : σ) {readable : List String}
    (hs : store.ReadsOnly s readable) : ∃ log result s', Links store path s log result s' := by
  cases hparse : parseRead (entryOf path) (store.read (entryOf path) s).1 with
  | error e => exact ⟨_, _, _, links_unusable hparse⟩
  | ok main =>
    obtain ⟨log, r, s', w⟩ := exists_walk store readable _ main.statements _
      (VirtualPath.directory (entryOf path)) ⟨[entryOf path], []⟩ (hs.after (.cons _ (.nil _)))
      (Nat.le_refl _)
    exact ⟨_, _, _, w.links hparse⟩

/-- Whatever the store is, a link uses up its fuel or comes to an end. -/
theorem links_of_linkWith (store : Store (StateM σ)) (fuel : Nat) (path : String) (s : σ) :
    (linkWith fuel store path s).1 = .error .outOfFuel ∨
    ∃ log, Links store path s log (linkWith fuel store path s).1
      (linkWith fuel store path s).2 := by
  have hends {log : List (String × ReadResult)} {result : Except LinkError Linked} {s' : σ}
      (h : Links store path s log result s') :
      (linkWith fuel store path s).1 = .error .outOfFuel ∨
      ∃ log, Links store path s log (linkWith fuel store path s).1
        (linkWith fuel store path s).2 := by
    rcases h.run fuel with hrun | ⟨-, hout⟩
    · rw [hrun]
      exact .inr ⟨log, h⟩
    · exact .inl hout
  cases hparse : parseRead (entryOf path) (store.read (entryOf path) s).1 with
  | error e => exact hends (links_unusable hparse)
  | ok main =>
    rcases walks_of_gather store fuel (VirtualPath.directory (entryOf path)) main.statements
      ⟨[entryOf path], []⟩ (store.read (entryOf path) s).2 with hout | ⟨log, w⟩
    · exact .inl (linkWith_outOfFuel hparse hout)
    · exact hends (w.links hparse)

theorem links_of_link (store : Store (StateM σ)) (path : String) (s : σ) :
    (link store path s).1 = .error .outOfFuel ∨
    ∃ log, Links store path s log (link store path s).1 (link store path s).2 :=
  links_of_linkWith store fuel path s

/-! ## Reachable files -/

/-- The entry reaches the file through imports of programs. -/
def ReachesFile (files : String → ReadResult) (entry f : String) : Prop :=
  Relation.ReflTransGen (fun f g => g ∈ importsOf files f) entry f

theorem isNormal_of_mem_targets {directory f : String} {nodes : List Node}
    (h : f ∈ targets directory nodes) : VirtualPath.IsNormal f := by
  obtain ⟨node, -, hnode⟩ := List.mem_filterMap.mp h
  split at hnode
  · cases hnode
    exact VirtualPath.isNormal_resolve _ _
  · cases hnode

theorem isProgram_of_mem_importsOf {files : String → ReadResult} {f g : String}
    (h : g ∈ importsOf files f) : IsProgram f (files f) ∧ VirtualPath.IsNormal g := by
  unfold importsOf at h
  split at h
  · next p hparse => exact ⟨⟨p, hparse⟩, isNormal_of_mem_targets h⟩
  · cases h

theorem ReachesFile.isNormal {files : String → ReadResult} {path f : String}
    (h : ReachesFile files (entryOf path) f) : VirtualPath.IsNormal f := by
  cases h with
  | refl => exact VirtualPath.isNormal_resolve _ _
  | tail _ hg => exact (isProgram_of_mem_importsOf hg).2

/-- What is reached is the entry, or it is imported by a file that can be read. -/
theorem ReachesFile.mem {files : String → ReadResult} {readable : List String}
    (hfiles : ∀ f, VirtualPath.IsNormal f → ∀ text, files f = .text text → f ∈ readable)
    {path f : String} (h : ReachesFile files (entryOf path) f) :
    f ∈ entryOf path :: readable.flatMap (importsOf files) := by
  cases h with
  | refl => simp
  | @tail f _ hf hg =>
    refine List.mem_cons_of_mem _ (List.mem_flatMap.mpr ⟨f, ?_, hg⟩)
    obtain ⟨⟨p, hparse⟩, -⟩ := isProgram_of_mem_importsOf hg
    obtain ⟨text, htext⟩ := text_of_parseRead hparse
    exact hfiles f (isNormal hf) text htext

/-- The reads of a link are an initial segment of the depth-first order, and all of it if the link
succeeds. -/
theorem Links.exists_order {store : Store (StateM σ)} {path : String} {s s' : σ}
    {log : List (String × ReadResult)} {result : Except LinkError Linked}
    (h : Links store path s log result s') {files : String → ReadResult}
    (hf : ∀ e ∈ log, files e.1 = e.2) {readable : List String}
    (hfiles : ∀ f, VirtualPath.IsNormal f → ∀ text, files f = .text text → f ∈ readable) :
    ∃ order, DepthFirstOrder (importsOf files) (entryOf path) order ∧
      log.map Prod.fst <+: order ∧ (result.isOk = true → log.map Prod.fst = order) := by
  have hd := h.depthFirst files hf
  cases hr : result.isOk with
  | true =>
    have ho : DepthFirstOrder (importsOf files) (entryOf path) (log.map Prod.fst) :=
      ⟨hd, fun v => ⟨hd.reachable, hd.mem_of_closed (h.closed files hf hr)⟩⟩
    exact ⟨_, ho, List.prefix_refl _, fun _ => rfl⟩
  | false =>
    obtain ⟨order, ho⟩ := hd.exists_order _ (fun v hv => ReachesFile.mem hfiles hv) _
      (Nat.le_add_left _ _)
    exact ⟨order, ho, hd.isPrefix ho, by rintro ⟨⟩⟩

theorem Explains.programs {log : List (String × ReadResult)} {result : Except LinkError Linked}
    {files : String → ReadResult} (hf : ∀ e ∈ log, files e.1 = e.2) (h : Explains log result)
    (hr : result.isOk = true) : ∀ f ∈ log.map Prod.fst, IsProgram f (files f) := by
  intro f hmem
  obtain ⟨e, he, rfl⟩ := List.mem_map.mp hmem
  rw [hf e he]
  cases result with
  | ok linked => exact h e he
  | error e => cases hr

/-- The paths of the reads account for a result over the files that they gave. -/
theorem Explains.paths {log : List (String × ReadResult)} {e : LinkError}
    {files : String → ReadResult} (hf : ∀ e ∈ log, files e.1 = e.2)
    (h : Explains log (.error e : Except LinkError Linked)) :
    ∃ before f, log.map Prod.fst = before ++ [f] ∧ (∀ g ∈ before, IsProgram g (files g)) ∧
      parseRead f (files f) = .error e := by
  obtain ⟨before, last, rfl, hbefore, hlast⟩ := h
  obtain ⟨hf₁, hf₂⟩ := List.forall_mem_append.mp hf
  refine ⟨before.map Prod.fst, last.1, by simp, ?_, ?_⟩
  · intro g hg
    obtain ⟨d, hd, rfl⟩ := List.mem_map.mp hg
    rw [hf₁ d hd]
    exact hbefore d hd
  · rw [List.forall_mem_singleton.mp hf₂]
    exact hlast

/-- A link that ends fails with the error of the first file that is no program, in the order of the
search. -/
theorem Links.error_iff {store : Store (StateM σ)} {path : String} {s s' : σ}
    {log : List (String × ReadResult)} {result : Except LinkError Linked}
    (h : Links store path s log result s') {files : String → ReadResult}
    (hf : ∀ e ∈ log, files e.1 = e.2) {error : LinkError} :
    result = .error error ↔ ∃ before f,
      DepthFirst (importsOf files) (entryOf path) (before ++ [f]) ∧
      (∀ g ∈ before, IsProgram g (files g)) ∧ parseRead f (files f) = .error error := by
  have hd := h.depthFirst files hf
  have hprogram {f : String} {error : LinkError} (hparse : parseRead f (files f) = .error error) :
      ¬ IsProgram f (files f) := fun ⟨p, hp⟩ => nomatch hp.symm.trans hparse
  constructor
  · rintro rfl
    obtain ⟨before, f, hlog, hbefore, hparse⟩ := h.explains.paths hf
    exact ⟨before, f, hlog ▸ hd, hbefore, hparse⟩
  · rintro ⟨before, f, hsearch, hbefore, hparse⟩
    cases hresult : result with
    | ok linked =>
      have hok : result.isOk = true := by rw [hresult]; rfl
      have hread : f ∈ log.map Prod.fst :=
        hd.mem_of_closed (h.closed files hf hok) (hsearch.reachable (by simp))
      exact absurd (h.explains.programs hf hok f hread) (hprogram hparse)
    | error other =>
      subst hresult
      obtain ⟨before', f', hlog, hbefore', hparse'⟩ := h.explains.paths hf
      have hsame : f = f' := hsearch.first_unique (P := fun g => ¬ IsProgram g (files g))
        (hlog ▸ hd) (hprogram hparse) (hprogram hparse') (fun g hg => not_not.mpr (hbefore g hg))
        fun g hg => not_not.mpr (hbefore' g hg)
      subst hsame
      cases hparse'.symm.trans hparse
      rfl

/-- From a state of a store in which finitely many paths can be read, every link comes to an end. It
has a `result` for all fuel above the number of statements and files that it reads, and with less it
is that result or the fuel is used up; `link` is `linkWith` with `Linked.fuel`.

It reads no path twice. Over the files as they were read, whatever those that were not read hold
(`files`), the reads begin the depth-first preorder of the files that the entry reaches. If all of
these are programs, the link reads them all and succeeds; otherwise it ends at the first one that is
no program and reports the error of that file. -/
theorem link_reads_preorder (store : Store (StateM σ)) (path : String) (s : σ)
    (readable : List String) (hs : store.ReadsOnly s readable) :
    ∃ (log : List (String × ReadResult)) (result : Except LinkError Linked) (s' : σ),
      (∀ fuel, cost log < fuel → linkWith fuel store path s = (result, s')) ∧
      (∀ fuel, linkWith fuel store path s = (result, s') ∨
        (linkWith fuel store path s).1 = .error .outOfFuel) ∧
      result ≠ .error .outOfFuel ∧ store.Answers s log s' ∧ (log.map Prod.fst).Nodup ∧
      ∀ files : String → ReadResult, (∀ e ∈ log, files e.1 = e.2) →
        (∀ f, VirtualPath.IsNormal f → ∀ text, files f = .text text → f ∈ readable) →
        ∃ order,
          DepthFirstOrder (importsOf files) (VirtualPath.resolve path VirtualPath.root) order ∧
          log.map Prod.fst <+: order ∧
          (result.isOk = true ↔ ∀ f ∈ order, IsProgram f (files f)) ∧
          (result.isOk = true → log.map Prod.fst = order) ∧
          ∀ e, result = .error e → ∃ before f, log.map Prod.fst = before ++ [f] ∧
            (∀ g ∈ before, IsProgram g (files g)) ∧ parseRead f (files f) = .error e := by
  obtain ⟨log, result, s', h⟩ := exists_link store path s hs
  have hne := h.explains.ne_outOfFuel
  refine ⟨log, result, s', ?_, ?_, hne, h.answers, ?_, ?_⟩
  · exact fun fuel hfuel => (h.run fuel).resolve_right fun hout => by omega
  · exact fun fuel => (h.run fuel).imp id And.right
  · exact h.nodup
  · intro files hf hfiles
    obtain ⟨order, ho, hbegins, hall⟩ := h.exists_order hf hfiles
    have hfailed : ∀ e, result = .error e → ∃ before f, log.map Prod.fst = before ++ [f] ∧
        (∀ g ∈ before, IsProgram g (files g)) ∧ parseRead f (files f) = .error e := by
      rintro e rfl
      exact h.explains.paths hf
    refine ⟨order, ho, hbegins, ⟨fun hr => ?_, fun hprograms => ?_⟩, hall, hfailed⟩
    · rw [← hall hr]
      exact h.explains.programs hf hr
    · cases hr : result with
      | ok linked => rfl
      | error e =>
        obtain ⟨before, f, hlog, -, hparse⟩ := hfailed e hr
        obtain ⟨q, hq⟩ := hprograms f (hbegins.subset (by simp [hlog]))
        rw [hq] at hparse
        cases hparse

theorem mem_of_get? {texts : List (String × String)} {f text : String}
    (h : Entries.get? texts f = some text) : f ∈ texts.map Prod.fst := by
  obtain ⟨e, he, rfl⟩ := Option.map_eq_some_iff.mp h
  have hkey : e.1 = f := by simpa using List.find?_some he
  exact List.mem_map.mpr ⟨e, List.mem_of_find?_eq_some he, hkey⟩

/-- Of files in memory those are readable that have a text. -/
theorem readsOnly_memory (s : MemoryFiles) :
    MemoryFiles.store.ReadsOnly s (s.texts.map Prod.fst) := by
  intro log s' ha f hf text htext
  rw [(answers_memory ha).1] at htext
  have hget : (s.text? f).elim ReadResult.absent .text = .text text := htext
  rw [MemoryFiles.text?, MemoryFiles.normal, hf] at hget
  cases h : Entries.get? s.texts f with
  | none =>
    rw [h] at hget
    cases hget
  | some t => exact mem_of_get? h

/-- Two files that import each other, one that is missing, and one that is no program. -/
def partly : MemoryFiles := MemoryFiles.ofTexts [
  ("/main", "import \"lib/a\"; import \"late\";"),
  ("/lib/a", "import \"../b\"; import \"gone\"; let y = 2;"),
  ("/b", "import \"lib/a\"; let z = 3;"),
  ("/late", "@")]

theorem link_partly :
    MemoryFiles.store.ReadsOnly partly ["/main", "/lib/a", "/b", "/late"] ∧
    ∃ log order before,
      link MemoryFiles.store "main" partly = (.error (.unreadable "/lib/gone"), partly) ∧
      MemoryFiles.store.Answers partly log partly ∧
      DepthFirstOrder (importsOf fun f => (MemoryFiles.store.read f partly).1) "/main" order ∧
      log.map Prod.fst <+: order ∧ log.map Prod.fst = before ++ ["/lib/gone"] ∧
      ∀ g ∈ before, IsProgram g (MemoryFiles.store.read g partly).1 := by
  have hs : MemoryFiles.store.ReadsOnly partly ["/main", "/lib/a", "/b", "/late"] :=
    readsOnly_memory partly
  obtain ⟨log, result, s', -, hrun, -, hanswers, -, hfiles⟩ :=
    link_reads_preorder MemoryFiles.store "main" partly _ hs
  obtain ⟨rfl, hread⟩ := answers_memory hanswers
  have hlink : @Eq (Except LinkError Linked × MemoryFiles) (link MemoryFiles.store "main" partly)
      (.error (.unreadable "/lib/gone"), partly) := by decide +kernel
  have hresult : result = .error (.unreadable "/lib/gone") := by
    rcases hrun fuel with h | h
    · exact (Prod.mk.inj (h.symm.trans hlink)).1
    · have hne := (congrArg Prod.fst hlink).symm.trans h
      cases hne
  obtain ⟨order, ho, hbegins, -, -, hfailed⟩ :=
    hfiles (fun f => (MemoryFiles.store.read f partly).1) (fun e he => (hread e he).symm)
      (hs [] _ (.nil _))
  obtain ⟨before, f, hlog, hbefore, hparse⟩ := hfailed _ hresult
  have hentry : VirtualPath.resolve "main" VirtualPath.root = "/main" := by decide +kernel
  rw [hentry] at ho
  have hgone : f = "/lib/gone" := by
    rcases parseRead_error hparse with he | ⟨x, he⟩ | ⟨x, he⟩ | ⟨x, he⟩
    · cases he
      rfl
    all_goals cases he
  rw [hgone] at hlog
  exact ⟨hs, log, order, before, hlink, hanswers, ho, hbegins, hlog, hbefore⟩

end ScriptLang.Linked
