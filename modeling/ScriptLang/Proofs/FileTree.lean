import ScriptLang.Proofs.HostPath
import ScriptLang.Proofs.Linked.Stores

/-!
# Files that are written and read back

A tree without links has no second way to a place: where a path leads to is told by its segments alone,
if it leads anywhere. So what a store below a root writes to a virtual path is what the host reads at
the path that was meant, however that is spelled.

Results:
* `locate_eq_ok`: the place that a path leads to;
* `read_written`: the host reads what the store has written;
* `link_host`: a link leaves the files alone;
* `link_error_iff`: when a link fails, and why.
-/
namespace ScriptLang

open VirtualPath (IsSegment lead splitSlashes)

namespace Entries

variable {κ α : Type} [BEq κ]

theorem get?_cons (first : κ × α) (rest : List (κ × α)) (key : κ) :
    get? (first :: rest) key = if first.1 == key then some first.2 else get? rest key := by
  rw [get?, List.find?_cons]
  cases first.1 == key <;> rfl

/-- A key has the value that it was given last. -/
theorem get?_set [LawfulBEq κ] (entries : List (κ × α)) (key : κ) (value : α) :
    get? (set entries key value) key = some value := by
  unfold set
  split
  · next hhas =>
    induction entries with
    | nil => cases hhas
    | cons first rest ih =>
      rw [List.map_cons, get?_cons]
      by_cases hfirst : (first.1 == key) = true
      · rw [if_pos hfirst, if_pos hfirst]
      · rw [if_neg hfirst, if_neg hfirst]
        exact ih (by simpa [has, hfirst] using hhas)
  · next hhas =>
    induction entries with
    | nil => rw [List.nil_append, get?_cons, if_pos BEq.rfl]
    | cons first rest ih =>
      obtain ⟨hfirst, hrest⟩ : ¬ (first.1 == key) = true ∧ ¬ has rest key = true := by
        simpa [has] using hhas
      rw [List.cons_append, get?_cons, if_neg hfirst]
      exact ih hrest

end Entries

namespace FileTree

/-- The working directory has names that can stand in a path. -/
def HasNames (t : FileTree) : Prop := ∀ name ∈ t.current, IsSegment name

/-! ## Places -/

theorem enter_eq_ok {t : FileTree} {place place' : Place} {part : List Char}
    (h : t.enter place part = .ok place') : place' = lead place [part] := by
  unfold enter at h
  split at h
  · cases h
  · cases h
  · unfold lead
    rw [List.foldl_cons, List.foldl_nil, VirtualPath.step]
    split at h
    · next hskip =>
      cases h
      rw [if_pos hskip, List.reverse_reverse]
    · next hskip =>
      rw [if_neg hskip]
      split at h
      · next hdots =>
        cases h
        rw [if_pos hdots, List.tail_reverse, List.reverse_reverse]
      · next hdots =>
        split at h
        · cases h
        · cases h
          rw [if_neg hdots, List.reverse_cons, List.reverse_reverse]

theorem foldlM_enter_eq_ok {t : FileTree} {parts : List (List Char)} {place place' : Place}
    (h : parts.foldlM t.enter place = .ok place') : place' = lead place parts := by
  induction parts generalizing place with
  | nil =>
    cases h
    exact (VirtualPath.lead_no_parts _).symm
  | cons part parts ih =>
    rw [List.foldlM_cons] at h
    cases hpart : t.enter place part with
    | error f =>
      rw [hpart] at h
      cases h
    | ok next =>
      rw [hpart] at h
      rw [ih h, enter_eq_ok hpart, ← VirtualPath.lead_append, List.singleton_append]

/-- The place that a path leads to, if it leads anywhere. -/
theorem locate_eq_ok {t : FileTree} {path : String} {place : Place} (h : t.locate path = .ok place) :
    place = lead (if HostPath.isAbsolute path.toList then [] else t.current)
      (splitSlashes path.toList) := by
  unfold locate at h
  dsimp only at h
  split at h
  · cases h
  · split at h
    · cases h
    · split at h
      · cases h
      · exact foldlM_enter_eq_ok h

/-- Walking a path is never refused for what its names are made of. -/
theorem enter_ne_zeroCharacter (t : FileTree) (place : Place) (part : List Char) :
    t.enter place part ≠ .error .zeroCharacter := by
  unfold enter
  split
  · nofun
  · nofun
  · split
    · nofun
    · split
      · nofun
      · split <;> nofun

theorem foldlM_enter_ne_zeroCharacter (t : FileTree) (parts : List (List Char)) (place : Place) :
    parts.foldlM t.enter place ≠ .error .zeroCharacter := by
  induction parts generalizing place with
  | nil => nofun
  | cons part parts ih =>
    rw [List.foldlM_cons]
    cases hpart : t.enter place part with
    | error f =>
      rintro ⟨⟩
      exact enter_ne_zeroCharacter t place part hpart
    | ok next => exact ih next

/-- A path with a zero character leads nowhere, and no other path is refused for one. -/
theorem locate_zeroCharacter_iff {t : FileTree} {path : String} :
    t.locate path = .error .zeroCharacter ↔ '\x00' ∈ path.toList := by
  unfold locate
  dsimp only
  split
  · next hzero => exact ⟨fun _ => by simpa using hzero, fun _ => rfl⟩
  · next hzero =>
    have hno : '\x00' ∉ path.toList := by simpa using hzero
    refine ⟨fun h => ?_, fun h => absurd h hno⟩
    split at h
    · cases h
    · split at h
      · cases h
      · exact absurd h (foldlM_enter_ne_zeroCharacter t _ _)

theorem read_zeroCharacter_iff {t : FileTree} {path : String} :
    t.read path = .error .zeroCharacter ↔ '\x00' ∈ path.toList := by
  rw [← locate_zeroCharacter_iff (t := t)]
  unfold read
  cases hplace : t.locate path with
  | error f =>
    dsimp only [bind, Except.bind]
    rw [Except.error.injEq, Except.error.injEq]
  | ok place =>
    refine ⟨fun h => ?_, nofun⟩
    dsimp only [bind, Except.bind] at h
    split at h <;> cases h

theorem segments_pathOf {place : Place} (h : ∀ name ∈ place, IsSegment name) :
    HostPath.segments (pathOf place).toList = place := by
  rw [pathOf, String.toList_ofList, HostPath.segments_slash, HostPath.segments_joinParts h]

/-- A path leads to the segments that it has when it is seen from the working directory. -/
theorem locate_segments {t : FileTree} (hnames : t.HasNames) {path : String} {place : Place}
    (h : t.locate path = .ok place) :
    place = HostPath.segments (HostPath.join (pathOf t.current).toList path.toList) := by
  rw [locate_eq_ok h]
  cases habsolute : HostPath.isAbsolute path.toList with
  | true =>
    rw [HostPath.join, if_pos habsolute]
    rfl
  | false =>
    have hne : (pathOf t.current).toList ≠ [] := by simp [pathOf]
    rw [HostPath.segments_join hne habsolute, segments_pathOf hnames]
    rfl

/-! ## Changes -/

theorem current_makeDirectory (t : FileTree) (place : Place) :
    (t.makeDirectory place).current = t.current := by
  unfold makeDirectory
  split <;> rfl

theorem current_makeAll (t : FileTree) (place : Place) (used : Nat) (parts : List (List Char)) :
    (t.makeAll place used parts).2.current = t.current := by
  induction parts generalizing t place used with
  | nil =>
    unfold makeAll
    split <;> rfl
  | cons part parts ih =>
    unfold makeAll
    dsimp only
    split
    · rfl
    · split
      · rfl
      · split
        · rfl
        · rw [ih, current_makeDirectory]

/-- A file that is written stands at its place. -/
theorem write_eq_ok {t t' : FileTree} {path : String} {bytes : Bytes}
    (h : t.write path bytes = (.ok (), t')) :
    ∃ place, t.locate path = .ok place ∧ t'.entry? place = some (.file bytes) ∧
      t'.current = t.current := by
  unfold write at h
  split at h
  · cases h
  · next place hplace =>
    split at h
    · cases h
    · next hnot =>
      cases h
      refine ⟨place, hplace, ?_, rfl⟩
      have hne : place ≠ [] := by
        rintro rfl
        exact hnot rfl
      unfold entry?
      rw [if_neg hne]
      exact Entries.get?_set _ _ _
    · cases h
    · cases h

theorem read_eq_ok {t : FileTree} {path : String} {bytes : Bytes} (h : t.read path = .ok bytes) :
    ∃ place, t.locate path = .ok place ∧ t.entry? place = some (.file bytes) := by
  unfold read at h
  cases hplace : t.locate path with
  | error f =>
    rw [hplace] at h
    cases h
  | ok place =>
    rw [hplace] at h
    dsimp only [bind, Except.bind] at h
    split at h
    · next stored hentry =>
      cases h
      exact ⟨place, rfl, hentry⟩
    · cases h
    · cases h

/-! ## The store below a root -/

theorem writeResult_eq_done {r : Except FileFault Unit} (h : Store.Rooted.writeResult r = .done) :
    r = .ok () := by
  unfold Store.Rooted.writeResult at h
  split at h
  · rfl
  · cases h
  · cases h

theorem current_makeDirectories (t : FileTree) (path : String) :
    (t.makeDirectories path).2.current = t.current := current_makeAll ..

theorem workingDirectory_run (t : FileTree) :
    host.workingDirectory t = (pathOf t.current, t) := rfl

theorem readFile_run (t : FileTree) (path : String) :
    host.readFile path t = (t.read path, t) := rfl

theorem bind_run {σ α β : Type} (x : StateM σ α) (k : α → StateM σ β) (s : σ) :
    (x >>= k) s = k (x s).1 (x s).2 := rfl

theorem map_run {σ α β : Type} (f : α → β) (x : StateM σ α) (s : σ) :
    (f <$> x) s = (f (x s).1, (x s).2) := rfl

/-- Writing through the store makes directories and writes a file. -/
theorem store_write_done {t t' : FileTree} {root path : String} {bytes : Bytes}
    (h : (Store.Rooted.store host root).write path bytes t = (.done, t')) :
    ∃ t₁ : FileTree, t₁.current = t.current ∧
      t₁.write (Store.Rooted.hostPath root path) bytes = (.ok (), t') := by
  simp only [Store.Rooted.store, host, bind, StateT.bind] at h
  generalize String.ofList (HostPath.directory (Store.Rooted.hostPath root path).toList) = parent at h
  have hcurrent := current_makeDirectories t parent
  rcases hmade : t.makeDirectories parent with ⟨made, t₁⟩
  rw [hmade] at h hcurrent
  refine ⟨t₁, hcurrent, ?_⟩
  cases made with
  | error f => cases writeResult_eq_done (congrArg Prod.fst h)
  | ok u =>
    dsimp only at h
    rw [map_run, Prod.mk.injEq] at h
    exact Prod.ext (writeResult_eq_done h.1) h.2

/-- What the store has written to the virtual path of a path below its root, the host reads at the path,
if it reads anything there. -/
theorem read_written {t t' : FileTree} {root path v : String} {bytes stored : Bytes}
    (hnames : t.HasNames) (hv : CommandLine.virtualPath (pathOf t.current) path root = .ok v)
    (hwrite : (Store.Rooted.store host (CommandLine.absolute (pathOf t.current) root)).write v bytes t =
      (.done, t'))
    (hread : t'.read path = .ok stored) : stored = bytes := by
  obtain ⟨t₁, hcurrent₁, hwritten⟩ := store_write_done hwrite
  obtain ⟨target, htarget, hentry, hcurrent⟩ := write_eq_ok hwritten
  obtain ⟨place, hplace, hstored⟩ := read_eq_ok hread
  have habsolute : HostPath.isAbsolute (pathOf t.current).toList = true := by
    rw [pathOf, String.toList_ofList]
    rfl
  have hleads := Store.Rooted.segments_hostPath habsolute hv
  have htarget_eq :
      target = HostPath.segments (HostPath.join (pathOf t.current).toList path.toList) := by
    rw [locate_eq_ok htarget, if_pos hleads.isAbsolute]
    exact hleads.segments
  have hplace_eq :
      place = HostPath.segments (HostPath.join (pathOf t.current).toList path.toList) := by
    have hcurrent' : t'.current = t.current := hcurrent.trans hcurrent₁
    have hnames' : t'.HasNames := by
      rw [HasNames, hcurrent']
      exact hnames
    rw [locate_segments hnames' hplace, hcurrent']
  rw [hplace_eq, ← htarget_eq, hentry] at hstored
  cases hstored
  rfl

/-! ## Links -/

/-- A link leaves the files alone. -/
theorem link_host (t : FileTree) (root entry : String) :
    (link (Store.Rooted.store host root) entry t).2 = t := by
  have hreads : (Store.Rooted.store host root).ReadsAlike (fun s s' => s = t ∧ s' = t)
      (Store.Rooted.store host root) := by
    rintro path _ _ ⟨rfl, rfl⟩
    exact ⟨rfl, rfl, rfl⟩
  exact (Linked.link_alike hreads entry ⟨rfl, rfl⟩).2.1

/-- What the store below a root has for a path, as long as the files stay as they are. -/
def sources (t : FileTree) (root path : String) : ReadResult :=
  Store.Rooted.readResult (t.read (Store.Rooted.hostPath root path))

/-- The store breaks off for a zero character in the host path, and for nothing else. -/
theorem sources_failed_iff {t : FileTree} {root path : String} {failure : StoreFailure} :
    t.sources root path = .failed failure ↔
      '\x00' ∈ (Store.Rooted.hostPath root path).toList ∧ failure = Store.Rooted.zeroCharacter := by
  rw [sources, ← read_zeroCharacter_iff (t := t)]
  generalize t.read (Store.Rooted.hostPath root path) = r
  unfold Store.Rooted.readResult
  split
  · next bytes => cases Text.ofFile? bytes <;> simp
  · simp [eq_comm]
  · next f hf =>
    refine ⟨nofun, ?_⟩
    rintro ⟨⟨⟩, -⟩
    exact absurd rfl hf

theorem read_run (t : FileTree) (root path : String) :
    (Store.Rooted.store host root).read path t = (t.sources root path, t) := rfl

/-- A link below a root fails with the error of the first file that is no program, in the order of
the search, unless it uses up its fuel. -/
theorem link_error_iff {t : FileTree} {root entry : String} {e : LinkError}
    (hfuel : (link (Store.Rooted.store host root) entry t).1 ≠ .error .outOfFuel) :
    (link (Store.Rooted.store host root) entry t).1 = .error e ↔ ∃ before file,
      DepthFirst (Linked.importsOf (t.sources root)) (Linked.entryOf entry) (before ++ [file]) ∧
      (∀ f ∈ before, Linked.IsProgram f (t.sources root f)) ∧
      Linked.parseRead file (t.sources root file) = .error e := by
  obtain ⟨log, hlinks⟩ :=
    (Linked.links_of_link (Store.Rooted.store host root) entry t).resolve_left hfuel
  have hanswers := (hlinks.answers.of_still fun path => by rw [read_run]).2
  refine hlinks.error_iff fun e he => ?_
  rw [hanswers e he, read_run]

end FileTree

end ScriptLang
