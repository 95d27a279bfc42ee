import ScriptLang.Compilation
import ScriptLang.Proofs.Artifact
import ScriptLang.Proofs.Linked.Source
import ScriptLang.Proofs.Linked.Stores

/-!
# Compilations write all or nothing

What a compilation asks of a store is seen by one that records it (`Store.recorded`). The store may
change with every read and write, and break off any of them; nothing is assumed of it.

Results:
* `holds_of_link`: a linked program always has an artifact, which is read as the program;
* `compile_all_or_nothing`: a compilation writes at most once, after all its reads, and only the
  artifact of a program that was linked.
-/
namespace ScriptLang

variable {σ : Type}

/-! ## The record of a store -/

/-- What is asked of a store. -/
inductive Access where
  | read (path : String)
  | write (path : String) (bytes : Bytes)
  deriving DecidableEq, Repr

/-- The store, with a record of what it was asked, the latest at the end. -/
def Store.recorded (store : Store (StateM σ)) : Store (StateM (σ × List Access)) where
  read path := fun (s, record) =>
    ((store.read path s).1, (store.read path s).2, record ++ [.read path])
  write path bytes := fun (s, record) =>
    ((store.write path bytes s).1, (store.write path bytes s).2, record ++ [.write path bytes])

/-- A recorded store is in a state of the store, and was asked for files only. -/
def Store.OnlyRead (s : σ) (recorded : σ × List Access) : Prop :=
  ∃ reads : List String, recorded = (s, reads.map .read)

theorem Store.readsAlike_recorded (store : Store (StateM σ)) :
    store.ReadsAlike OnlyRead store.recorded := by
  rintro path s _ ⟨reads, rfl⟩
  exact ⟨rfl, reads ++ [path], by simp [recorded]⟩

theorem link_recorded (store : Store (StateM σ)) (entry : String) (s : σ) :
    ∃ reads : List String, link store.recorded entry (s, []) =
      ((link store entry s).1, (link store entry s).2, reads.map .read) := by
  obtain ⟨hresult, reads, hstate⟩ :=
    Linked.link_alike store.readsAlike_recorded entry (s := s) (t := (s, [])) ⟨[], rfl⟩
  exact ⟨reads, Prod.ext hresult.symm hstate⟩

/-! ## Artifacts of linked programs -/

/-- The bytes are the artifact of the program: they are read as the program, and so is any other
container with the text of the program in it. -/
structure Artifact.Holds (artifact : Bytes) (p : Program) : Prop where
  built : build p = .ok artifact
  decoded : decode artifact = .ok p
  packed : ∀ packed, Gzip.decompress packed = .ok (Text.utf8 (payload p)) →
    decode (tag ++ packed) = .ok p

theorem Artifact.holds_encode {p : Program} (h : ∀ v ∈ Node.allValues p.statements, v.IsSound) :
    Holds (encode p) p where
  built := if_pos (isSound_document h).writable
  decoded := decode_tag h (Gzip.decompress_compress _)
  packed _ hpacked := decode_tag h hpacked

theorem Artifact.holds_of_link {store : Store (StateM σ)} {entry : String} {s s' : σ}
    {linked : Linked} (h : link store entry s = (.ok linked, s')) :
    Holds (encode linked.program) linked.program :=
  holds_encode (Program.FromSource.linked h).isSound_values

/-! ## Runs of a compilation -/

theorem compile_failed {store : Store (StateM σ)} {entry output : String} {s s' : σ} {e : LinkError}
    (h : link store entry s = (.error e, s')) :
    compile store entry output s = (Compilation.linkFailed e, s') := by
  simp only [compile, bind, StateT.bind, h]
  rfl

theorem compile_linked {store : Store (StateM σ)} {entry output : String} {s s' : σ} {linked : Linked}
    {artifact : Bytes} (h : link store entry s = (.ok linked, s'))
    (hbuild : Artifact.build linked.program = .ok artifact) :
    compile store entry output s =
      (Compilation.written output linked.files (store.write output artifact s').1,
        (store.write output artifact s').2) := by
  simp only [compile, bind, StateT.bind, h, hbuild]
  rfl

namespace Compilation

/-- The report of a compilation that wrote nothing. -/
structure IsFailure (report : Compilation) : Prop where
  success : report.success = false
  files : report.files = []

theorem isFailure_linkFailed (e : LinkError) : (linkFailed e).IsFailure := by
  unfold linkFailed
  split <;> exact ⟨rfl, rfl⟩

/-- The report tells how the writing of a program ended that was linked from the files. -/
structure Reports (report : Compilation) (files : List String) (result : WriteResult) : Prop where
  success : report.success = true ↔ result = .done
  returned : (∀ failure, result ≠ .failed failure) → report.files = files
  failed : ∀ failure, result = .failed failure → report.files = []

theorem reports_written (output : String) (files : List String) (result : WriteResult) :
    (written output files result).Reports files result := by
  cases result with
  | done | refused =>
    exact ⟨by simp [written], fun _ => rfl, fun _ h => nomatch h⟩
  | failed failure =>
    exact ⟨by simp [written], fun h => absurd rfl (h failure), fun _ _ => rfl⟩

end Compilation

/-- A compilation through any store ends with a report. It asks the store for files, and then to write
at most once.

If the files cannot be linked, it writes nothing and reports a failure. Otherwise it writes the
artifact of the linked program, and the report is one of success iff that was done; the files are
told unless the store broke off. -/
theorem compile_all_or_nothing (store : Store (StateM σ)) (entry output : String) (s : σ) :
    ∃ (report : Compilation) (s' : σ) (reads : List String) (writes : List Bytes),
      compile store entry output s = (report, s') ∧
      compile store.recorded entry output (s, []) =
        (report, s', reads.map .read ++ writes.map (.write output)) ∧
      match link store entry s with
      | (.error _, s₁) => writes = [] ∧ s' = s₁ ∧ report.IsFailure
      | (.ok linked, s₁) => ∃ artifact : Bytes, writes = [artifact] ∧
          Artifact.Holds artifact linked.program ∧ s' = (store.write output artifact s₁).2 ∧
          report.Reports linked.files (store.write output artifact s₁).1 := by
  obtain ⟨reads, hrecorded⟩ := link_recorded store entry s
  rcases hlink : link store entry s with ⟨_ | linked, s₁⟩
  · next e =>
    rw [hlink] at hrecorded
    refine ⟨_, _, reads, [], compile_failed hlink, ?_, rfl, rfl, Compilation.isFailure_linkFailed e⟩
    rw [compile_failed hrecorded, List.map_nil, List.append_nil]
  · rw [hlink] at hrecorded
    have holds := Artifact.holds_of_link hlink
    exact ⟨_, _, reads, [Artifact.encode linked.program], compile_linked hlink holds.built,
      compile_linked hrecorded holds.built, _, rfl, holds, rfl, Compilation.reports_written ..⟩

end ScriptLang
