import ScriptLang.CommandLine
import ScriptLang.Proofs.Artifact
import ScriptLang.Proofs.Node.Faults

/-!
# Faults that decoding does not report

Bytes that are no artifact of a program are reported as such, except for one kind of document: if a
scalar stands where the items of a list are gone through, the failure to go through it escapes.

Results:
* `decode_wrap`: decoding an artifact with a document in it reads the document;
* `decode_reports_iff`: decoding gives a program or an error that is reported iff the reading of the
  document does not stumble over such a scalar.
-/
namespace ScriptLang

/-- The error is not reported as one of the artifact: whoever loads it fails in another way. -/
def ArtifactError.Escapes (e : ArtifactError) : Prop :=
  ∃ failure, CommandLine.LoadError.ofArtifact e = .failed failure

theorem ArtifactError.escapes_iff {e : ArtifactError} :
    e.Escapes ↔ ∃ found, e = .badForm (.notIterable found) := by
  constructor
  · rintro ⟨failure, h⟩
    unfold CommandLine.LoadError.ofArtifact at h
    split at h
    · next found => exact ⟨found, rfl⟩
    · cases h
  · rintro ⟨found, rfl⟩
    exact ⟨_, rfl⟩

namespace Artifact

open Node (GetsTo Stumbles)

theorem decode_of_unwrap {bytes : Bytes} {text : String} {j : Json} (htext : unwrap bytes = .ok text)
    (hj : Json.ofText text = .ok j) : decode bytes = ofDocument j := by
  rw [decode, htext]
  dsimp only [bind, Except.bind]
  rw [hj]

/-- Decoding an artifact with a document in it reads the document. -/
theorem decode_wrap {j : Json} (h : j.IsSound) : decode (wrap (j.render .compact)) = ofDocument j :=
  decode_of_unwrap (unwrap_tag (Gzip.decompress_compress _)) (Json.ofText_render h)

/-- Only the document can let a failure escape. -/
theorem ofDocument_of_escapes {bytes : Bytes} {e : ArtifactError} (h : decode bytes = .error e)
    (he : e.Escapes) :
    ∃ text j, unwrap bytes = .ok text ∧ Json.ofText text = .ok j ∧ ofDocument j = .error e := by
  obtain ⟨found, rfl⟩ := ArtifactError.escapes_iff.mp he
  cases htext : unwrap bytes with
  | error e =>
    rw [decode, htext] at h
    cases h
    unfold unwrap at htext
    split at htext
    · split at htext
      · cases htext
      · split at htext <;> cases htext
    · cases htext
  | ok text =>
    cases hj : Json.ofText text with
    | error fault =>
      rw [decode, htext] at h
      dsimp only [bind, Except.bind] at h
      rw [hj] at h
      cases h
    | ok j => exact ⟨text, j, rfl, hj, (decode_of_unwrap htext hj).symm.trans h⟩

theorem ofDocument_notIterable_iff {j : Json} {found : String} :
    ofDocument j = .error (.badForm (.notIterable found)) ↔
      ∃ v, Stumbles j v ∧ v.kindName = found := by
  rw [← Node.notIterable_iff_stumbles]
  unfold ofDocument
  constructor
  · intro h
    split at h
    · cases h
    · cases h
    · next fault hfault =>
      cases h
      exact hfault
  · intro h
    rw [h]

/-- The failure that escapes names the scalar. -/
theorem decode_of_stumbles {bytes : Bytes} {text : String} {j v : Json}
    (htext : unwrap bytes = .ok text) (hj : Json.ofText text = .ok j) (h : Stumbles j v) :
    decode bytes = .error (.badForm (.notIterable v.kindName)) :=
  (decode_of_unwrap htext hj).trans (ofDocument_notIterable_iff.mpr ⟨v, h, rfl⟩)

/-- The failure that escapes comes from a document whose reading stumbles. -/
theorem stumbles_of_escapes {bytes : Bytes} {e : ArtifactError} (h : decode bytes = .error e)
    (he : e.Escapes) :
    ∃ text j v, unwrap bytes = .ok text ∧ Json.ofText text = .ok j ∧ Stumbles j v ∧
      e = .badForm (.notIterable v.kindName) := by
  obtain ⟨text, j, htext, hj, hdocument⟩ := ofDocument_of_escapes h he
  obtain ⟨found, rfl⟩ := ArtifactError.escapes_iff.mp he
  obtain ⟨v, hstumbles, rfl⟩ := ofDocument_notIterable_iff.mp hdocument
  exact ⟨text, j, v, htext, hj, hstumbles, rfl⟩

theorem isTagged_of_unwrap {bytes : Bytes} {text : String} (h : unwrap bytes = .ok text) :
    isTagged bytes = true := by
  unfold unwrap at h
  split at h
  · assumption
  · cases h

/-- Whatever the bytes are, decoding gives a program or an error that is reported as one of the
artifact, iff they hold no document whose reading stumbles over a scalar in place of a list. -/
theorem decode_reports_iff (bytes : Bytes) :
    ((∃ p, decode bytes = .ok p) ∨ ∃ e, decode bytes = .error e ∧ ¬ e.Escapes) ↔
      ∀ text j v, unwrap bytes = .ok text → Json.ofText text = .ok j → ¬ Stumbles j v := by
  constructor
  · intro h text j v htext hj hstumbles
    have hdecode := decode_of_stumbles htext hj hstumbles
    rcases h with ⟨p, hp⟩ | ⟨e, he, hreported⟩
    · cases hdecode.symm.trans hp
    · cases hdecode.symm.trans he
      exact hreported (ArtifactError.escapes_iff.mpr ⟨_, rfl⟩)
  · intro h
    cases hdecode : decode bytes with
    | ok p => exact .inl ⟨p, rfl⟩
    | error e =>
      refine .inr ⟨e, rfl, fun hescapes => ?_⟩
      obtain ⟨text, j, htext, hj, hdocument⟩ := ofDocument_of_escapes hdecode hescapes
      obtain ⟨found, rfl⟩ := ArtifactError.escapes_iff.mp hescapes
      obtain ⟨v, hstumbles, -⟩ := ofDocument_notIterable_iff.mp hdocument
      exact h text j v htext hj hstumbles

/-- A program object with a number for its body. -/
def numericBody : Json := .obj [("type", .str "Program"), ("body", .int 5)]

theorem numericBody_escapes :
    ∃ e, decode (wrap "\x7b\"type\":\"Program\",\"body\":5\x7d") = .error e ∧ e.Escapes ∧
      e.message = "'int' object is not iterable" := by
  have htext : numericBody.render .compact = "\x7b\"type\":\"Program\",\"body\":5\x7d" := by
    decide +kernel
  have hgets : GetsTo [("type", .str "Program"), ("body", .int 5)] "body" (.many .node) (.int 5) :=
    ⟨rfl, "Program", [], [], rfl, rfl, nofun⟩
  have hread : ofDocument numericBody = .error (.badForm (.notIterable "int")) :=
    ofDocument_notIterable_iff.mpr ⟨.int 5, .list hgets (.int 5) nofun, rfl⟩
  rw [← htext]
  exact ⟨_, (decode_wrap (by decide +kernel)).trans hread, ArtifactError.escapes_iff.mpr ⟨_, rfl⟩, rfl⟩

end Artifact

end ScriptLang
