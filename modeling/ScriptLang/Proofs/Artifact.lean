import ScriptLang.Artifact
import ScriptLang.Proofs.Compression
import ScriptLang.Proofs.Json.Documents
import ScriptLang.Proofs.Node.Documents
import ScriptLang.Proofs.Text.Utf8

/-!
# Artifacts hold programs

Writing a program as an artifact and reading it back, through the layers of the form: trees as
documents, documents as text, text as bytes, bytes in a container.

Result:
* `decode_build`: a program whose names, operators and literal values a text can hold has an
  artifact, and that is read as the program, however its text is compressed.
-/
namespace ScriptLang.Artifact

/-! ## Layers -/

theorem isSound_document {p : Program} (h : ∀ v ∈ Node.allValues p.statements, v.IsSound) :
    (document p).IsSound := by
  refine Node.isSound_toDocument _ ?_
  rw [Node.values]
  exact h

theorem ofDocument_document (p : Program) : ofDocument (document p) = .ok p := by
  rw [ofDocument, document, Node.ofDocument_toDocument]

theorem isTagged_tag (bytes : Bytes) : isTagged (tag ++ bytes) = true := by
  rw [isTagged, List.take_left, beq_self_eq_true]

theorem unwrap_tag {packed : Bytes} {text : String}
    (h : Gzip.decompress packed = .ok (Text.utf8 text)) : unwrap (tag ++ packed) = .ok text := by
  rw [unwrap, if_pos (isTagged_tag packed), List.drop_left, h]
  dsimp only
  rw [Text.ofUtf8_utf8]

/-- The text of a program, however it is compressed, is read as the program. -/
theorem decode_tag {p : Program} (h : ∀ v ∈ Node.allValues p.statements, v.IsSound)
    {packed : Bytes} (hp : Gzip.decompress packed = .ok (Text.utf8 (payload p))) :
    decode (tag ++ packed) = .ok p := by
  have hread : Json.ofText (payload p) = .ok (document p) := Json.ofText_render (isSound_document h)
  rw [decode, unwrap_tag hp]
  dsimp only [bind, Except.bind]
  rw [hread]
  exact ofDocument_document p

/-! ## Artifacts -/

/-- A program whose names, operators and literal values a text can hold has an artifact, and that is
read as the program; so is any other container with the text of the program in it. -/
theorem decode_build (p : Program) (h : ∀ v ∈ Node.allValues p.statements, v.IsSound) :
    build p = .ok (encode p) ∧ decode (encode p) = .ok p ∧
      ∀ packed, Gzip.decompress packed = .ok (Text.utf8 (payload p)) →
        decode (tag ++ packed) = .ok p := by
  have hbuild : build p = .ok (encode p) := if_pos (isSound_document h).writable
  have hdecode : decode (encode p) = .ok p := decode_tag h (Gzip.decompress_compress _)
  exact ⟨hbuild, hdecode, fun _ hp => decode_tag h hp⟩

/-- Nodes in unusual places: an infinite float beside an integer and the float of its value, an
object as a literal value, a name that is no string, an else branch that is absent and one that is
empty, and a return with and without an argument. -/
def unusual : Program where
  statements := [
    .declare (.arr [.null, .str "a\"b\n"]) (.literal .string (.float (Binary64.infinity true))),
    .expression (.binary (.literal .number (.int (-1))) (.obj [("k", .int 1), ("l", .float 1.0)])
      (.literal .number (.float (-1.0)))),
    .branch (.program []) [.ret none] none,
    .branch (.importFile "lib") [.ret (some (.ret none))] (some []),
    .loop (.identifier (.bool true)) [.function .null [.int 7] [.block [.call (.obj []) []]]]]

theorem decode_unusual :
    (∀ v ∈ Node.allValues unusual.statements, v.IsSound) ∧ build unusual = .ok (encode unusual) ∧
      decode (encode unusual) = .ok unusual := by
  have hsound : ∀ v ∈ Node.allValues unusual.statements, v.IsSound := by decide +kernel
  obtain ⟨hbuild, hdecode, -⟩ := decode_build unusual hsound
  exact ⟨hsound, hbuild, hdecode⟩

end ScriptLang.Artifact
