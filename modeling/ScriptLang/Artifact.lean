import ScriptLang.Fault
import ScriptLang.Gzip
import ScriptLang.Json.Reader
import ScriptLang.Json.Writer
import ScriptLang.Node.Document

/-!
# Artifacts

A program as bytes: a tag, and the compressed text of the program's document. `Artifact.build` and
`Artifact.decode` are the two directions (`encode_artifact`, `decode_artifact`); decoding says at
which layer a file that is no artifact goes wrong.
-/
namespace ScriptLang

/-- Why the compressed part of an artifact holds no document. -/
inductive PayloadFault where
  | container (fault : Gzip.Fault)
  | encoding
  | document (fault : Json.ReadFault)
  deriving DecidableEq, Repr

/-- Why bytes are no artifact (`OBPIArtifactError`). -/
inductive ArtifactError where
  | noTag
  | corrupt (fault : PayloadFault)
  | badForm (fault : Node.FormFault)
  | notAProgram
  deriving DecidableEq

namespace ArtifactError

/-- What is wrong with a corrupt payload is not told. -/
def message : ArtifactError → String
  | .noTag => "Missing OEXEC tag"
  | .corrupt _ => "Corrupt artifact payload"
  | .badForm (.notIterable found) => (Node.FormFault.notIterable found).message
  | .badForm fault => "Artifact does not describe a program: " ++ fault.message
  | .notAProgram => "Artifact does not describe a program"

end ArtifactError

namespace Artifact

def tag : Bytes := [0x4f, 0x45, 0x58, 0x45, 0x43]

def document (p : Program) : Json := (Node.program p.statements).toDocument

/-- The text in the artifact of a program. -/
def payload (p : Program) : String := (document p).render .compact

def wrap (payload : String) : Bytes := tag ++ Gzip.compress (Text.utf8 payload)

/-- The artifact of a program whose integers have texts. -/
def encode (p : Program) : Bytes := wrap (payload p)

/-- The artifact of a program (`encode_artifact`), unless the text of an integer in it has too many
digits. -/
def build (p : Program) : Except Breakdown Bytes :=
  if (document p).isWritable then .ok (encode p) else .error .digitLimit

/-- The bytes start with the tag (`is_artifact`). -/
def isTagged (bytes : Bytes) : Bool := bytes.take tag.length == tag

/-- The text in an artifact. -/
def unwrap (bytes : Bytes) : Except ArtifactError String :=
  if isTagged bytes then
    match Gzip.decompress (bytes.drop tag.length) with
    | .error fault => .error (.corrupt (.container fault))
    | .ok data =>
      match Text.ofUtf8? data with
      | none => .error (.corrupt .encoding)
      | some text => .ok text
  else .error .noTag

def ofDocument (j : Json) : Except ArtifactError Program :=
  match Node.ofDocument j with
  | .ok (.program body) => .ok ⟨body⟩
  | .ok _ => .error .notAProgram
  | .error fault => .error (.badForm fault)

/-- The program in an artifact (`decode_artifact`). -/
def decode (bytes : Bytes) : Except ArtifactError Program := do
  match Json.ofText (← unwrap bytes) with
  | .error fault => throw (.corrupt (.document fault))
  | .ok j => ofDocument j

end Artifact

end ScriptLang
