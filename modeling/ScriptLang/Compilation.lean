import ScriptLang.Artifact
import ScriptLang.Linked

/-!
# Compilations

Linking a file and writing the artifact of the program. A compilation never fails otherwise than by
its report; nothing is written unless everything was read.
-/
namespace ScriptLang

/-- What became of a compilation (`CompileResult`). The files are those that were linked, if it came to
writing. -/
structure Compilation where
  success : Bool
  message : String
  files : List String
  deriving DecidableEq, Repr

namespace Compilation

/-- The message for a failure that is no mistake in a source file. -/
def unknown (message : String) : String :=
  "An unknown compilation error occurred: " ++ message

def linkFailed : LinkError → Compilation
  | .failed failure => ⟨false, unknown failure.message, []⟩
  | .parse path (.badNumber text) => ⟨false, unknown ((ParseError.badNumber text).message path), []⟩
  | e => ⟨false, e.message, []⟩

def written (output : String) (files : List String) : WriteResult → Compilation
  | .done => ⟨true, "Compilation successful! Executable created at " ++ output, files⟩
  | .refused => ⟨false, "Compilation failed. Could not write to " ++ output ++ ".", files⟩
  | .failed failure => ⟨false, unknown failure.message, []⟩

end Compilation

/-- Links a file and writes its artifact (`Compiler.compile`). -/
def compile {m : Type → Type} [Monad m] (store : Store m) (entry output : String) :
    m Compilation := do
  match ← link store entry with
  | .error e => return Compilation.linkFailed e
  | .ok linked =>
    match Artifact.build linked.program with
    | .error b => return ⟨false, Compilation.unknown b.message, []⟩
    | .ok artifact =>
      let result ← store.write output artifact
      return Compilation.written output linked.files result

end ScriptLang
