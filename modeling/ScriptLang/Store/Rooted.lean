import ScriptLang.FileTree
import ScriptLang.Store

/-!
# Stores below a directory

A store whose virtual paths are below a directory of the host. As a virtual path has a normal
form without `..`, nothing outside of the directory can be reached.
-/
namespace ScriptLang.Store.Rooted

/-- The host path of a virtual path below a root directory, which is absolute
(`LocalFileStore.host_path`). -/
def hostPath (root path : String) : String :=
  let relative := (VirtualPath.resolve path VirtualPath.root).toList.drop 1
  if relative.isEmpty then root else String.ofList (HostPath.join root.toList relative)

/-- What a zero character in a path leads to. -/
def zeroCharacter : StoreFailure := ⟨"ValueError", FileFault.zeroCharacter.description.2⟩

def readResult : Except FileFault Bytes → ReadResult
  | .ok bytes => (Text.ofFile? bytes).elim .absent .text
  | .error .zeroCharacter => .failed zeroCharacter
  | .error _ => .absent

def writeResult : Except FileFault Unit → WriteResult
  | .ok () => .done
  | .error .zeroCharacter => .failed zeroCharacter
  | .error _ => .refused

/-- The store below a directory, which is absolute (`LocalFileStore`). Writing makes the directories on
the way. -/
def store {m : Type → Type} [Monad m] (host : Host m) (root : String) : Store m where
  read path := readResult <$> host.readFile (hostPath root path)
  write path bytes := do
    let target := hostPath root path
    let parent := String.ofList (HostPath.directory target.toList)
    match ← host.makeDirectories parent with
    | .ok () => writeResult <$> host.writeFile target bytes
    | .error f => return writeResult (.error f)

end ScriptLang.Store.Rooted
