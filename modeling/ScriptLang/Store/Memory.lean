import ScriptLang.Entries
import ScriptLang.Store
import ScriptLang.VirtualPath

/-!
# Files in memory

A store that is a value (`MemoryFileStore`): texts to read and bytes that were written, which are
kept apart, each under the normal form of its path.
-/
namespace ScriptLang

/-- Texts to read, and bytes that were written, in the order in which they first came. -/
structure MemoryFiles where
  texts : List (String × String)
  blobs : List (String × Bytes)
  deriving DecidableEq, Repr

namespace MemoryFiles

/-- The normal form of a path seen from the root. -/
def normal (path : String) : String := VirtualPath.resolve path VirtualPath.root

def empty : MemoryFiles := ⟨[], []⟩

def setText (f : MemoryFiles) (path text : String) : MemoryFiles :=
  { f with texts := Entries.set f.texts (normal path) text }

def eraseText (f : MemoryFiles) (path : String) : MemoryFiles :=
  { f with texts := Entries.erase f.texts (normal path) }

def text? (f : MemoryFiles) (path : String) : Option String := Entries.get? f.texts (normal path)

def setBlob (f : MemoryFiles) (path : String) (bytes : Bytes) : MemoryFiles :=
  { f with blobs := Entries.set f.blobs (normal path) bytes }

/-- The files with the given texts. -/
def ofTexts (texts : List (String × String)) : MemoryFiles :=
  texts.foldl (fun f e => f.setText e.1 e.2) empty

def store : Store (StateM MemoryFiles) where
  read path := fun f => ((f.text? path).elim .absent .text, f)
  write path bytes := fun f => (.done, f.setBlob path bytes)

end MemoryFiles

end ScriptLang
