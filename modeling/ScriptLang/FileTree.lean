import ScriptLang.Entries
import ScriptLang.HostPath
import ScriptLang.Text.Quoted
import ScriptLang.Text.Utf8

/-!
# Host files

What a program asks of the host's file system (`Host`), and a file system that is a value: a tree of
directories and files, in which paths are walked name by name, so that `a/..` needs a directory `a`.
-/
namespace ScriptLang

/-- Why the host refuses. -/
inductive FileFault where
  | notFound
  | notADirectory
  | isADirectory
  | nameTooLong
  /-- No path can have a zero character. -/
  | zeroCharacter
  | other (number : Nat) (text : String)
  deriving DecidableEq, Repr

namespace FileFault

def description : FileFault → Nat × String
  | .notFound => (2, "No such file or directory")
  | .notADirectory => (20, "Not a directory")
  | .isADirectory => (21, "Is a directory")
  | .nameTooLong => (36, "File name too long")
  | .zeroCharacter => (22, "embedded null byte")
  | .other number text => (number, text)

def message (path : String) (f : FileFault) : String :=
  "[Errno " ++ toString f.description.1 ++ "] " ++ f.description.2 ++ ": " ++ Text.quoted path

end FileFault

/-- What a program can do to the host's files. -/
structure Host (m : Type → Type) where
  workingDirectory : m String
  readFile : String → m (Except FileFault Bytes)
  /-- Makes a directory and those around it, where they are missing. -/
  makeDirectories : String → m (Except FileFault Unit)
  writeFile : String → Bytes → m (Except FileFault Unit)

inductive FileEntry where
  | directory
  | file (bytes : Bytes)
  deriving DecidableEq, Repr

/-- The place of a file or directory: the names on the way from the root. -/
abbrev Place := List (List Char)

/-- Files and directories by their places, and the directory that relative paths are seen from. The
root is a directory without being listed. -/
structure FileTree where
  entries : List (Place × FileEntry)
  current : Place
  deriving DecidableEq, Repr

namespace FileTree

def entry? (t : FileTree) (place : Place) : Option FileEntry :=
  if place = [] then some .directory else Entries.get? t.entries place

def put (t : FileTree) (place : Place) (e : FileEntry) : FileTree :=
  { t with entries := Entries.set t.entries place e }

/-- The most bytes that a name may have. -/
def maxName : Nat := 255

/-- The number of bytes that is too many for a path. -/
def maxPath : Nat := 4096

def byteLength (cs : List Char) : Nat := (String.ofList cs).utf8ByteSize

/-- The place that a part of a path leads to from another, at which a directory must stand. -/
def enter (t : FileTree) (place : Place) (part : List Char) : Except FileFault Place :=
  match t.entry? place with
  | none => .error .notFound
  | some (.file _) => .error .notADirectory
  | some .directory =>
    if part = [] ∨ part = ['.'] then .ok place
    else if part = ['.', '.'] then .ok place.dropLast
    else if maxName < byteLength part then .error .nameTooLong
    else .ok (place ++ [part])

/-- The place that a path leads to. What stands there is for the caller to see. -/
def locate (t : FileTree) (path : String) : Except FileFault Place := do
  let cs := path.toList
  if cs.contains '\x00' then throw .zeroCharacter
  if cs.isEmpty then throw .notFound
  if maxPath ≤ byteLength cs then throw .nameTooLong
  let start := if HostPath.isAbsolute cs then [] else t.current
  (VirtualPath.splitSlashes cs).foldlM t.enter start

/-- The contents of the file at a path. -/
def read (t : FileTree) (path : String) : Except FileFault Bytes := do
  match t.entry? (← t.locate path) with
  | some (.file bytes) => return bytes
  | some .directory => throw .isADirectory
  | none => throw .notFound

def makeDirectory (t : FileTree) (place : Place) : FileTree :=
  match t.entry? place with
  | some _ => t
  | none => t.put place .directory

/-- Makes the directories on the way from a place on, which is `used` bytes into the path; those
that were made before a fault stay. That a file is in the way is seen where the way goes on. -/
def makeAll (t : FileTree) (place : Place) (used : Nat) :
    List (List Char) → Except FileFault Unit × FileTree
  | [] =>
    match t.entry? place with
    | some .directory => (.ok (), t)
    | _ => (.error .notADirectory, t)
  | part :: parts =>
    let used := used + byteLength part
    if part.contains '\x00' then (.error .zeroCharacter, t)
    else if maxPath ≤ used then (.error .nameTooLong, t)
    else
      match t.enter place part with
      | .error f => (.error f, t)
      | .ok place => (t.makeDirectory place).makeAll place (used + 1) parts

/-- Makes a directory and those around it. -/
def makeDirectories (t : FileTree) (path : String) : Except FileFault Unit × FileTree :=
  let cs := path.toList
  t.makeAll (if HostPath.isAbsolute cs then [] else t.current) 0 (VirtualPath.splitSlashes cs)

/-- Puts a file at a path, in a directory that exists. -/
def write (t : FileTree) (path : String) (bytes : Bytes) : Except FileFault Unit × FileTree :=
  match t.locate path with
  | .error f => (.error f, t)
  | .ok place =>
    match t.entry? place, t.entry? place.dropLast with
    | some .directory, _ => (.error .isADirectory, t)
    | _, some .directory => (.ok (), t.put place (.file bytes))
    | _, some (.file _) => (.error .notADirectory, t)
    | _, none => (.error .notFound, t)

def pathOf (place : Place) : String := String.ofList ('/' :: HostPath.joinParts place)

def host : Host (StateM FileTree) where
  workingDirectory := fun t => (pathOf t.current, t)
  readFile path := fun t => (t.read path, t)
  makeDirectories path := fun t => t.makeDirectories path
  writeFile path bytes := fun t => t.write path bytes

end FileTree

end ScriptLang
