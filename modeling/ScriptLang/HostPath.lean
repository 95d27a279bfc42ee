import ScriptLang.VirtualPath

/-!
# Host paths

Paths of the host's file system as text, in the manner of POSIX (`os.path`): made absolute and normal,
taken relative to one another, joined, and cut into directory and name. Nothing here looks at files.
A path may start with two slashes, which are not the same as one; more than two are.
-/
namespace ScriptLang.HostPath

def joinParts (parts : List (List Char)) : List Char := ['/'].intercalate parts

/-- The parts between slashes that name something. -/
def parts (path : List Char) : List (List Char) :=
  (VirtualPath.splitSlashes path).filter fun part => !part.isEmpty

def isAbsolute (path : List Char) : Bool := path.head? == some '/'

/-- A path seen from a directory (`join`). -/
def join (directory path : List Char) : List Char :=
  if isAbsolute path then path
  else if directory.isEmpty || directory.getLast? == some '/' then directory ++ path
  else directory ++ '/' :: path

/-! ## Normal form -/

def leadingSlashes (path : List Char) : List Char :=
  let slashes := path.takeWhile (· == '/')
  if slashes.length = 2 then ['/', '/'] else slashes.take 1

/-- The segments before a part, last first, and the part itself. A relative path keeps the `..` that
lead out of it. -/
def step (absolute : Bool) (segments : List (List Char)) (part : List Char) : List (List Char) :=
  if part = [] ∨ part = ['.'] then segments
  else if part ≠ ['.', '.'] then part :: segments
  else
    match segments with
    | [] => if absolute then [] else [part]
    | last :: before => if last = ['.', '.'] then part :: segments else before

/-- The shortest text for a path, by its segments alone (`normpath`). -/
def normalize (path : List Char) : List Char :=
  let slashes := leadingSlashes path
  let segments := (VirtualPath.splitSlashes path).foldl (step (!slashes.isEmpty)) []
  let text := slashes ++ joinParts segments.reverse
  if text.isEmpty then ['.'] else text

/-- The absolute normal form of a path seen from a working directory (`abspath`). -/
def absolute (workingDirectory path : List Char) : List Char :=
  normalize (join workingDirectory path)

/-! ## Relations between paths -/

/-- The longest common beginning of two lists. -/
def common {α : Type} [BEq α] : List α → List α → List α
  | a :: as, b :: bs => if a == b then a :: common as bs else []
  | _, _ => []

/-- The way from an absolute path to another, both in normal form (`relpath`). -/
def relative (path start : List Char) : List Char :=
  let there := parts path
  let here := parts start
  let shared := (common there here).length
  let way := List.replicate (here.length - shared) ['.', '.'] ++ there.drop shared
  if way.isEmpty then ['.'] else joinParts way

def trimSlashes (path : List Char) : List Char := (path.reverse.dropWhile (· == '/')).reverse

/-- Everything before the name at the end of a path, without the slashes between (`dirname`). -/
def directory (path : List Char) : List Char :=
  let head := (path.reverse.dropWhile (· != '/')).reverse
  if (trimSlashes head).isEmpty then head else trimSlashes head

/-- The deepest directory that all of some absolute paths are below (`commonpath`). -/
def commonDirectory (paths : List (List Char)) : List Char :=
  match paths.map fun path => (parts path).filter (· != ['.']) with
  | [] => ['/']
  | first :: rest => '/' :: joinParts (rest.foldl common first)

/-- A path with `..` at its start leads out of where it is seen from. -/
def leadsOut (path : List Char) : Bool := path == ['.', '.'] || path.take 3 == ['.', '.', '/']

end ScriptLang.HostPath
