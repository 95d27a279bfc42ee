/-!
# Virtual paths

The paths that imports and file stores use: absolute, with single slashes, and without the names `.`
and `..`. `resolve` makes one of any text and the directory it is seen from; a path cannot lead
above the root.
-/
namespace ScriptLang.VirtualPath

/-! ## Segments -/

/-- What stands between the slashes of a text: one more part than there are slashes. -/
def splitSlashes : List Char → List (List Char)
  | [] => [[]]
  | c :: cs =>
    if c = '/' then [] :: splitSlashes cs
    else
      match splitSlashes cs with
      | [] => [[c]]
      | part :: parts => (c :: part) :: parts

/-- The segments before a part, and the part itself: empty parts and `.` name nothing, `..` takes
back the last segment. Segments are kept last first. -/
def step (segments : List (List Char)) (part : List Char) : List (List Char) :=
  if part = [] ∨ part = ['.'] then segments
  else if part = ['.', '.'] then segments.tail
  else part :: segments

/-- The segments that the parts of a text lead to. -/
def segmentsOf (parts : List (List Char)) : List (List Char) := (parts.foldl step []).reverse

def render (segments : List (List Char)) : List Char := '/' :: ['/'].intercalate segments

/-! ## Resolution -/

def withoutTilde : List Char → List Char
  | '~' :: rest => rest
  | path => path

/-- The text that a path means in a directory, not yet in normal form. -/
def located (path directory : List Char) : List Char :=
  if path.head? = some '/' then path
  else (if directory = ['/'] then [] else directory) ++ '/' :: path

def resolveChars (path directory : List Char) : List Char :=
  render (segmentsOf (splitSlashes (located (withoutTilde path) directory)))

/-- The normal form of a path that is seen from a directory (`resolve_path`). -/
def resolve (path directory : String) : String :=
  String.ofList (resolveChars path.toList directory.toList)

/-- The root directory. -/
def root : String := "/"

/-- The text before the last slash, the root if there is nothing before it, and the whole text if there
is no slash (`dirname`). -/
def directoryChars (path : List Char) : List Char :=
  let head :=
    if path.contains '/' then ((path.reverse.dropWhile (· != '/')).drop 1).reverse else path
  if head = [] then ['/'] else head

def directory (path : String) : String := String.ofList (directoryChars path.toList)

end ScriptLang.VirtualPath
