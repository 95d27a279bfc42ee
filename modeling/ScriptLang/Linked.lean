import ScriptLang.Grammar
import ScriptLang.Store
import ScriptLang.Token.Lexeme
import ScriptLang.VirtualPath

/-!
# Linked programs

One program from a file and all that it imports. The files are visited in depth-first order, each
one once; the statements of a file come after those of its imports, and import statements are left
out. The first file that cannot be read, scanned or parsed ends the link. Files may import one another
to any depth.
-/
namespace ScriptLang

inductive LinkError where
  | unreadable (path : String)
  | lex (path : String) (error : LexError)
  | parse (path : String) (error : ParseError)
  | failed (failure : StoreFailure)
  | outOfFuel
  deriving DecidableEq

def LinkError.message : LinkError → String
  | .unreadable path => "Could not read source file at " ++ path
  | .lex path error => error.message path
  | .parse path error => error.message path
  | .failed failure => failure.message
  | .outOfFuel => "out of fuel"

/-- A linked program, and the files it was made of in the order of their statements. -/
structure Linked where
  program : Program
  files : List String
  deriving DecidableEq

namespace Linked

/-- The paths that were visited, the last one first, and those whose statements are there already,
in order. -/
structure Progress where
  visited : List String
  files : List String
  deriving DecidableEq, Repr

/-- Fuel for a link: a unit for each statement on the way to a file. -/
def fuel : Nat := Nat.pow 2 62

/-- The statements that a file adds to a program. -/
def own (statements : List Node) : List Node := statements.filter (!·.isImport)

/-- The program that a text is. -/
def parseText (path text : String) : Except LinkError Program :=
  match TokenStream.ofSource text with
  | .error e => .error (.lex path e)
  | .ok tokens =>
    match Program.ofStream tokens with
    | .error e => .error (.parse path e)
    | .ok program => .ok program

def parseRead (path : String) : ReadResult → Except LinkError Program
  | .text s => parseText path s
  | .absent => .error (.unreadable path)
  | .failed failure => .error (.failed failure)

variable {m : Type → Type} [Monad m]

/-- Reads and parses a file (`_parse_file`). -/
def load (store : Store m) (path : String) : ExceptT LinkError m Program :=
  ExceptT.mk (parseRead path <$> store.read path)

/-- The statements of all files that some statements in a directory import (`_resolve_imports`). -/
def gather (store : Store m) :
    Nat → String → List Node → Progress → ExceptT LinkError m (List Node × Progress)
  | 0, _, _, _ => throw .outOfFuel
  | _ + 1, _, [], progress => return ([], progress)
  | fuel + 1, directory, .importFile path :: statements, progress => do
    let target := VirtualPath.resolve path directory
    if progress.visited.contains target then gather store fuel directory statements progress
    else
      let imported ← load store target
      let (below, progress) ←
        gather store fuel (VirtualPath.directory target) imported.statements
          { progress with visited := target :: progress.visited }
      let (after, progress) ←
        gather store fuel directory statements
          { progress with files := progress.files ++ [target] }
      return (below ++ own imported.statements ++ after, progress)
  | fuel + 1, directory, _ :: statements, progress =>
    gather store fuel directory statements progress

/-- Links a file with a given amount of fuel. -/
def linkWith (fuel : Nat) (store : Store m) (path : String) : ExceptT LinkError m Linked := do
  let entry := VirtualPath.resolve path VirtualPath.root
  let main ← load store entry
  let (imported, progress) ←
    gather store fuel (VirtualPath.directory entry) main.statements ⟨[entry], []⟩
  return ⟨⟨imported ++ own main.statements⟩, progress.files ++ [entry]⟩

end Linked

/-- Links a file and all that it imports (`Compiler.link`). -/
def link {m : Type → Type} [Monad m] (store : Store m) (path : String) :
    m (Except LinkError Linked) :=
  (Linked.linkWith Linked.fuel store path).run

end ScriptLang
