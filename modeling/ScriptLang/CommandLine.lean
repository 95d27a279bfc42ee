import ScriptLang.Arguments
import ScriptLang.Compilation
import ScriptLang.Store.Rooted
import ScriptLang.Traceback

/-!
# The command line

One invocation (`run_cli`): arguments to files read and written, text on the two outputs and an exit
code. A program is given as a source file, as an artifact or as text; with an output path it is
compiled instead of run.
-/
namespace ScriptLang

/-- How an invocation ends. -/
inductive Exit where
  | code (code : Nat) (stdout stderr : String)
  /-- The arguments are wrong, or ask for help. -/
  | usage (stop : Arguments.Stop)
  /-- A failure that the program does not handle. -/
  | escaped (failure : StoreFailure)
  deriving DecidableEq, Repr

namespace CommandLine

def succeed (stdout : String) : Exit := .code 0 stdout ""

def fail (line : String) : Exit := .code 1 "" (line ++ "\n")

/-! ## Host paths and virtual paths -/

/-- A path is not below the root. -/
structure Outside where
  path : String
  root : String
  deriving DecidableEq, Repr

def Outside.message (o : Outside) : String :=
  o.path ++ " is outside of the source root " ++ o.root

/-- The absolute normal form of a path, as text. -/
def absolute (workingDirectory path : String) : String :=
  String.ofList (HostPath.absolute workingDirectory.toList path.toList)

/-- The virtual path of a host path below a root (`_virtual_path`). -/
def virtualPath (workingDirectory path root : String) : Except Outside String :=
  let relative :=
    HostPath.relative (HostPath.absolute workingDirectory.toList path.toList)
      (HostPath.absolute workingDirectory.toList root.toList)
  if HostPath.leadsOut relative then .error ⟨path, root⟩
  else .ok (String.ofList ('/' :: relative))

/-- The deepest directory that all of some files are below (`_default_root`). -/
def defaultRoot (workingDirectory : String) (paths : List String) : String :=
  String.ofList <| HostPath.commonDirectory <| paths.map fun path =>
    HostPath.directory (HostPath.absolute workingDirectory.toList path.toList)

/-- The root that is asked for, or the default one; an empty root counts as none. -/
def chooseRoot (workingDirectory : String) (asked : Option String) (paths : List String) : String :=
  match asked with
  | some root => if root = "" then defaultRoot workingDirectory paths else root
  | none => defaultRoot workingDirectory paths

/-! ## Loading -/

/-- Why no program can be loaded. -/
inductive LoadError where
  | lex (file : String) (error : LexError)
  | parse (file : String) (error : ParseError)
  | other (message : String)
  | failed (failure : StoreFailure)

/-- The end of an invocation whose program cannot be loaded. -/
def LoadError.exit : LoadError → Exit
  | .lex file error => fail ("LexError: " ++ error.message file)
  | .parse file (.badNumber text) =>
    .escaped ⟨"ValueError", (ParseError.badNumber text).message file⟩
  | .parse file error => fail ("ParseError: " ++ error.message file)
  | .other message => fail ("LoadError: " ++ message)
  | .failed failure => .escaped failure

def LoadError.ofLink : LinkError → LoadError
  | .lex file error => .lex file error
  | .parse file error => .parse file error
  | .failed failure => .failed failure
  | e => .other e.message

def LoadError.ofArtifact : ArtifactError → LoadError
  | .badForm (.notIterable found) =>
    .failed ⟨"TypeError", (Node.FormFault.notIterable found).message⟩
  | e => .other e.message

def parseSource (file source : String) : Except LoadError Program :=
  (Linked.parseText file source).mapError .ofLink

variable {m : Type → Type} [Monad m]

/-- The program in a file (`_load_program`): the one in an artifact, or else the file linked with its
imports. -/
def loadProgram (host : Host m) (path root : String) : m (Except LoadError Program) := do
  let directory ← host.workingDirectory
  match ← host.readFile path with
  | .error .zeroCharacter => return .error (.failed Store.Rooted.zeroCharacter)
  | .error f => return .error (.other ("Failed to read " ++ path ++ ": " ++ f.message path))
  | .ok bytes =>
    if Artifact.isTagged bytes then return (Artifact.decode bytes).mapError .ofArtifact
    else
      match virtualPath directory path root with
      | .error outside => return .error (.other outside.message)
      | .ok entry =>
        match ← link (Store.Rooted.store host (absolute directory root)) entry with
        | .error e => return .error (.ofLink e)
        | .ok linked => return .ok linked.program

/-! ## The two commands -/

/-- What a compilation to a place without a text leads to. Only the early rules give such a place. -/
def noPlace : StoreFailure :=
  ⟨"TypeError", "expected str, bytes or os.PathLike object, not list"⟩

/-- Compiles a program to a place that has no text. Without a root the place is needed first. -/
def compileNowhere (directory : String) (args : Arguments) : Exit :=
  match args.root with
  | none => .escaped noPlace
  | some root =>
    if root = "" then .escaped noPlace
    else
      match virtualPath directory args.program root with
      | .error outside => fail ("CompileError: " ++ outside.message)
      | .ok _ => .escaped noPlace

def compileCommand (host : Host m) (args : Arguments) (output : String) : m Exit := do
  let directory ← host.workingDirectory
  let root := chooseRoot directory args.root [args.program, output]
  match virtualPath directory args.program root, virtualPath directory output root with
  | .error outside, _ => return fail ("CompileError: " ++ outside.message)
  | _, .error outside => return fail ("CompileError: " ++ outside.message)
  | .ok entry, .ok target =>
    let report ← compile (Store.Rooted.store host (absolute directory root)) entry target
    return if report.success then succeed (report.message ++ "\n") else fail report.message

def unlines (lines : List String) : String := String.join (lines.map (· ++ "\n"))

/-- Runs a program that is known by a file name. -/
def runProgram (args : Arguments) (file : String) (p : Program) : Exit :=
  let (result, final) := (Machine.fresh args.verbose none).run p
  let stdout := unlines final.output.toList
  match result with
  | .value _ => .code 0 stdout ""
  | .fault f step =>
    let text := Traceback.text final args.verbose file f
    let document := if args.tracebackJson then [Traceback.json final f step] else []
    .code 1 stdout (unlines (text :: document))
  | .outOfFuel => .code 1 stdout "out of fuel\n"

/-- Loads and runs a program. -/
def runCommand (host : Host m) (args : Arguments) : m Exit := do
  if args.sourceMode then
    let file := "<string>"
    match parseSource file args.program with
    | .error e => return e.exit
    | .ok p => return runProgram args file p
  else
    let directory ← host.workingDirectory
    let root := chooseRoot directory args.root [args.program]
    match ← loadProgram host args.program root with
    | .error e => return e.exit
    | .ok p => return runProgram args args.program p

end CommandLine

/-- An invocation with the given words (`run_cli`). They are read by the early rules, unless others are
given. -/
def invoke {m : Type → Type} [Monad m] (host : Host m) (words : List String)
    (rules : Arguments.Rules := .early) : m Exit :=
  match Arguments.parse rules words with
  | .error stop => pure (.usage stop)
  | .ok args =>
    match args.output with
    | some output? =>
      if args.sourceMode then pure (CommandLine.fail "-source cannot be combined with --output")
      else
        match output? with
        | some output => CommandLine.compileCommand host args output
        | none => (CommandLine.compileNowhere · args) <$> host.workingDirectory
    | none => CommandLine.runCommand host args

end ScriptLang
