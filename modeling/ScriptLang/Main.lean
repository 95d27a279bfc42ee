import ScriptLang.CommandLine

/-!
# The program

The command line on the files of this computer: `Host` in `IO`, and the outputs and exit code of an
invocation. Everything that is decided is decided by `invoke`.
-/
namespace ScriptLang

/-- The fault with a number of the host, whose sign does not matter. -/
def FileFault.ofNumber (number : UInt32) (text : String) : FileFault :=
  match number.toInt32.toInt.natAbs with
  | 2 => .notFound
  | 13 => .other 13 "Permission denied"
  | 20 => .notADirectory
  | 21 => .isADirectory
  | 36 => .nameTooLong
  | n => .other n text

def FileFault.ofError : IO.Error → FileFault
  | .noFileOrDirectory .. => .notFound
  | .inappropriateType _ number text | .permissionDenied _ number text
  | .resourceExhausted _ number text | .invalidArgument _ number text
  | .alreadyExists _ number text | .otherError number text => .ofNumber number text
  | e => .other 5 (toString e)

/-- An action at a path, with its errors as faults. -/
def atPath {α : Type} (path : String) (act : IO α) : IO (Except FileFault α) := do
  if path.contains '\x00' then return .error .zeroCharacter
  else
    match ← act.toBaseIO with
    | .ok a => return .ok a
    | .error e => return .error (.ofError e)

def computer : Host IO where
  workingDirectory := do return (← IO.currentDir).toString
  readFile path := atPath path do return (← IO.FS.readBinFile path).toList
  makeDirectories path := atPath path (IO.FS.createDirAll path)
  writeFile path bytes := atPath path (IO.FS.writeBinFile path ⟨bytes.toArray⟩)

def usageText : String :=
  "usage: scriptlang [-h] [-source] [-o OUTPUT] [--root ROOT] [-verbose] [--traceback-json] program"

/-- Writes what an invocation ends with, and gives the exit code. -/
def Exit.report : Exit → IO UInt32
  | .code status stdout stderr => do
    IO.print stdout
    IO.eprint stderr
    return status.toUInt32
  | .usage .help => do
    IO.println usageText
    return 0
  | .usage .usage => do
    IO.eprintln usageText
    return 2
  | .escaped failure => do
    IO.eprintln (failure.kind ++ ": " ++ failure.message)
    return 1

end ScriptLang

/-- Runs the command line with the given words. -/
def main (words : List String) : IO UInt32 := do
  (← ScriptLang.invoke ScriptLang.computer words .current).report
