import ScriptLang.Session

/-!
# Tracebacks

The frames on the call stack after a fault, the outermost first, each with its latest step
(`TracebackFormatter`): as lines of text, and as a document.
-/
namespace ScriptLang.Traceback

/-- The frames on the stack from the outside in, with their latest steps (`build_frames`). -/
def frames (m : Machine) : List (Frame × Option Step) :=
  m.stack.reverse.map fun frame => (frame, m.log.latestOf frame.id)

def snapshotText (s : Snapshot) : String :=
  ", ".intercalate (s.map fun (name, text) => name.inMessage ++ "=" ++ text)

def stepLines (verbose : Bool) (step : Step) : List String :=
  ["    Last step: " ++ step.rule.inMessage,
    "    State log index: " ++ toString step.index ++ "  State id: " ++ step.stateName]
    ++ match verbose, step.snapshot with
      | true, some snapshot => ["    Env snapshot: " ++ snapshotText snapshot]
      | _, _ => []

/-- The lines about a frame of the named program. -/
def frameLines (verbose : Bool) (file : String) (entry : Frame × Option Step) : List String :=
  ("  File \"" ++ file ++ "\", in " ++ entry.1.name.inMessage)
    :: (entry.2.elim [] (stepLines verbose))

/-- The line about the fault; without a rule, or with one that is empty, it names none. -/
def faultLine (f : Fault) : String :=
  let rule := if f.rule.truthy then f.rule.inMessage else "runtime"
  f.className ++ ": " ++ f.message ++ " (rule: " ++ rule ++ ")"

/-- The traceback as text (`format_text`). -/
def text (m : Machine) (verbose : Bool) (file : String) (f : Fault) : String :=
  "\n".intercalate
    ("Traceback (most recent call last):" :: (frames m).flatMap (frameLines verbose file)
      ++ [faultLine f])

def fieldName : Json → String
  | .str s => s
  | .int n => String.ofList (IntText.digits n)
  | .float x => String.ofList (Json.floatText x)
  | .bool b => if b then "true" else "false"
  | _ => "null"

def stepFields (step : Step) : List (String × Json) :=
  [("state_id", .str step.stateName), ("step_index", .int step.index), ("rule", step.rule)]
    ++ (match step.detail with
      | some d =>
        [("detail", .obj [("function", d.function), ("args", .arr (d.args.map .str))])]
      | none => [])
    ++ match step.snapshot with
      | some s => [("env_snapshot", .obj (s.map fun (name, text) => (fieldName name, .str text)))]
      | none => []

def frameDocument (index : Nat) (entry : Frame × Option Step) : Json :=
  .obj ([("frame_index", .int index), ("name", entry.1.name)] ++ entry.2.elim [] stepFields)

/-- The documents of frames, the first of which is numbered `index`. -/
def frameDocuments (index : Nat) : List (Frame × Option Step) → List Json
  | [] => []
  | entry :: rest => frameDocument index entry :: frameDocuments (index + 1) rest

/-- The traceback as a document. -/
def document (m : Machine) (f : Fault) (step : Option Nat) : Json :=
  .obj
    [("error",
        .obj
          [("type", .str f.className), ("message", .str f.message),
            ("failing_step_index", step.elim .null fun n => .int n)]),
      ("traceback", .arr (frameDocuments 0 (frames m)))]

/-- The text of the document (`to_json`). -/
def json (m : Machine) (f : Fault) (step : Option Nat) : String :=
  (document m f step).render .asciiIndented

end ScriptLang.Traceback
