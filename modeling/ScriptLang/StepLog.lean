import ScriptLang.Scope

/-!
# The step log

A run is counted in steps: one for each statement that starts and for each call. The log
(`StateLogger`) knows the number of steps, the last one, and for each frame that has not returned
its latest one, so what it keeps is bounded by the depth of calls.
-/
namespace ScriptLang

/-- The number of a frame among all frames of a session. -/
abbrev FrameId := Nat

/-- A number in decimal, filled with zeros on the left to `width` digits. -/
def zeroPadded (width n : Nat) : String :=
  let digits := Nat.toDigits 10 n
  String.ofList (List.replicate (width - digits.length) '0' ++ digits)

def frameName (id : FrameId) : String := "f_" ++ zeroPadded 4 id

/-- What is noted of a call: the name that was called and the texts of the arguments. -/
structure CallDetail where
  function : Json
  args : List String
  deriving DecidableEq

/-- One step (`StateEntry`): what was done (a statement, a call, or a builtin by its name) in which
frame. Details and snapshots are there only if the session is verbose. -/
structure Step where
  index : Nat
  frame : FrameId
  rule : Json
  detail : Option CallDetail
  snapshot : Option Snapshot
  deriving DecidableEq

def Step.stateName (s : Step) : String := "s_" ++ zeroPadded 6 s.index

structure StepLog where
  /-- The number of steps so far, which is the index of the next one. -/
  next : Nat
  last : Option Step
  /-- The latest step of each frame, by the number of the frame, the last frame first. -/
  latest : List (FrameId × Step)
  deriving DecidableEq

namespace StepLog

def empty : StepLog := ⟨0, none, []⟩

def replace (entries : List (FrameId × Step)) (step : Step) : List (FrameId × Step) :=
  match entries with
  | [] => [(step.frame, step)]
  | entry :: rest =>
    if entry.1 = step.frame then (step.frame, step) :: rest
    else if entry.1 < step.frame then (step.frame, step) :: entry :: rest
    else entry :: replace rest step

/-- Adds a step (`StateLogger.record`). -/
def record (log : StepLog) (frame : FrameId) (rule : Json) (detail : Option CallDetail)
    (snapshot : Option Snapshot) : StepLog :=
  let step := ⟨log.next, frame, rule, detail, snapshot⟩
  ⟨log.next + 1, some step, replace log.latest step⟩

/-- The latest step of a frame (`last_entry_for_frame`). -/
def latestOf (log : StepLog) (frame : FrameId) : Option Step := log.latest.lookup frame

/-- Drops the entry of a frame (`forget_frame`). -/
def forget (log : StepLog) (frame : FrameId) : StepLog :=
  { log with latest := log.latest.eraseP (·.1 == frame) }

end StepLog

end ScriptLang
