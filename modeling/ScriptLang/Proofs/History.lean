import Mathlib.Data.List.Nodup
import ScriptLang.Proofs.Number.Digits
import ScriptLang.Proofs.StepLog
import ScriptLang.Traceback

/-!
# What the step log has seen

The frames that a session has made and the steps that it has logged, in order, are its history. The
machine itself forgets most of it: returned frames are dropped with their entries, and of the steps
of a frame only the latest is kept, under the name of the frame. Still the log tells the truth about
all of it: frames and states have names of their own, however many there are, the last entry is the
last step, and what is kept under a frame is the latest step of that very frame.

All this is a matter of the primitive computations alone, so it holds wherever they lead and in
whatever order.

Results:
* `prefixed_zeroPadded_injective`: different numbers have different names;
* `Course.consistent`: what a history tells about the machine that it leads to.
-/
namespace ScriptLang

/-! ## Names made of numbers -/

/-- A padded number can be read off its text, whether or not it has more digits than the width. -/
theorem ofDigits_zeroPadded (width n : Nat) :
    IntText.ofDigits (zeroPadded width n).toList = n := by
  unfold zeroPadded
  rw [String.toList_ofList, IntText.ofDigits_append, IntText.ofDigits_zeros,
    IntText.ofDigits_toDigits, Nat.zero_mul, Nat.zero_add]

theorem prefixed_zeroPadded_injective (mark : String) (width : Nat) :
    Function.Injective fun n => mark ++ zeroPadded width n := by
  intro a b h
  have htexts := congrArg String.toList h
  simp only [String.toList_append] at htexts
  have hdigits := congrArg IntText.ofDigits (List.append_cancel_left htexts)
  rwa [ofDigits_zeroPadded, ofDigits_zeroPadded] at hdigits

theorem frameName_injective : Function.Injective frameName := prefixed_zeroPadded_injective "f_" 4

/-- Names grow beyond their width. -/
example : frameName 7 = "f_0007" ∧ frameName 12345 = "f_12345" := by decide +kernel

/-! ## Histories -/

/-- A frame was made, or a step logged. -/
inductive Deed where
  | entered (frame : Frame)
  | logged (step : Step)

namespace Deed

def frame? : Deed → Option Frame
  | entered frame => some frame
  | logged _ => none

def step? : Deed → Option Step
  | entered _ => none
  | logged step => some step

end Deed

/-- All frames made and all steps logged, in order. -/
abbrev History := List Deed

namespace History

def frames (past : History) : List Frame := past.filterMap Deed.frame?

def steps (past : History) : List Step := past.filterMap Deed.step?

@[simp]
theorem frames_entered (past : History) (f : Frame) :
    frames (past ++ [.entered f]) = past.frames ++ [f] := by
  rw [frames, List.filterMap_append]
  rfl

@[simp]
theorem frames_logged (past : History) (s : Step) : frames (past ++ [.logged s]) = past.frames := by
  rw [frames, List.filterMap_append]
  exact List.append_nil _

@[simp]
theorem steps_entered (past : History) (f : Frame) : steps (past ++ [.entered f]) = past.steps := by
  rw [steps, List.filterMap_append]
  exact List.append_nil _

@[simp]
theorem steps_logged (past : History) (s : Step) :
    steps (past ++ [.logged s]) = past.steps ++ [s] := by
  rw [steps, List.filterMap_append]
  rfl

end History

/-- What may happen to the stack and to the log of a machine, one after the other: something else
changes, a frame is made or left, the innermost frame logs a step, or the log forgets a frame. What was
made and logged on the way is the history. -/
inductive Course (first : Machine) : History → Machine → Prop
  | start : Course first [] first
  | aside {past m m'} : Course first past m → m'.stack = m.stack → m'.framesMade = m.framesMade →
      m'.log = m.log → Course first past m'
  | enter {past m} (name : Json) (scope : ScopeId) : Course first past m →
      Course first (past ++ [.entered ⟨name, scope, m.framesMade⟩]) (Eval.pushFrame name scope m).2
  | record {past m frame below} (rule : Json) (detail : Option CallDetail)
      (snapshot : Option Snapshot) : Course first past m → m.stack = frame :: below →
      Course first (past ++ [.logged ⟨m.log.next, frame.id, rule, detail, snapshot⟩])
        { m with log := m.log.record frame.id rule detail snapshot }
  | leave {past m} : Course first past m → Course first past { m with stack := m.stack.tail }
  | forget {past m} (id : FrameId) : Course first past m →
      Course first past { m with log := m.log.forget id }

variable {first m m' : Machine} {past more : History}

/-- One history goes on where another one has led. -/
theorem Course.trans (h : Course first past m) (h' : Course m more m') :
    Course first (past ++ more) m' := by
  induction h' with
  | start => rwa [List.append_nil]
  | aside _ hstack hmade hlog ih => exact .aside ih hstack hmade hlog
  | enter name scope _ ih =>
    rw [← List.append_assoc]
    exact .enter name scope ih
  | record rule detail snapshot _ hstack ih =>
    rw [← List.append_assoc]
    exact .record rule detail snapshot ih hstack
  | leave _ ih => exact .leave ih
  | forget id _ ih => exact .forget id ih

/-! ## The invariant -/

/-- The machine has counted the frames and the steps of its history, the frames on its stack are some
of them, and what its log keeps is the latest of what it has seen. -/
structure History.Accounts (past : History) (m : Machine) : Prop where
  frames : past.frames.map (·.id) = List.range m.framesMade
  steps : past.steps.map (·.index) = List.range m.log.next
  recorded : ∀ s ∈ past.steps, ∃ f ∈ past.frames, f.id = s.frame
  last : m.log.last = past.steps.getLast?
  latest : ∀ id s, m.log.latestOf id = some s →
    past.steps.reverse.find? (·.frame == id) = some s
  ordered : m.log.Ordered
  stack : m.stack.reverse.Sublist past.frames

namespace History.Accounts

theorem fresh (sink : Sink) (verbose : Bool) : Accounts [] (.freshInto sink verbose) where
  frames := rfl
  steps := rfl
  recorded _ hs := by cases hs
  last := rfl
  latest _ _ hs := by cases hs
  ordered := StepLog.ordered_empty
  stack := .slnil

theorem aside (h : Accounts past m) (hstack : m'.stack = m.stack)
    (hmade : m'.framesMade = m.framesMade) (hlog : m'.log = m.log) : Accounts past m' where
  frames := hmade ▸ h.frames
  steps := hlog ▸ h.steps
  recorded := h.recorded
  last := hlog ▸ h.last
  latest := hlog ▸ h.latest
  ordered := hlog ▸ h.ordered
  stack := hstack ▸ h.stack

theorem enter (h : Accounts past m) (name : Json) (scope : ScopeId) :
    Accounts (past ++ [.entered ⟨name, scope, m.framesMade⟩]) (Eval.pushFrame name scope m).2 where
  frames := by
    rw [frames_entered, List.map_append, h.frames]
    exact List.range_succ.symm
  steps := by
    rw [steps_entered]
    exact h.steps
  recorded s hs := by
    rw [steps_entered] at hs
    obtain ⟨f, hf, hid⟩ := h.recorded s hs
    exact ⟨f, by simp [hf], hid⟩
  last := by
    rw [steps_entered]
    exact h.last
  latest := by
    rw [steps_entered]
    exact h.latest
  ordered := h.ordered
  stack := by
    rw [frames_entered]
    show (_ :: m.stack).reverse.Sublist _
    rw [List.reverse_cons]
    exact h.stack.append (.refl _)

theorem record (h : Accounts past m) {frame : Frame} {below : List Frame}
    (hstack : m.stack = frame :: below) (rule : Json) (detail : Option CallDetail)
    (snapshot : Option Snapshot) :
    Accounts (past ++ [.logged ⟨m.log.next, frame.id, rule, detail, snapshot⟩])
      { m with log := m.log.record frame.id rule detail snapshot } where
  frames := by
    rw [frames_logged]
    exact h.frames
  steps := by
    rw [steps_logged, List.map_append, h.steps]
    exact List.range_succ.symm
  recorded s hs := by
    rw [steps_logged, List.mem_append, List.mem_singleton] at hs
    rw [frames_logged]
    rcases hs with hs | rfl
    · exact h.recorded s hs
    · refine ⟨frame, h.stack.subset ?_, rfl⟩
      rw [hstack]
      simp
  last := by
    rw [steps_logged, List.getLast?_concat]
    rfl
  latest id s hs := by
    rw [StepLog.latestOf_record] at hs
    rw [steps_logged, List.reverse_concat]
    split at hs
    · next hid =>
      cases hs
      simp [hid]
    · next hid =>
      rw [List.find?_cons_of_neg (by simpa using Ne.symm hid)]
      exact h.latest id s hs
  ordered := h.ordered.record _ _ _ _
  stack := by
    rw [frames_logged]
    exact h.stack

theorem leave (h : Accounts past m) : Accounts past { m with stack := m.stack.tail } where
  frames := h.frames
  steps := h.steps
  recorded := h.recorded
  last := h.last
  latest := h.latest
  ordered := h.ordered
  stack := (List.tail_sublist m.stack).reverse.trans h.stack

theorem forget (h : Accounts past m) (id : FrameId) :
    Accounts past { m with log := m.log.forget id } where
  frames := h.frames
  steps := h.steps
  recorded := h.recorded
  last := h.last
  latest other s hs := by
    have hkept : other ∈ (m.log.forget id).frames := by
      rw [StepLog.mem_frames, hs]
      rfl
    rw [StepLog.latestOf_forget _ (h.ordered.mem_frames_forget.mp hkept).1] at hs
    exact h.latest other s hs
  ordered := h.ordered.forget id
  stack := h.stack

end History.Accounts

theorem Course.accounts {sink : Sink} {verbose : Bool}
    (h : Course (.freshInto sink verbose) past m) : past.Accounts m := by
  induction h with
  | start => exact .fresh sink verbose
  | aside _ hstack hmade hlog ih => exact ih.aside hstack hmade hlog
  | enter name scope _ ih => exact ih.enter name scope
  | record rule detail snapshot _ hstack ih => exact ih.record hstack rule detail snapshot
  | leave _ ih => exact ih.leave
  | forget id _ ih => exact ih.forget id

/-! ## What the log tells -/

/-- What the log of a machine tells about its history. The names of frames are all different, and those
of states; the last entry is the last step; what is kept under the name of a frame is the latest step
with that name, so no two frames have the same step; and a traceback shows frames in the order in
which they were made, each with a step of its own. -/
structure History.Consistent (past : History) (m : Machine) : Prop where
  frameNames : (past.frames.map fun f => frameName f.id).Nodup
  stateNames : (past.steps.map Step.stateName).Nodup
  recorded : ∀ s ∈ past.steps, ∃ f ∈ past.frames, f.id = s.frame
  counted : m.framesMade = past.frames.length ∧ m.log.next = past.steps.length
  last : m.log.last = past.steps.getLast?
  absent : m.log.last = none ↔ m.log.next = 0
  index : ∀ s, m.log.last = some s → s.index = m.log.next - 1
  latest : ∀ id s, m.log.latestOf id = some s →
    past.steps.reverse.find? (fun t => frameName t.frame == frameName id) = some s
  apart : ∀ id id' s s', m.log.latestOf id = some s → m.log.latestOf id' = some s' → id ≠ id' →
    s.index ≠ s'.index
  stack : ((Traceback.frames m).map (·.1)).Sublist past.frames
  shown : ∀ frame s, (frame, some s) ∈ Traceback.frames m → s ∈ past.steps ∧ s.frame = frame.id

namespace History.Accounts

theorem mem_steps (h : Accounts past m) {id : FrameId} {s : Step}
    (hs : m.log.latestOf id = some s) : s ∈ past.steps ∧ s.frame = id := by
  have hfind := h.latest id s hs
  exact ⟨List.mem_reverse.mp (List.mem_of_find?_eq_some hfind), by
    simpa using List.find?_some hfind⟩

theorem length_frames (h : Accounts past m) : past.frames.length = m.framesMade := by
  simpa using congrArg List.length h.frames

theorem length_steps (h : Accounts past m) : past.steps.length = m.log.next := by
  simpa using congrArg List.length h.steps

theorem consistent (h : Accounts past m) : past.Consistent m where
  frameNames := by
    have hnames : past.frames.map (fun f => frameName f.id) =
        (List.range m.framesMade).map frameName := by
      rw [← h.frames, List.map_map]
      rfl
    exact hnames ▸ List.nodup_range.map frameName_injective
  stateNames := by
    have hnames : past.steps.map Step.stateName =
        (List.range m.log.next).map fun n => "s_" ++ zeroPadded 6 n := by
      rw [← h.steps, List.map_map]
      rfl
    exact hnames ▸ List.nodup_range.map (prefixed_zeroPadded_injective "s_" 6)
  recorded := h.recorded
  counted := ⟨h.length_frames.symm, h.length_steps.symm⟩
  last := h.last
  absent := by
    rw [h.last, List.getLast?_eq_none_iff, ← h.length_steps, List.length_eq_zero_iff]
  index s hs := by
    have hindex := congrArg List.getLast? h.steps
    rw [List.getLast?_map, ← h.last, hs, List.getLast?_range] at hindex
    split at hindex
    · cases hindex
    · exact Option.some.inj hindex
  latest id s hs := by
    have hsame : (fun t : Step => frameName t.frame == frameName id) = (·.frame == id) := by
      funext t
      rw [Bool.eq_iff_iff, beq_iff_eq, beq_iff_eq, frameName_injective.eq_iff]
    exact hsame ▸ h.latest id s hs
  apart id id' s s' hs hs' hne heq := by
    obtain ⟨hmem, hframe⟩ := h.mem_steps hs
    obtain ⟨hmem', hframe'⟩ := h.mem_steps hs'
    have hnodup : (past.steps.map (·.index)).Nodup := h.steps ▸ List.nodup_range
    have hstep : s = s' := List.inj_on_of_nodup_map hnodup hmem hmem' heq
    exact hne (hframe.symm.trans (hstep ▸ hframe'))
  stack := by
    have hframes : (Traceback.frames m).map (·.1) = m.stack.reverse := by
      rw [Traceback.frames, List.map_map]
      exact List.map_id _
    exact hframes ▸ h.stack
  shown frame s hs := by
    obtain ⟨f, -, heq⟩ := List.mem_map.mp hs
    obtain ⟨rfl, hlatest⟩ := Prod.mk.inj heq
    exact h.mem_steps hlatest

end History.Accounts

/-- Wherever the primitive computations lead a fresh machine, its log tells the truth. -/
theorem Course.consistent {sink : Sink} {verbose : Bool}
    (h : Course (.freshInto sink verbose) past m) : past.Consistent m :=
  h.accounts.consistent

end ScriptLang
