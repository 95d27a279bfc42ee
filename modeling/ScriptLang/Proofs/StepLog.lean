import ScriptLang.Evaluator

/-!
# What the step log knows

The latest step of each frame after a step has been recorded and after a frame has been forgotten,
and which frames have one.
-/
namespace ScriptLang.StepLog

/-- The log has counted its steps. -/
structure Sound (log : StepLog) : Prop where
  last : log.last.map (·.index) = if log.next = 0 then none else some (log.next - 1)
  past : ∀ entry ∈ log.latest, entry.2.index < log.next

theorem sound_empty : Sound .empty where
  last := rfl
  past entry h := by cases h

theorem mem_replace {entries : List (FrameId × Step)} {step : Step} {entry : FrameId × Step}
    (h : entry ∈ replace entries step) : entry = (step.frame, step) ∨ entry ∈ entries := by
  induction entries with
  | nil => exact .inl (List.mem_singleton.mp h)
  | cons first rest ih =>
    unfold replace at h
    split at h
    · rcases List.mem_cons.mp h with h | h
      · exact .inl h
      · exact .inr (List.mem_cons_of_mem _ h)
    · split at h
      · exact List.mem_cons.mp h
      · rcases List.mem_cons.mp h with h | h
        · exact .inr (h ▸ List.mem_cons_self)
        · exact (ih h).imp_right (List.mem_cons_of_mem _)

theorem lookup_replace (entries : List (FrameId × Step)) (step : Step) (id : FrameId) :
    (replace entries step).lookup id =
      if id = step.frame then some step else entries.lookup id := by
  induction entries with
  | nil =>
    by_cases h : id = step.frame
    · simp [replace, h]
    · simp [replace, List.lookup_cons, h, beq_eq_false_iff_ne.mpr h]
  | cons first rest ih =>
    obtain ⟨key, value⟩ := first
    unfold replace
    by_cases hid : id = step.frame
    · subst hid
      split
      · simp
      next hkey =>
        have hne : (step.frame == key) = false := beq_eq_false_iff_ne.mpr (Ne.symm hkey)
        split
        · simp
        · simpa [List.lookup_cons, hne] using ih
    · have hne : (id == step.frame) = false := beq_eq_false_iff_ne.mpr hid
      split
      next hkey => simp [List.lookup_cons, hne, show key = step.frame from hkey]
      · split
        · simp [List.lookup_cons, hne]
        · simp [List.lookup_cons, ih, hid]

theorem latestOf_record (log : StepLog) (frame id : FrameId) (rule : Json)
    (detail : Option CallDetail) (snapshot : Option Snapshot) :
    (log.record frame rule detail snapshot).latestOf id =
      if id = frame then some ⟨log.next, frame, rule, detail, snapshot⟩ else log.latestOf id :=
  lookup_replace _ _ _

theorem Sound.record {log : StepLog} (h : log.Sound) (frame : FrameId) (rule : Json)
    (detail : Option CallDetail) (snapshot : Option Snapshot) :
    (log.record frame rule detail snapshot).Sound where
  last := rfl
  past entry hentry := by
    rcases mem_replace hentry with rfl | hentry
    · exact Nat.lt_succ_self _
    · exact Nat.lt_succ_of_lt (h.past entry hentry)

theorem lookup_eraseP (entries : List (FrameId × Step)) {frame id : FrameId} (h : id ≠ frame) :
    (entries.eraseP (·.1 == frame)).lookup id = entries.lookup id := by
  induction entries with
  | nil => rfl
  | cons first rest ih =>
    obtain ⟨key, value⟩ := first
    rw [List.eraseP_cons]
    by_cases hkey : key = frame
    · have hne : (id == key) = false := beq_eq_false_iff_ne.mpr (hkey ▸ h)
      simp [hkey, List.lookup_cons, hkey ▸ hne]
    · simp [beq_eq_false_iff_ne.mpr hkey, List.lookup_cons, ih]

theorem latestOf_forget (log : StepLog) {frame id : FrameId} (h : id ≠ frame) :
    (log.forget frame).latestOf id = log.latestOf id :=
  lookup_eraseP _ h

theorem Sound.forget {log : StepLog} (h : log.Sound) (frame : FrameId) :
    (log.forget frame).Sound where
  last := h.last
  past entry hentry := h.past entry (List.mem_of_mem_eraseP hentry)

theorem Sound.latestOf {log : StepLog} (h : log.Sound) {id : FrameId} {step : Step}
    (hs : log.latestOf id = some step) : step.index < log.next := by
  obtain ⟨before, after, heq, -⟩ := List.lookup_eq_some_iff.mp hs
  exact h.past (id, step) (by simp [heq])

/-- The frame has a latest step that is not before step `n`. -/
def LoggedSince (log : StepLog) (n : Nat) (id : FrameId) : Prop :=
  ∃ step, log.latestOf id = some step ∧ n ≤ step.index

/-- The frame below is in a call, and the frame above has gone on since. -/
def Called (log : StepLog) (above below : Frame) : Prop :=
  ∃ later earlier, log.latestOf above.id = some later ∧ log.latestOf below.id = some earlier ∧
    earlier.rule = Evaluator.callRule ∧ earlier.index < later.index

/-! ## Frames with an entry -/

def frames (log : StepLog) : List FrameId := log.latest.map (·.1)

/-- The entries are those of different frames, the last frame first. -/
def Ordered (log : StepLog) : Prop := log.frames.Pairwise (· > ·)

theorem Ordered.nodup {log : StepLog} (h : log.Ordered) : log.frames.Nodup :=
  List.Pairwise.imp Nat.ne_of_gt h

theorem length_frames (log : StepLog) : log.frames.length = log.latest.length := List.length_map _

theorem mem_frames {log : StepLog} {id : FrameId} :
    id ∈ log.frames ↔ (log.latestOf id).isSome = true := by
  rw [latestOf, List.lookup_isSome_iff, frames, List.mem_map]
  simp only [beq_iff_eq, @eq_comm _ id]

theorem mem_frames_record {log : StepLog} {frame id : FrameId} {rule : Json}
    {detail : Option CallDetail} {snapshot : Option Snapshot} :
    id ∈ (log.record frame rule detail snapshot).frames ↔ id = frame ∨ id ∈ log.frames := by
  rw [mem_frames, mem_frames, latestOf_record]
  split <;> simp [*]

theorem frames_forget (log : StepLog) (frame : FrameId) :
    (log.forget frame).frames = log.frames.erase frame := by
  rw [frames, frames, forget, List.erase_eq_eraseP', List.eraseP_map]
  rfl

theorem Ordered.mem_frames_forget {log : StepLog} (h : log.Ordered) {frame id : FrameId} :
    id ∈ (log.forget frame).frames ↔ id ≠ frame ∧ id ∈ log.frames := by
  rw [frames_forget, h.nodup.mem_erase_iff]

theorem ordered_empty : empty.Ordered := .nil

theorem ordered_replace {entries : List (FrameId × Step)} {step : Step}
    (h : entries.Pairwise (·.1 > ·.1)) : (replace entries step).Pairwise (·.1 > ·.1) := by
  induction entries with
  | nil => exact List.pairwise_singleton _ _
  | cons first rest ih =>
    obtain ⟨hfirst, hrest⟩ := List.pairwise_cons.mp h
    unfold replace
    split
    next heq => exact List.pairwise_cons.mpr ⟨fun e he => heq ▸ hfirst e he, hrest⟩
    · split
      next hlt =>
        refine List.pairwise_cons.mpr ⟨List.forall_mem_cons.mpr ⟨hlt, fun e he => ?_⟩, h⟩
        exact Nat.lt_trans (hfirst e he) hlt
      next hne hge =>
        refine List.pairwise_cons.mpr ⟨fun e he => ?_, ih hrest⟩
        rcases mem_replace he with rfl | he
        · exact Nat.lt_of_le_of_ne (Nat.le_of_not_lt hge) (Ne.symm hne)
        · exact hfirst e he

theorem Ordered.record {log : StepLog} (h : log.Ordered) (frame : FrameId) (rule : Json)
    (detail : Option CallDetail) (snapshot : Option Snapshot) :
    (log.record frame rule detail snapshot).Ordered :=
  List.pairwise_map.mpr (ordered_replace (List.pairwise_map.mp h))

theorem Ordered.forget {log : StepLog} (h : log.Ordered) (frame : FrameId) :
    (log.forget frame).Ordered := by
  rw [Ordered, frames_forget]
  exact List.Pairwise.sublist List.erase_sublist h

end ScriptLang.StepLog
