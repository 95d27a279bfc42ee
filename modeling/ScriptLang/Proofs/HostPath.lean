import ScriptLang.CommandLine
import ScriptLang.Proofs.VirtualPath.Normal

/-!
# Host paths below a root

A path leads to segments, and so do its normal form and what it is joined with. A path below a root
leads to the segments of the root and some more; those are its virtual path, and the store below the
root leads back from it to the same segments.

Results:
* `segments_normalize`: the normal form of an absolute path leads to the same segments;
* `virtualPath_eq_ok`: the names below a root that a virtual path is made of;
* `hostPath_eq_below`: the host path of a virtual path, the root and the names of the path below it;
* `segments_hostPath`: the host path of the virtual path of a path leads to the same segments.
-/
namespace ScriptLang

open VirtualPath (IsSegment lead segmentsOf splitSlashes)

namespace HostPath

/-- The segments that a path leads to from the root. -/
def segments (path : List Char) : List (List Char) := segmentsOf (splitSlashes path)

theorem isSegment_segments (path : List Char) : ∀ s ∈ segments path, IsSegment s :=
  VirtualPath.isSegment_segmentsOf (VirtualPath.splitSlashes_no_slash path)

theorem segments_slash (path : List Char) : segments ('/' :: path) = segments path := by
  rw [segments, VirtualPath.splitSlashes_slash, VirtualPath.segmentsOf_eq, VirtualPath.lead_nil]
  rfl

/-- A text of segments leads to them. -/
theorem segments_joinParts {names : List (List Char)} (h : ∀ s ∈ names, IsSegment s) :
    segments (joinParts names) = names := VirtualPath.lead_intercalate [] h

/-- A relative path leads on from where a directory leads to. -/
theorem segments_join {directory path : List Char} (hd : directory ≠ [])
    (hp : isAbsolute path = false) :
    segments (join directory path) = lead (segments directory) (splitSlashes path) := by
  have hslash (as : List Char) :
      segments (as ++ '/' :: path) = lead (segments as) (splitSlashes path) := by
    rw [segments, VirtualPath.splitSlashes_append_slash, VirtualPath.segmentsOf_eq,
      VirtualPath.lead_append]
    rfl
  rw [join, hp, if_neg Bool.false_ne_true]
  split
  · next hlast =>
    -- the directory ends with a slash, behind which nothing stands
    have hlast : directory.getLast? = some '/' := by simpa [hd] using hlast
    obtain ⟨as, rfl⟩ := List.getLast?_eq_some_iff.mp hlast
    have has : segments (as ++ ['/']) = segments as := by
      rw [segments, VirtualPath.splitSlashes_append_slash, VirtualPath.segmentsOf_eq,
        VirtualPath.lead_append]
      exact VirtualPath.lead_no_parts _
    rw [has, List.append_assoc, List.singleton_append]
    exact hslash as
  · exact hslash directory

/-! ## Normal form -/

/-- In an absolute path no `..` is ever kept, so that its parts count as in a virtual path. -/
theorem foldl_step_absolute (parts : List (List Char)) {before : List (List Char)}
    (h : ['.', '.'] ∉ before) :
    parts.foldl (step true) before = parts.foldl VirtualPath.step before := by
  induction parts generalizing before with
  | nil => rfl
  | cons part parts ih =>
    have hstep : step true before part = VirtualPath.step before part := by
      unfold step VirtualPath.step
      split
      · rfl
      · by_cases hdots : part = ['.', '.']
        · rw [if_neg (by simpa using hdots), if_pos hdots]
          cases before with
          | nil => rfl
          | cons last before =>
            have hlast : last ≠ ['.', '.'] := fun heq => h (heq ▸ List.mem_cons_self)
            simp [hlast]
        · rw [if_pos hdots, if_neg hdots]
    have hkept : ['.', '.'] ∉ VirtualPath.step before part := by
      unfold VirtualPath.step
      split
      · exact h
      · split
        · exact fun hmem => h (List.mem_of_mem_tail hmem)
        · next hdots => simp [Ne.symm hdots, h]
    rw [List.foldl_cons, List.foldl_cons, hstep, ih hkept]

theorem exists_eq_cons_of_isAbsolute {path : List Char} (h : isAbsolute path = true) :
    ∃ rest, path = '/' :: rest := by
  cases path with
  | nil => cases h
  | cons c rest =>
    have hc : c = '/' := by simpa [isAbsolute] using h
    exact ⟨rest, by rw [hc]⟩

theorem leadingSlashes_eq {path : List Char} (h : isAbsolute path = true) :
    ∃ slashes, (slashes = [] ∨ slashes = ['/']) ∧ leadingSlashes path = slashes ++ ['/'] := by
  obtain ⟨rest, rfl⟩ := exists_eq_cons_of_isAbsolute h
  unfold leadingSlashes
  dsimp only
  split
  · exact ⟨['/'], .inr rfl, rfl⟩
  · exact ⟨[], .inl rfl, by simp⟩

/-- The normal form of an absolute path. -/
theorem normalize_eq {path : List Char} (h : isAbsolute path = true) :
    ∃ slashes, (slashes = [] ∨ slashes = ['/']) ∧
      normalize path = slashes ++ '/' :: joinParts (segments path) := by
  obtain ⟨slashes, hslashes, hleading⟩ := leadingSlashes_eq h
  have hnonempty : (slashes ++ ['/']).isEmpty = false := by simp
  refine ⟨slashes, hslashes, ?_⟩
  unfold normalize
  dsimp only
  rw [hleading, hnonempty, Bool.not_false, foldl_step_absolute _ List.not_mem_nil,
    if_neg (by simp), List.append_assoc]
  rfl

theorem segments_normalize {path : List Char} (h : isAbsolute path = true) :
    segments (normalize path) = segments path := by
  have hjoined : segments ('/' :: joinParts (segments path)) = segments path := by
    rw [segments_slash, segments_joinParts (isSegment_segments path)]
  obtain ⟨slashes, rfl | rfl, hnormal⟩ := normalize_eq h
  · rw [hnormal]
    exact hjoined
  · rw [hnormal, List.singleton_append, segments_slash]
    exact hjoined

theorem isAbsolute_normalize {path : List Char} (h : isAbsolute path = true) :
    isAbsolute (normalize path) = true := by
  obtain ⟨slashes, rfl | rfl, hnormal⟩ := normalize_eq h <;> rw [hnormal] <;> rfl

theorem isAbsolute_join {directory path : List Char} (h : isAbsolute directory = true) :
    isAbsolute (join directory path) = true := by
  cases directory with
  | nil => cases h
  | cons c directory =>
    unfold join
    split
    · assumption
    · split <;> exact h

/-! ## Relations -/

theorem parts_slash (path : List Char) : parts ('/' :: path) = parts path := by
  rw [parts, VirtualPath.splitSlashes_slash]
  rfl

theorem parts_joinParts {names : List (List Char)} (h : ∀ s ∈ names, IsSegment s) :
    parts (joinParts names) = names := by
  by_cases hnil : names = []
  · subst hnil
    rfl
  · rw [parts, joinParts, VirtualPath.splitSlashes_intercalate hnil fun s hs => (h s hs).no_slash]
    exact List.filter_eq_self.mpr fun s hs => by simp [(h s hs).ne_nil]

theorem parts_normalize {path : List Char} (h : isAbsolute path = true) :
    parts (normalize path) = segments path := by
  have hjoined : parts ('/' :: joinParts (segments path)) = segments path := by
    rw [parts_slash, parts_joinParts (isSegment_segments path)]
  obtain ⟨slashes, rfl | rfl, hnormal⟩ := normalize_eq h
  · rw [hnormal]
    exact hjoined
  · rw [hnormal, List.singleton_append, parts_slash]
    exact hjoined

theorem common_isPrefix {α : Type} [BEq α] [LawfulBEq α] (as bs : List α) :
    common as bs <+: as ∧ common as bs <+: bs := by
  induction as generalizing bs with
  | nil => exact ⟨List.nil_prefix, List.nil_prefix⟩
  | cons a as ih =>
    cases bs with
    | nil => exact ⟨List.nil_prefix, List.nil_prefix⟩
    | cons b bs =>
      unfold common
      split
      · next heq =>
        cases eq_of_beq heq
        exact ⟨List.prefix_cons_inj _ |>.mpr (ih bs).1, List.prefix_cons_inj _ |>.mpr (ih bs).2⟩
      · exact ⟨List.nil_prefix, List.nil_prefix⟩

theorem leadsOut_joinParts (rest : List (List Char)) :
    leadsOut (joinParts (['.', '.'] :: rest)) = true := by
  cases rest with
  | nil => rfl
  | cons part rest => simp [joinParts, List.intercalate, leadsOut]

theorem common_append {α : Type} [BEq α] [LawfulBEq α] (as bs : List α) :
    common (as ++ bs) as = as := by
  induction as with
  | nil => cases bs <;> rfl
  | cons a as ih => rw [List.cons_append, common, if_pos BEq.rfl, ih]

/-- The way down from a path to names below it. -/
theorem relative_of_append {path start : List Char} {names : List (List Char)}
    (h : parts path = parts start ++ names) :
    relative path start = if names = [] then ['.'] else joinParts names := by
  unfold relative
  dsimp only
  rw [h, common_append, Nat.sub_self, List.replicate_zero, List.nil_append, List.drop_left]
  simp only [List.isEmpty_iff]

/-- A way that does not lead out of where it starts goes on from there. -/
theorem relative_below {path start : List Char} (h : leadsOut (relative path start) = false) :
    ∃ rest, parts path = parts start ++ rest ∧
      relative path start = if rest = [] then ['.'] else joinParts rest := by
  obtain ⟨hthere, hhere⟩ := common_isPrefix (parts path) (parts start)
  have hback : (parts start).length - (common (parts path) (parts start)).length = 0 := by
    by_contra hne
    obtain ⟨k, hk⟩ := Nat.exists_eq_succ_of_ne_zero hne
    unfold relative at h
    dsimp only at h
    rw [hk, List.replicate_succ, List.cons_append, if_neg (by simp), leadsOut_joinParts] at h
    cases h
  have hall : common (parts path) (parts start) = parts start :=
    hhere.eq_of_length (Nat.le_antisymm hhere.length_le (Nat.sub_eq_zero_iff_le.mp hback))
  obtain ⟨rest, hrest⟩ := hall ▸ hthere
  exact ⟨rest, hrest.symm, relative_of_append hrest.symm⟩

/-! ## Below a directory -/

/-- The path of some names below a directory. A directory that ends with a slash has the one before the
names already. -/
def below (directory : List Char) (names : List (List Char)) : List Char :=
  if names = [] then directory
  else if directory.isEmpty || directory.getLast? == some '/' then directory ++ joinParts names
  else directory ++ '/' :: joinParts names

theorem below_nil (directory : List Char) : below directory [] = directory := if_pos rfl

theorem isAbsolute_joinParts {names : List (List Char)} (h : ∀ s ∈ names, IsSegment s) :
    isAbsolute (joinParts names) = false := by
  cases names with
  | nil => rfl
  | cons name names =>
    have hname := h name List.mem_cons_self
    obtain ⟨c, cs, rfl⟩ := List.exists_cons_of_ne_nil hname.ne_nil
    have hc : c ≠ '/' := fun heq => hname.no_slash (heq ▸ List.mem_cons_self)
    cases names <;> simpa [isAbsolute, joinParts, List.intercalate] using hc

theorem joinParts_eq_nil_iff {names : List (List Char)} (h : ∀ s ∈ names, IsSegment s) :
    joinParts names = [] ↔ names = [] := by
  refine ⟨fun hnil => ?_, fun hnil => by rw [hnil]; rfl⟩
  rw [← parts_joinParts h, hnil]
  rfl

theorem below_eq_join {names : List (List Char)} (h : ∀ s ∈ names, IsSegment s) (hne : names ≠ [])
    (directory : List Char) : below directory names = join directory (joinParts names) := by
  rw [below, if_neg hne, join, isAbsolute_joinParts h, if_neg Bool.false_ne_true]

theorem segments_below {directory : List Char} (hd : directory ≠ []) {names : List (List Char)}
    (h : ∀ s ∈ names, IsSegment s) :
    segments (below directory names) = segments directory ++ names := by
  by_cases hnil : names = []
  · rw [hnil, below_nil, List.append_nil]
  · rw [below_eq_join h hnil, segments_join hd (isAbsolute_joinParts h), joinParts,
      VirtualPath.lead_intercalate _ h]

theorem isAbsolute_below {directory : List Char} (hd : isAbsolute directory = true)
    {names : List (List Char)} (h : ∀ s ∈ names, IsSegment s) :
    isAbsolute (below directory names) = true := by
  by_cases hnil : names = []
  · rwa [hnil, below_nil]
  · rw [below_eq_join h hnil]
    exact isAbsolute_join hd

end HostPath

/-! ## Virtual paths -/

namespace CommandLine

open HostPath (isAbsolute joinParts segments)

/-- What has a virtual path below a root is some names below it, and those are its virtual path. -/
theorem virtualPath_eq_ok {directory path root v : String}
    (hd : isAbsolute directory.toList = true) (h : virtualPath directory path root = .ok v) :
    ∃ names, (∀ s ∈ names, IsSegment s) ∧
      segments (HostPath.join directory.toList path.toList) =
        segments (HostPath.join directory.toList root.toList) ++ names ∧
      v = String.ofList ('/' :: if names = [] then ['.'] else joinParts names) := by
  unfold virtualPath at h
  dsimp only at h
  split at h
  · cases h
  · next hinside =>
    obtain ⟨names, hparts, hway⟩ := HostPath.relative_below (Bool.not_eq_true _ ▸ hinside)
    unfold HostPath.absolute at hparts
    rw [HostPath.parts_normalize (HostPath.isAbsolute_join hd),
      HostPath.parts_normalize (HostPath.isAbsolute_join hd)] at hparts
    have hnames : ∀ s ∈ names, IsSegment s := fun s hs =>
      HostPath.isSegment_segments _ s (hparts ▸ List.mem_append_right _ hs)
    exact ⟨names, hnames, hparts, by rw [← Except.ok.inj h, hway]⟩

end CommandLine

/-! ## The store below a root -/

namespace Store.Rooted

open HostPath (below isAbsolute joinParts segments)

/-- The text of the virtual path that leads from the root to some segments. -/
theorem resolve_virtual {names : List (List Char)} (h : ∀ s ∈ names, IsSegment s) :
    (VirtualPath.resolve (String.ofList ('/' :: if names = [] then ['.'] else joinParts names))
      VirtualPath.root).toList = '/' :: joinParts names := by
  have hresolve : VirtualPath.resolveChars ('/' :: if names = [] then ['.'] else joinParts names)
      ['/'] = '/' :: joinParts (segments ('/' :: if names = [] then ['.'] else joinParts names)) :=
    rfl
  have hsegments : segments ('/' :: if names = [] then ['.'] else joinParts names) = names := by
    rw [HostPath.segments_slash]
    split
    · next hnil =>
      rw [hnil]
      rfl
    · exact HostPath.segments_joinParts h
  rw [VirtualPath.resolve, String.toList_ofList, String.toList_ofList]
  exact hresolve.trans (by rw [hsegments])

/-- The store finds a path that is resolved to some names below its root. -/
theorem hostPath_eq_below {path : String} {names : List (List Char)} (h : ∀ s ∈ names, IsSegment s)
    (hpath : (VirtualPath.resolve path VirtualPath.root).toList = '/' :: joinParts names)
    (root : String) : hostPath root path = String.ofList (below root.toList names) := by
  unfold hostPath
  rw [hpath, List.drop_one, List.tail_cons]
  dsimp only
  by_cases hnil : names = []
  · subst hnil
    exact String.ofList_toList.symm
  · rw [if_neg, HostPath.below_eq_join h hnil]
    rwa [List.isEmpty_iff, HostPath.joinParts_eq_nil_iff h]

/-- The path is absolute and leads to the segments. -/
structure LeadsTo (path : String) (names : List (List Char)) : Prop where
  isAbsolute : isAbsolute path.toList = true
  segments : segments path.toList = names

/-- A path that is below a root is found there again through its virtual path: the store leads to
the same segments. -/
theorem segments_hostPath {directory path root : String} {v : String}
    (hd : isAbsolute directory.toList = true)
    (h : CommandLine.virtualPath directory path root = .ok v) :
    LeadsTo (hostPath (CommandLine.absolute directory root) v)
      (segments (HostPath.join directory.toList path.toList)) := by
  have hjoined : isAbsolute (HostPath.join directory.toList root.toList) = true :=
    HostPath.isAbsolute_join hd
  have hroot : isAbsolute (HostPath.absolute directory.toList root.toList) = true :=
    HostPath.isAbsolute_normalize hjoined
  have hne : HostPath.absolute directory.toList root.toList ≠ [] := by
    intro hnil
    rw [hnil] at hroot
    cases hroot
  obtain ⟨names, hnames, hsegments, rfl⟩ := CommandLine.virtualPath_eq_ok hd h
  rw [hostPath_eq_below hnames (resolve_virtual hnames), CommandLine.absolute, String.toList_ofList]
  refine ⟨?_, ?_⟩ <;> rw [String.toList_ofList]
  · exact HostPath.isAbsolute_below hroot hnames
  · rw [HostPath.segments_below hne hnames, hsegments, HostPath.absolute,
      HostPath.segments_normalize hjoined]

end Store.Rooted

end ScriptLang
