import ScriptLang.Proofs.HostPath
import ScriptLang.Proofs.VirtualPath.Composition

/-!
# A store does not leave its root

The host path of a virtual path is the root and names below it: the segments of the path in normal
form, none of which leads back. The names can be told from the host path, so that two virtual paths
have the same host path only if they have the same normal form.

Results:
* `parts_drop_below`: the names below a directory can be told from their path;
* `hostPath_eq_foldl_join`: the names are joined to the root one by one;
* `hostPath_confined`: a host path is the root or below it, and stands for one normal form only.
-/
namespace ScriptLang

open VirtualPath (IsSegment)

namespace HostPath

/-! ## Names below a directory -/

theorem parts_drop_below (directory : List Char) {names : List (List Char)}
    (h : ∀ s ∈ names, IsSegment s) :
    parts ((below directory names).drop directory.length) = names := by
  unfold below
  split
  · next hnil =>
    rw [List.drop_length, hnil]
    rfl
  · split
    · rw [List.drop_left, parts_joinParts h]
    · rw [List.drop_left, parts_slash, parts_joinParts h]

/-- Between a directory and names below it stands the same, whatever the names are. -/
theorem exists_below_eq (directory : List Char) :
    ∃ before, ∀ names, names ≠ [] → below directory names = before ++ joinParts names := by
  by_cases hslash : (directory.isEmpty || directory.getLast? == some '/') = true
  · exact ⟨directory, fun names hne => by rw [below, if_neg hne, if_pos hslash]⟩
  · refine ⟨directory ++ ['/'], fun names hne => ?_⟩
    rw [below, if_neg hne, if_neg hslash, List.append_assoc, List.singleton_append]

/-- A slash stands behind a name. -/
theorem below_name (before : List Char) {name : List Char} (hname : IsSegment name)
    {names : List (List Char)} (hne : names ≠ []) :
    below (before ++ name) names = before ++ name ++ '/' :: joinParts names := by
  have hlast : name.getLast? ≠ some '/' := fun h => hname.no_slash (List.mem_of_getLast? h)
  rw [below, if_neg hne, if_neg]
  simp [hname.ne_nil, hlast]

theorem below_cons (directory : List Char) {name : List Char} (hname : IsSegment name)
    (names : List (List Char)) :
    below directory (name :: names) = below (join directory name) names := by
  have hone : join directory name = below directory [name] := by
    rw [below_eq_join (List.forall_mem_singleton.mpr hname) (List.cons_ne_nil _ _), joinParts,
      List.intercalate_singleton]
  rw [hone]
  by_cases hnil : names = []
  · rw [hnil, below_nil]
  · obtain ⟨before, hbefore⟩ := exists_below_eq directory
    rw [hbefore _ (List.cons_ne_nil _ _), hbefore _ (List.cons_ne_nil _ _), joinParts, joinParts,
      List.intercalate_singleton, below_name _ hname hnil, List.intercalate_cons_of_ne_nil hnil]
    simp [joinParts]

/-- To join names one by one is to go below the directory by all of them. -/
theorem foldl_join {names : List (List Char)} (h : ∀ s ∈ names, IsSegment s)
    (directory : List Char) : names.foldl join directory = below directory names := by
  induction names generalizing directory with
  | nil => rfl
  | cons name names ih =>
    obtain ⟨hname, hnames⟩ := List.forall_mem_cons.mp h
    rw [List.foldl_cons, ih hnames, below_cons directory hname names]

end HostPath

namespace Store.Rooted

open HostPath (below join joinParts)

/-- A host path is the root and the segments of the resolved path below it. -/
theorem exists_names (path : String) : ∃ names, (∀ s ∈ names, IsSegment s) ∧
    (VirtualPath.resolve path VirtualPath.root).toList = '/' :: joinParts names := by
  obtain ⟨names, hnames, hpath⟩ := VirtualPath.isCanonical_resolve path VirtualPath.root
  exact ⟨names, hnames, by rw [hpath, String.toList_ofList]; rfl⟩

/-- The store joins the segments of a path to its root one by one. -/
theorem hostPath_eq_foldl_join (root path : String) :
    hostPath root path = String.ofList
      ((HostPath.parts (VirtualPath.resolve path VirtualPath.root).toList).foldl join root.toList) := by
  obtain ⟨names, hnames, hpath⟩ := exists_names path
  rw [hostPath_eq_below hnames hpath, hpath, HostPath.parts_slash, HostPath.parts_joinParts hnames,
    HostPath.foldl_join hnames]

/-- Whatever the root and the virtual path: the host path is the root or some names below it, none of
which is empty, leads back or has a slash in it. Two virtual paths have the same host path exactly if
they have the same normal form. -/
theorem hostPath_confined (root path other : String) :
    (∃ names, (∀ s ∈ names, IsSegment s) ∧
      hostPath root path = String.ofList (below root.toList names)) ∧
    (hostPath root path = hostPath root other ↔
      VirtualPath.resolve path VirtualPath.root = VirtualPath.resolve other VirtualPath.root) := by
  obtain ⟨names, hnames, hpath⟩ := exists_names path
  obtain ⟨others, hothers, hother⟩ := exists_names other
  refine ⟨⟨names, hnames, hostPath_eq_below hnames hpath root⟩, ?_, fun heq => ?_⟩
  · intro heq
    rw [hostPath_eq_below hnames hpath, hostPath_eq_below hothers hother, String.ofList_inj] at heq
    have hsame : names = others := by
      rw [← HostPath.parts_drop_below root.toList hnames, heq, HostPath.parts_drop_below _ hothers]
    rw [← String.toList_inj, hpath, hother, hsame]
  · unfold hostPath
    rw [heq]

end Store.Rooted

end ScriptLang
