import Mathlib.Data.List.Induction
import ScriptLang.Proofs.Store.Rooted

/-!
# Host paths and the virtual paths below a root

A host path has a virtual path below a root exactly if its absolute normal form is that of the root or
some names below it, and the store below the root leads back to that normal form. What the program and
the artifact are given by always has one below the root that is chosen when none is asked for, the
deepest directory that both are in. A normal form may start with two slashes, which the way from one
path to another does not see; two such forms that differ in this alone are left out.

Results:
* `absolute_eq_render`: an absolute normal form is a canonical virtual path;
* `virtualPath_of_append`: names below a root are a virtual path;
* `exists_names_defaultRoot`: what a default root is chosen for is some names below it;
* `virtualPath_agrees`: when there is a virtual path, and where it leads to.
-/
namespace ScriptLang

open VirtualPath (IsSegment render)

namespace HostPath

/-! ## The way down -/

theorem parts_append_slash (as bs : List Char) : parts (as ++ '/' :: bs) = parts as ++ parts bs := by
  rw [parts, VirtualPath.splitSlashes_append_slash, List.filter_append]
  rfl

/-- A path that leads out has a part that does. -/
theorem dots_mem_of_leadsOut {path : List Char} (h : leadsOut path = true) :
    ['.', '.'] ∈ parts path := by
  rcases (Bool.or_eq_true ..).mp h with hall | hstart
  · rw [eq_of_beq hall]
    decide
  · have hpath : path = ['.', '.'] ++ '/' :: path.drop 3 := by
      have htake := List.take_append_drop 3 path
      rw [eq_of_beq hstart] at htake
      exact htake.symm
    rw [hpath, parts_append_slash]
    exact List.mem_append_left _ (by decide)

theorem leadsOut_names {names : List (List Char)} (h : ∀ s ∈ names, IsSegment s) :
    leadsOut (if names = [] then ['.'] else joinParts names) = false := by
  split
  · rfl
  · rw [Bool.eq_false_iff]
    intro hout
    have hmem := dots_mem_of_leadsOut hout
    rw [parts_joinParts h] at hmem
    exact (h _ hmem).ne_dots rfl

/-! ## Normal forms -/

/-- The path starts with two slashes. -/
def StartsTwice (path : List Char) : Prop := ['/', '/'] <+: path

instance (path : List Char) : Decidable (StartsTwice path) :=
  inferInstanceAs (Decidable (['/', '/'] <+: path))

/-- The path is that of a directory or of something below it. -/
def IsWithin (directory path : List Char) : Prop :=
  ∃ names, (∀ s ∈ names, IsSegment s) ∧ path = below directory names

theorem normalize_eq_render {path : List Char} (h : isAbsolute path = true)
    (honce : ¬ StartsTwice (normalize path)) : normalize path = render (segments path) := by
  obtain ⟨slashes, rfl | rfl, hnormal⟩ := normalize_eq h
  · exact hnormal
  · exact absurd ⟨_, hnormal.symm⟩ honce

theorem below_render {before : List (List Char)} (hbefore : ∀ s ∈ before, IsSegment s)
    (names : List (List Char)) : below (render before) names = render (before ++ names) := by
  by_cases hnames : names = []
  · rw [hnames, below_nil, List.append_nil]
  · rcases List.eq_nil_or_concat before with rfl | ⟨above, last, rfl⟩
    · rw [below, if_neg hnames]
      rfl
    · rw [List.concat_eq_append] at hbefore ⊢
      have hlast := hbefore last (by simp)
      have hne : above ++ [last] ≠ [] := by simp
      rw [VirtualPath.render_append _ hnames, if_neg hne,
        VirtualPath.render_append above (List.cons_ne_nil _ _), VirtualPath.render_singleton,
        List.append_cons, below_name _ hlast hnames]
      rfl

theorem isWithin_render_iff {segments others : List (List Char)} (h : ∀ s ∈ segments, IsSegment s)
    (hothers : ∀ s ∈ others, IsSegment s) :
    IsWithin (render segments) (render others) ↔ ∃ names, others = segments ++ names := by
  constructor
  · rintro ⟨names, hnames, heq⟩
    rw [below_render h] at heq
    exact ⟨names, VirtualPath.render_injective hothers
      (List.forall_mem_append.mpr ⟨h, hnames⟩) heq⟩
  · rintro ⟨names, rfl⟩
    exact ⟨names, (List.forall_mem_append.mp hothers).2, (below_render h names).symm⟩

/-! ## The directory of a path -/

theorem parts_concat_slash (path : List Char) : parts (path ++ ['/']) = parts path := by
  rw [parts_append_slash]
  exact List.append_nil _

/-- Slashes at the end add no part. -/
theorem parts_trimSlashes (path : List Char) : parts (trimSlashes path) = parts path := by
  induction path using List.reverseRecOn with
  | nil => rfl
  | append_singleton path c ih =>
    rw [trimSlashes, List.reverse_append, List.reverse_singleton, List.singleton_append,
      List.dropWhile_cons]
    split
    · next hc =>
      rw [eq_of_beq hc, parts_concat_slash, ← ih]
      rfl
    · rw [List.reverse_cons, List.reverse_reverse]

/-- The directory of an absolute path has the parts of the path before the last slash. -/
theorem parts_directory_isPrefix {path : List Char} (h : isAbsolute path = true) :
    parts (directory path) <+: parts path := by
  obtain ⟨rest, rfl⟩ := exists_eq_cons_of_isAbsolute h
  obtain ⟨name, before, hreverse, hname⟩ :=
    List.eq_append_cons_of_mem (List.mem_reverse.mpr (List.mem_cons_self : '/' ∈ '/' :: rest))
  have hpath : '/' :: rest = before.reverse ++ '/' :: name.reverse := by
    rw [← List.reverse_reverse ('/' :: rest), hreverse, List.reverse_append, List.reverse_cons,
      List.append_assoc, List.singleton_append]
  have hname : '/' ∉ name.reverse := fun hmem => hname (List.mem_reverse.mp hmem)
  have hhead : parts (directory (before.reverse ++ '/' :: name.reverse)) = parts before.reverse := by
    rw [directory, List.append_cons, VirtualPath.dropWhile_reverse_append _ hname,
      VirtualPath.dropWhile_reverse_slash, List.reverse_cons, List.reverse_reverse]
    split
    · exact parts_concat_slash _
    · rw [parts_trimSlashes, parts_concat_slash]
  rw [hpath, hhead, parts_append_slash]
  exact List.prefix_append _ _

/-! ## The deepest common directory -/

theorem foldl_common_isPrefix {α : Type} [BEq α] [LawfulBEq α] (first : List α)
    (rest : List (List α)) : ∀ x ∈ first :: rest, rest.foldl common first <+: x := by
  induction rest generalizing first with
  | nil =>
    intro x hx
    rw [List.mem_singleton.mp hx]
    exact List.prefix_rfl
  | cons next rest ih =>
    obtain ⟨hboth, hrest⟩ := List.forall_mem_cons.mp (ih (common first next))
    rw [List.foldl_cons]
    intro x hx
    rcases List.mem_cons.mp hx with rfl | hx
    · exact hboth.trans (common_isPrefix _ _).1
    · rcases List.mem_cons.mp hx with rfl | hx
      · exact hboth.trans (common_isPrefix _ _).2
      · exact hrest x hx

theorem exists_commonDirectory {paths : List (List Char)} (hne : paths ≠ []) :
    ∃ names, commonDirectory paths = '/' :: joinParts names ∧
      ∀ path ∈ paths, names <+: (parts path).filter (· != ['.']) := by
  obtain ⟨first, rest, rfl⟩ := List.exists_cons_of_ne_nil hne
  refine ⟨_, rfl, fun path hpath => foldl_common_isPrefix _ _ _ ?_⟩
  exact List.mem_map_of_mem (f := fun path => (parts path).filter (· != ['.'])) hpath

end HostPath

namespace CommandLine

open HostPath (IsWithin StartsTwice isAbsolute joinParts segments)

variable {directory path root : String}

theorem absolute_eq_render (hd : isAbsolute directory.toList = true)
    (honce : ¬ StartsTwice (absolute directory path).toList) :
    absolute directory path =
      String.ofList (render (segments (HostPath.join directory.toList path.toList))) := by
  have hjoined : isAbsolute (HostPath.join directory.toList path.toList) = true :=
    HostPath.isAbsolute_join hd
  rw [absolute, String.toList_ofList] at honce
  rw [absolute, HostPath.absolute, HostPath.normalize_eq_render hjoined honce]

/-- Names below a root are a virtual path. -/
theorem virtualPath_of_append (hd : isAbsolute directory.toList = true) {names : List (List Char)}
    (h : segments (HostPath.join directory.toList path.toList) =
      segments (HostPath.join directory.toList root.toList) ++ names) :
    virtualPath directory path root =
      .ok (String.ofList ('/' :: if names = [] then ['.'] else joinParts names)) := by
  have hnames : ∀ s ∈ names, IsSegment s := fun s hs =>
    HostPath.isSegment_segments _ s (h ▸ List.mem_append_right _ hs)
  have hparts : HostPath.parts (HostPath.absolute directory.toList path.toList) =
      HostPath.parts (HostPath.absolute directory.toList root.toList) ++ names := by
    rw [HostPath.absolute, HostPath.absolute, HostPath.parts_normalize (HostPath.isAbsolute_join hd),
      HostPath.parts_normalize (HostPath.isAbsolute_join hd), h]
  unfold virtualPath
  dsimp only
  rw [HostPath.relative_of_append hparts, HostPath.leadsOut_names hnames, if_neg Bool.false_ne_true]

theorem eq_outside {outside : Outside} (h : virtualPath directory path root = .error outside) :
    outside = ⟨path, root⟩ := by
  unfold virtualPath at h
  dsimp only at h
  split at h
  · exact (Except.error.inj h).symm
  · cases h

/-- A path has no virtual path below a root if it is not the root and not below it. -/
theorem virtualPath_error_iff (hd : isAbsolute directory.toList = true) :
    virtualPath directory path root = .error ⟨path, root⟩ ↔
      ¬ ∃ names, segments (HostPath.join directory.toList path.toList) =
        segments (HostPath.join directory.toList root.toList) ++ names := by
  constructor
  · rintro herror ⟨names, hnames⟩
    rw [virtualPath_of_append hd hnames] at herror
    cases herror
  · intro houtside
    cases h : virtualPath directory path root with
    | error outside => rw [eq_outside h]
    | ok v =>
      obtain ⟨names, -, hnames, -⟩ := virtualPath_eq_ok hd h
      exact absurd ⟨names, hnames⟩ houtside

/-- The store below a root leads back to the names below it that a virtual path is made of. -/
theorem hostPath_virtualPath (hd : isAbsolute directory.toList = true)
    (hpath : ¬ StartsTwice (absolute directory path).toList)
    (hroot : ¬ StartsTwice (absolute directory root).toList) {v : String}
    (h : virtualPath directory path root = .ok v) :
    Store.Rooted.hostPath (absolute directory root) v = absolute directory path := by
  obtain ⟨names, hnames, hsegments, rfl⟩ := virtualPath_eq_ok hd h
  rw [Store.Rooted.hostPath_eq_below hnames (Store.Rooted.resolve_virtual hnames),
    absolute_eq_render hd hroot, absolute_eq_render hd hpath, String.toList_ofList,
    HostPath.below_render (HostPath.isSegment_segments _), hsegments]

/-! ## Default roots -/

/-- What a default root is chosen for is some names below it. -/
theorem exists_names_defaultRoot (hd : isAbsolute directory.toList = true) {paths : List String}
    (h : path ∈ paths) :
    ∃ names, segments (HostPath.join directory.toList path.toList) =
      segments (HostPath.join directory.toList (defaultRoot directory paths).toList) ++ names := by
  obtain ⟨names, hcommon, hall⟩ := HostPath.exists_commonDirectory
    (List.map_eq_nil_iff.not.mpr (List.ne_nil_of_mem h) : paths.map (fun path =>
      HostPath.directory (HostPath.absolute directory.toList path.toList)) ≠ [])
  have hjoined : isAbsolute (HostPath.join directory.toList path.toList) = true :=
    HostPath.isAbsolute_join hd
  have hdirectory :
      HostPath.parts (HostPath.directory (HostPath.absolute directory.toList path.toList)) <+:
        segments (HostPath.join directory.toList path.toList) := by
    rw [HostPath.absolute, ← HostPath.parts_normalize hjoined]
    exact HostPath.parts_directory_isPrefix (HostPath.isAbsolute_normalize hjoined)
  have hnames : names <+: segments (HostPath.join directory.toList path.toList) := by
    have hbelow := hall _ (List.mem_map_of_mem h)
    rw [List.filter_eq_self.mpr] at hbelow
    · exact hbelow.trans hdirectory
    · exact fun s hs => bne_iff_ne.mpr
        (HostPath.isSegment_segments _ s (hdirectory.subset hs)).ne_dot
  have hroot : segments (HostPath.join directory.toList (defaultRoot directory paths).toList) =
      names := by
    have hsegments : ∀ s ∈ names, IsSegment s := fun s hs =>
      HostPath.isSegment_segments _ s (hnames.subset hs)
    have habsolute : isAbsolute ('/' :: joinParts names) = true := rfl
    rw [defaultRoot, String.toList_ofList, hcommon, HostPath.join, if_pos habsolute,
      HostPath.segments_slash, HostPath.segments_joinParts hsegments]
  obtain ⟨rest, hrest⟩ := hnames
  exact ⟨rest, by rw [hroot, hrest]⟩

/-! ## Agreement -/

/-- From any working directory: a path has no virtual path below a root exactly if its absolute normal
form is not that of the root and not below it, and else the store below the root leads from its virtual
path back to its absolute normal form. What a root is chosen for when none is asked for has a virtual
path below it. -/
theorem virtualPath_agrees (hd : isAbsolute directory.toList = true) :
    (∀ path root, ¬ StartsTwice (absolute directory path).toList →
      ¬ StartsTwice (absolute directory root).toList →
      (virtualPath directory path root = .error ⟨path, root⟩ ↔
        ¬ IsWithin (absolute directory root).toList (absolute directory path).toList) ∧
      (IsWithin (absolute directory root).toList (absolute directory path).toList →
        ∃ v, virtualPath directory path root = .ok v ∧
          Store.Rooted.hostPath (absolute directory root) v = absolute directory path)) ∧
    ∀ asked paths, (asked = none ∨ asked = some "") →
      ∀ path ∈ paths, ∃ v, virtualPath directory path (chooseRoot directory asked paths) = .ok v := by
  refine ⟨fun path root hpath hroot => ?_, fun asked paths hasked path hmem => ?_⟩
  · have hwithin : IsWithin (absolute directory root).toList (absolute directory path).toList ↔
        ∃ names, segments (HostPath.join directory.toList path.toList) =
          segments (HostPath.join directory.toList root.toList) ++ names := by
      rw [absolute_eq_render hd hpath, absolute_eq_render hd hroot, String.toList_ofList,
        String.toList_ofList]
      exact HostPath.isWithin_render_iff (HostPath.isSegment_segments _)
        (HostPath.isSegment_segments _)
    refine ⟨by rw [hwithin, virtualPath_error_iff hd], fun h => ?_⟩
    obtain ⟨names, hnames⟩ := hwithin.mp h
    have hvirtual := virtualPath_of_append hd hnames
    exact ⟨_, hvirtual, hostPath_virtualPath hd hpath hroot hvirtual⟩
  · have hchosen : chooseRoot directory asked paths = defaultRoot directory paths := by
      rcases hasked with rfl | rfl
      · rfl
      · rw [chooseRoot, if_pos rfl]
    obtain ⟨names, hnames⟩ := exists_names_defaultRoot hd hmem
    exact ⟨_, by rw [hchosen, virtualPath_of_append hd hnames]⟩

/-- A path may lead to the root itself, by a way out of the working directory. A name that starts with
the name of the root is not below it, and names that start with two dots or a tilde lead nowhere else. -/
theorem workspace_agrees :
    (∃ v, virtualPath "/work" "root/../../srv" "/srv/" = .ok v ∧
      Store.Rooted.hostPath (absolute "/work" "/srv/") v = absolute "/work" "root/../../srv") ∧
    ¬ IsWithin (absolute "/work" "root").toList (absolute "/work" "rooted/x").toList ∧
    ∃ v, virtualPath "/work" "..main/~x" (chooseRoot "/work" (some "") ["..main/~x", "../out"]) =
      .ok v := by
  have hd : isAbsolute "/work".toList = true := by decide
  obtain ⟨hroots, hdefault⟩ := virtualPath_agrees hd
  refine ⟨?_, ?_, hdefault (some "") _ (.inr rfl) _ List.mem_cons_self⟩
  · have hsame : (absolute "/work" "root/../../srv").toList =
        HostPath.below (absolute "/work" "/srv/").toList [] := by decide
    exact (hroots _ _ (by decide) (by decide)).2 ⟨[], by simp, hsame⟩
  · exact (hroots "rooted/x" "root" (by decide) (by decide)).1.mp (by decide)

end CommandLine

end ScriptLang
