import ScriptLang.Proofs.VirtualPath.Normal

/-!
# Paths seen from where other paths lead

Of the directory that a path is seen from only the segments count: the parts of the path lead on from
them, or from the root. So two steps are one step along the joined path, wherever the `..` in it stand
and whatever they take back, and any number of steps are one. A file that is imported is seen from the
directory of the file that imports it, which is what stands before the name at the end of its path.

Results:
* `resolve_eq`: the segments that a path leads to from a directory;
* `IsCanonical.resolve_eq`, `IsCanonical.directory`: resolved paths stand for themselves, and so do
  their directories;
* `resolve_joined`, `resolve_beside`: two steps through directories, and from file to file;
* `resolve_composes`: resolution is canonical, and any number of steps are one.
-/
namespace ScriptLang.VirtualPath

/-- The segments that a path without the mark of the root leads to from a directory. -/
def reach (path here : List Char) : List (List Char) :=
  lead (if path.head? = some '/' then [] else segmentsOf (splitSlashes here)) (splitSlashes path)

/-! ## Resolution by segments -/

theorem segmentsOf_located (path here : List Char) :
    segmentsOf (splitSlashes (located path here)) = reach path here := by
  unfold located reach
  split
  · rw [segmentsOf_eq]
  · rw [segmentsOf_eq, splitSlashes_append_slash, lead_append]
    split
    · next hroot =>
      rw [hroot]
      rfl
    · rw [segmentsOf_eq]

theorem resolve_eq (path here : String) :
    resolve path here = String.ofList (render (reach (withoutTilde path.toList) here.toList)) := by
  rw [resolve, resolveChars, segmentsOf_located]

theorem isSegment_reach (path here : List Char) : ∀ s ∈ reach path here, IsSegment s := by
  rw [← segmentsOf_located]
  exact isSegment_segmentsOf (splitSlashes_no_slash _)

theorem reach_joined {first : List Char} (hfirst : first ≠ []) (path here : List Char) :
    reach (first ++ '/' :: path) here = lead (reach first here) (splitSlashes path) := by
  obtain ⟨c, rest, rfl⟩ := List.exists_cons_of_ne_nil hfirst
  rw [reach, reach, splitSlashes_append_slash, lead_append]
  rfl

/-! ## Rendering -/

theorem render_singleton (segment : List Char) : render [segment] = '/' :: segment := by
  rw [render, List.intercalate_singleton]

theorem render_cons (segment : List Char) {rest : List (List Char)} (h : rest ≠ []) :
    render (segment :: rest) = '/' :: (segment ++ render rest) := by
  rw [render, List.intercalate_cons_of_ne_nil h, List.append_assoc]
  rfl

theorem render_append (before : List (List Char)) {after : List (List Char)} (h : after ≠ []) :
    render (before ++ after) = (if before = [] then [] else render before) ++ render after := by
  induction before with
  | nil => rfl
  | cons segment before ih =>
    rw [List.cons_append, render_cons _ (List.append_ne_nil_of_right_ne_nil _ h), ih,
      if_neg (List.cons_ne_nil _ _)]
    by_cases hnil : before = []
    · rw [if_pos hnil, hnil, render_singleton]
      rfl
    · rw [if_neg hnil, render_cons _ hnil, List.cons_append, List.append_assoc]

/-- Segments can be told from the path that they make. -/
theorem render_injective {segments others : List (List Char)} (h : ∀ s ∈ segments, IsSegment s)
    (hothers : ∀ s ∈ others, IsSegment s) (heq : render segments = render others) :
    segments = others := by
  rw [← segmentsOf_render h, heq, segmentsOf_render hothers]

/-! ## Canonical paths -/

/-- The path is a slash and segments with single slashes between them. -/
def IsCanonical (path : String) : Prop :=
  ∃ segments, (∀ s ∈ segments, IsSegment s) ∧ path = String.ofList (render segments)

theorem isCanonical_resolve (path here : String) : IsCanonical (resolve path here) :=
  ⟨_, isSegment_reach _ _, resolve_eq path here⟩

theorem IsCanonical.resolve_eq {path : String} (h : IsCanonical path) (here : String) :
    resolve path here = path := by
  obtain ⟨segments, hsegments, rfl⟩ := h
  rw [resolve, String.toList_ofList, resolveChars_render hsegments]

/-- A name at the end of a path is behind the last slash. -/
theorem dropWhile_reverse_append (before : List Char) {name : List Char} (hname : '/' ∉ name) :
    (before ++ name).reverse.dropWhile (· != '/') = before.reverse.dropWhile (· != '/') := by
  rw [List.reverse_append, List.dropWhile_append_of_pos]
  exact fun c hc => bne_iff_ne.mpr fun heq => hname (heq ▸ List.mem_reverse.mp hc)

theorem dropWhile_reverse_slash (first : List Char) :
    (first ++ ['/']).reverse.dropWhile (· != '/') = '/' :: first.reverse := by
  rw [List.reverse_append]
  rfl

theorem directoryChars_joined (first : List Char) {name : List Char} (hname : '/' ∉ name) :
    directoryChars (first ++ '/' :: name) = if first = [] then ['/'] else first := by
  have hcontains : (first ++ '/' :: name).contains '/' = true := by simp
  rw [directoryChars, if_pos hcontains, List.append_cons, dropWhile_reverse_append _ hname,
    dropWhile_reverse_slash, List.drop_one, List.tail_cons, List.reverse_reverse]

theorem directoryChars_render (segments : List (List Char)) {name : List Char}
    (hname : '/' ∉ name) : directoryChars (render (segments ++ [name])) = render segments := by
  rw [render_append _ (List.cons_ne_nil _ _), render_singleton, directoryChars_joined _ hname]
  by_cases hnil : segments = []
  · rw [if_pos hnil, if_pos rfl, hnil]
    rfl
  · have hne : render segments ≠ [] := List.cons_ne_nil _ _
    rw [if_neg hnil, if_neg hne]

theorem directory_render (segments : List (List Char)) {name : List Char} (hname : '/' ∉ name) :
    VirtualPath.directory (String.ofList (render (segments ++ [name]))) =
      String.ofList (render segments) := by
  rw [VirtualPath.directory, String.toList_ofList, directoryChars_render _ hname]

theorem IsCanonical.directory {path : String} (h : IsCanonical path) :
    IsCanonical (VirtualPath.directory path) := by
  obtain ⟨segments, hsegments, rfl⟩ := h
  rcases List.eq_nil_or_concat segments with rfl | ⟨before, name, rfl⟩
  · exact ⟨[], hsegments, rfl⟩
  · rw [List.concat_eq_append] at hsegments ⊢
    obtain ⟨hbefore, hname⟩ := List.forall_mem_append.mp hsegments
    have hslash : '/' ∉ name := (hname name (List.mem_singleton_self name)).no_slash
    exact ⟨before, hbefore, directory_render before hslash⟩

/-! ## Joined paths -/

/-- The path starts neither at the root nor with the mark of the root. -/
structure IsRelative (path : String) : Prop where
  no_slash : path.toList.head? ≠ some '/'
  no_tilde : path.toList.head? ≠ some '~'

theorem withoutTilde_of_ne {path : List Char} (h : path.head? ≠ some '~') :
    withoutTilde path = path := by
  unfold withoutTilde
  split
  · exact absurd rfl h
  · rfl

theorem IsRelative.resolve_eq {path : String} (h : IsRelative path) (here : String) :
    resolve path here =
      String.ofList (render (lead (segmentsOf (splitSlashes here.toList))
        (splitSlashes path.toList))) := by
  rw [VirtualPath.resolve_eq, withoutTilde_of_ne h.no_tilde, reach, if_neg h.no_slash]

theorem toList_joined (first path : String) :
    (first ++ "/" ++ path).toList = first.toList ++ '/' :: path.toList := by
  rw [String.toList_append, String.toList_append, List.append_assoc]
  rfl

theorem head_joined {first : String} (hfirst : first ≠ "") (path : String) :
    (first ++ "/" ++ path).toList.head? = first.toList.head? := by
  have hne : first.toList ≠ [] := fun hnil => hfirst (String.toList_eq_nil_iff.mp hnil)
  rw [toList_joined, List.head?_append_of_ne_nil _ hne]

/-- A step from where another step leads to is a step along the joined path. -/
theorem resolve_joined {first path : String} (hfirst : first ≠ "")
    (hmark : first.toList.head? ≠ some '~') (hpath : IsRelative path) (here : String) :
    resolve path (resolve first here) = resolve (first ++ "/" ++ path) here := by
  have hne : first.toList ≠ [] := fun hnil => hfirst (String.toList_eq_nil_iff.mp hnil)
  have hmark' : (first ++ "/" ++ path).toList.head? ≠ some '~' := head_joined hfirst path ▸ hmark
  rw [hpath.resolve_eq, resolve_eq first, resolve_eq (first ++ "/" ++ path),
    withoutTilde_of_ne hmark, withoutTilde_of_ne hmark', toList_joined, reach_joined hne,
    String.toList_ofList, segmentsOf_render (isSegment_reach _ _)]

/-- Any number of steps through directories are one along the path that is joined of them. -/
theorem resolve_joined_all {first : String} {paths : List String} (hfirst : first ≠ "")
    (hmark : first.toList.head? ≠ some '~') (hpaths : ∀ path ∈ paths, IsRelative path)
    (here : String) :
    paths.foldl (fun directory path => resolve path directory) (resolve first here) =
      resolve (paths.foldl (fun joined path => joined ++ "/" ++ path) first) here := by
  induction paths generalizing first with
  | nil => rfl
  | cons path paths ih =>
    obtain ⟨hpath, hpaths⟩ := List.forall_mem_cons.mp hpaths
    have hfirst' : first ++ "/" ++ path ≠ "" := by
      intro hempty
      have htext := congrArg String.toList hempty
      rw [toList_joined] at htext
      simp at htext
    rw [List.foldl_cons, List.foldl_cons, resolve_joined hfirst hmark hpath]
    exact ih hfirst' (head_joined hfirst path ▸ hmark) hpaths

/-! ## From file to file -/

/-- The path of what is beside a file: everything before the name at the end of the path of the file,
and then the path. -/
def beside (file path : String) : String :=
  String.ofList ((file.toList.reverse.dropWhile (· != '/')).reverse ++ path.toList)

/-- The path is relative and ends with a name, as the path of a file does. -/
structure NamesFile (path : String) : Prop extends IsRelative path where
  exists_name : ∃ before name, path.toList = before ++ name ∧ IsSegment name ∧
    (before = [] ∨ ∃ first, before = first ++ ['/'])

theorem beside_eq {file : String} {before name : List Char} (hfile : file.toList = before ++ name)
    (hname : '/' ∉ name) (hbefore : before = [] ∨ ∃ first, before = first ++ ['/'])
    (path : String) : beside file path = String.ofList (before ++ path.toList) := by
  rw [beside, hfile, dropWhile_reverse_append _ hname]
  rcases hbefore with rfl | ⟨first, rfl⟩
  · rfl
  · rw [dropWhile_reverse_slash, List.reverse_cons, List.reverse_reverse]

/-- A name leads from a directory to the file of that name in it. -/
theorem lead_name (segments : List (List Char)) {name : List Char} (hname : IsSegment name) :
    lead segments (splitSlashes name) = segments ++ [name] := by
  have hlead := lead_intercalate segments (List.forall_mem_singleton.mpr hname)
  rwa [List.intercalate_singleton] at hlead

/-- A path in a file leads to where it leads to beside the file. -/
theorem resolve_beside {file path : String} (hfile : NamesFile file) (hpath : IsRelative path)
    (here : String) :
    resolve path (VirtualPath.directory (resolve file here)) = resolve (beside file path) here := by
  obtain ⟨before, name, htext, hname, hbefore⟩ := hfile.exists_name
  rw [beside_eq htext hname.no_slash hbefore]
  rcases hbefore with rfl | ⟨first, rfl⟩
  · -- the file stands in the directory itself
    rw [List.nil_append] at htext
    rw [hfile.resolve_eq, htext, lead_name _ hname, directory_render _ hname.no_slash,
      List.nil_append, String.ofList_toList, hpath.resolve_eq, hpath.resolve_eq here,
      String.toList_ofList, segmentsOf_render (isSegment_segmentsOf (splitSlashes_no_slash _))]
  · -- the file stands where the text before the slash leads to
    rw [List.append_assoc, List.singleton_append] at htext
    have hne : first ≠ [] := by
      rintro rfl
      exact hfile.no_slash (by rw [htext]; rfl)
    have hmark : (String.ofList first).toList.head? ≠ some '~' := by
      rw [String.toList_ofList, ← List.head?_append_of_ne_nil _ hne, ← htext]
      exact hfile.no_tilde
    have hdirectory :
        VirtualPath.directory (resolve file here) = resolve (String.ofList first) here := by
      rw [resolve_eq file, withoutTilde_of_ne hfile.no_tilde, htext, reach_joined hne,
        lead_name _ hname, directory_render _ hname.no_slash, resolve_eq,
        withoutTilde_of_ne hmark, String.toList_ofList]
    have hbeside :
        String.ofList (first ++ ['/'] ++ path.toList) = String.ofList first ++ "/" ++ path := by
      rw [String.ofList_append, String.ofList_append, String.ofList_toList]
    have hnonempty : String.ofList first ≠ "" := by simpa using hne
    rw [hdirectory, hbeside, resolve_joined hnonempty hmark hpath]

theorem NamesFile.beside {file path : String} (hfile : NamesFile file) (hpath : NamesFile path) :
    NamesFile (beside file path) := by
  obtain ⟨before, name, htext, hname, hbefore⟩ := hfile.exists_name
  obtain ⟨before', name', htext', hname', hbefore'⟩ := hpath.exists_name
  have hbeside : (VirtualPath.beside file path).toList = before ++ path.toList := by
    rw [beside_eq htext hname.no_slash hbefore, String.toList_ofList]
  -- it starts as the path of the file does, or as the other one where that is only a name
  have hhead (c : Char) (hf : file.toList.head? ≠ some c) (hp : path.toList.head? ≠ some c) :
      (VirtualPath.beside file path).toList.head? ≠ some c := by
    rw [hbeside]
    by_cases hnil : before = []
    · rwa [hnil, List.nil_append]
    · rw [htext, List.head?_append_of_ne_nil _ hnil] at hf
      rwa [List.head?_append_of_ne_nil _ hnil]
  refine ⟨⟨hhead '/' hfile.no_slash hpath.no_slash, hhead '~' hfile.no_tilde hpath.no_tilde⟩,
    before ++ before', name', ?_, hname', ?_⟩
  · rw [hbeside, htext', List.append_assoc]
  · rcases hbefore' with rfl | ⟨first, rfl⟩
    · rwa [List.append_nil]
    · exact .inr ⟨before ++ first, (List.append_assoc ..).symm⟩

/-- The file at the end of any number of imports is named by the path that is joined of them. -/
theorem resolve_beside_all {file : String} {files : List String} (hfile : NamesFile file)
    (hfiles : ∀ f ∈ files, NamesFile f) (here : String) :
    files.foldl (fun importer path => resolve path (VirtualPath.directory importer))
        (resolve file here) = resolve (files.foldl beside file) here := by
  induction files generalizing file with
  | nil => rfl
  | cons path files ih =>
    obtain ⟨hpath, hfiles⟩ := List.forall_mem_cons.mp hfiles
    rw [List.foldl_cons, List.foldl_cons, resolve_beside hfile hpath.toIsRelative]
    exact ih (hfile.beside hpath) hfiles

/-- What a path is resolved to from a directory is canonical: it stands for itself wherever it is seen
from, and so does its directory. Any number of steps are one step along the joined path, through
directories and from file to file. -/
theorem resolve_composes (path here : String) :
    IsCanonical (resolve path here) ∧
    (∀ p, IsCanonical p → (∀ other, resolve p other = p) ∧ IsCanonical (VirtualPath.directory p)) ∧
    (∀ first path : String, first ≠ "" → first.toList.head? ≠ some '~' → IsRelative path →
      resolve path (resolve first here) = resolve (first ++ "/" ++ path) here) ∧
    (∀ (first : String) (paths : List String), first ≠ "" → first.toList.head? ≠ some '~' →
      (∀ p ∈ paths, IsRelative p) →
      paths.foldl (fun directory path => resolve path directory) (resolve first here) =
        resolve (paths.foldl (fun joined path => joined ++ "/" ++ path) first) here) ∧
    ∀ (file : String) (files : List String), NamesFile file → (∀ f ∈ files, NamesFile f) →
      files.foldl (fun importer path => resolve path (VirtualPath.directory importer))
        (resolve file here) = resolve (files.foldl beside file) here :=
  ⟨isCanonical_resolve path here, fun _ hp => ⟨hp.resolve_eq, hp.directory⟩,
    fun _ _ hfirst hmark hpath => resolve_joined hfirst hmark hpath here,
    fun _ _ hfirst hmark hpaths => resolve_joined_all hfirst hmark hpaths here,
    fun _ _ hfile hfiles => resolve_beside_all hfile hfiles here⟩

/-- The `..` of a path may take back more than the path before it has added, and the names on the way
of an import need not lead to anything. -/
theorem imports_compose :
    (IsRelative "../../../x.obpi" ∧
      resolve "../../../x.obpi" (resolve "lib//deep" "/app") =
        resolve "lib//deep/../../../x.obpi" "/app") ∧
    NamesFile "lib/main.obpi" ∧ NamesFile "../none/../a.obpi" ∧
      resolve "../none/../a.obpi" (VirtualPath.directory (resolve "lib/main.obpi" "/app")) =
        resolve "lib/../none/../a.obpi" "/app" := by
  have hrelative : IsRelative "../../../x.obpi" := ⟨by decide, by decide⟩
  have hfile : NamesFile "lib/main.obpi" :=
    ⟨⟨by decide, by decide⟩, "lib/".toList, "main.obpi".toList, by decide,
      ⟨by decide, by decide, by decide, by decide⟩, .inr ⟨"lib".toList, by decide⟩⟩
  have hpath : NamesFile "../none/../a.obpi" :=
    ⟨⟨by decide, by decide⟩, "../none/../".toList, "a.obpi".toList, by decide,
      ⟨by decide, by decide, by decide, by decide⟩, .inr ⟨"../none/..".toList, by decide⟩⟩
  obtain ⟨-, -, hsteps, -, hfiles⟩ := resolve_composes "main.obpi" "/app"
  refine ⟨⟨hrelative, hsteps "lib//deep" "../../../x.obpi" (by decide) (by decide) hrelative⟩,
    hfile, hpath, ?_⟩
  have hbeside : beside "lib/main.obpi" "../none/../a.obpi" = "lib/../none/../a.obpi" := by decide
  rw [← hbeside]
  exact hfiles "lib/main.obpi" ["../none/../a.obpi"] hfile (List.forall_mem_singleton.mpr hpath)

end ScriptLang.VirtualPath
