import ScriptLang.Proofs.Arguments
import ScriptLang.Proofs.Compilation
import ScriptLang.Proofs.FileTree
import ScriptLang.Proofs.Traceback

/-!
# Compiled programs run like their sources

An invocation either compiles a program or runs it. The artifact of a compilation holds the program
that running the source links, so that both run the same program; only the name differs under which it
is known.

The place of an artifact is the normal form of the path that was asked for. What is run is opened under
the path as it is spelled, and that may lead nowhere: the host opens no file under a path that ends in a
slash, and no path through a directory that does not exist.

Results:
* `invoke_compile`: what an invocation that compiles successfully has linked and written;
* `compiled_runs_alike`: running the artifact is running the source;
* `slashed_not_opened`: an artifact that is not opened under the path that it was asked for.
-/
namespace ScriptLang.CommandLine

open FileTree (bind_run host pathOf readFile_run workingDirectory_run)

variable {rules : Arguments.Rules} {t t' : FileTree}

theorem chooseRoot_some {root : String} (h : root ≠ "") (directory : String) (paths : List String) :
    chooseRoot directory (some root) paths = root := if_neg h

/-! ## Running -/

theorem loadProgram_artifact {path root : String} {bytes : Bytes} {p : Program}
    (hread : t.read path = .ok bytes) (htag : Artifact.isTagged bytes = true)
    (hdecode : Artifact.decode bytes = .ok p) : loadProgram host path root t = (.ok p, t) := by
  rw [loadProgram, bind_run, workingDirectory_run, bind_run, readFile_run, hread]
  dsimp only
  rw [if_pos htag, hdecode]
  rfl

theorem loadProgram_source {path root entry : String} {bytes : Bytes} {linked : Linked}
    (hread : t.read path = .ok bytes) (htag : Artifact.isTagged bytes = false)
    (hentry : virtualPath (pathOf t.current) path root = .ok entry)
    (hlink : link (Store.Rooted.store host (absolute (pathOf t.current) root)) entry t =
      (.ok linked, t)) : loadProgram host path root t = (.ok linked.program, t) := by
  rw [loadProgram, bind_run, workingDirectory_run, bind_run, readFile_run, hread]
  dsimp only
  rw [htag, if_neg Bool.false_ne_true, hentry]
  dsimp only
  rw [bind_run, hlink]
  rfl

/-- An invocation that runs a program: it loads the program and runs it. -/
theorem invoke_run {words : List String} {program : String} {root : Option String} {verbose : Bool}
    {p : Program}
    (hparse : Arguments.parse rules words = .ok ⟨program, false, none, root, verbose, false⟩)
    (hload : loadProgram host program (chooseRoot (pathOf t.current) root [program]) t = (.ok p, t)) :
    invoke host words rules t =
      (runProgram ⟨program, false, none, root, verbose, false⟩ program p, t) := by
  rw [invoke, hparse]
  dsimp only
  rw [runCommand, if_neg Bool.false_ne_true, bind_run, workingDirectory_run]
  dsimp only
  rw [bind_run, hload]
  rfl

/-! ## Compiling -/

/-- A compilation that succeeds has linked its program, and written the artifact of it. -/
theorem compile_success {root entry target : String} {report : Compilation}
    (h : compile (Store.Rooted.store host root) entry target t = (report, t'))
    (hsuccess : report.success = true) :
    ∃ linked, link (Store.Rooted.store host root) entry t = (.ok linked, t) ∧
      (Store.Rooted.store host root).write target (Artifact.encode linked.program) t =
        (.done, t') := by
  have hunchanged := FileTree.link_host t root entry
  rcases hlink : link (Store.Rooted.store host root) entry t with ⟨result, t₁⟩
  rw [hlink] at hunchanged
  cases hunchanged
  cases result with
  | error e =>
    rw [compile_failed hlink] at h
    cases h
    rw [(Compilation.isFailure_linkFailed e).success] at hsuccess
    cases hsuccess
  | ok linked =>
    rw [compile_linked hlink (Artifact.holds_of_link hlink).built, Prod.mk.injEq] at h
    obtain ⟨rfl, hstate⟩ := h
    refine ⟨linked, rfl, Prod.ext ?_ hstate⟩
    exact (Compilation.reports_written ..).success.mp hsuccess

/-- What a compilation below a root has done: it has linked the program, and written the artifact of
it to the virtual path of the output. -/
def Compiles (t t' : FileTree) (p r o : String) : Prop :=
  ∃ entry target linked,
    virtualPath (pathOf t.current) p r = .ok entry ∧ virtualPath (pathOf t.current) o r = .ok target ∧
    link (Store.Rooted.store host (absolute (pathOf t.current) r)) entry t = (.ok linked, t) ∧
    (Store.Rooted.store host (absolute (pathOf t.current) r)).write target
      (Artifact.encode linked.program) t = (.done, t')

theorem compileCommand_success {p r o out err : String} {output : Option (Option String)} (hr : r ≠ "")
    (h : compileCommand host ⟨p, false, output, some r, false, false⟩ o t = (.code 0 out err, t')) :
    Compiles t t' p r o := by
  rw [compileCommand, bind_run, workingDirectory_run] at h
  dsimp only at h
  rw [chooseRoot_some hr] at h
  cases hentry : virtualPath (pathOf t.current) p r with
  | error outside =>
    rw [hentry] at h
    cases h
  | ok entry =>
    cases htarget : virtualPath (pathOf t.current) o r with
    | error outside =>
      rw [hentry, htarget] at h
      cases h
    | ok target =>
      rw [hentry, htarget] at h
      dsimp only at h
      rw [bind_run] at h
      rcases hreport : compile (Store.Rooted.store host (absolute (pathOf t.current) r)) entry
        target t with ⟨report, t₁⟩
      rw [hreport] at h
      obtain ⟨hexit, rfl⟩ : _ ∧ t₁ = t' := Prod.mk.inj h
      have hsuccess : report.success = true := by
        by_contra hfailure
        rw [if_neg hfailure] at hexit
        cases hexit
      obtain ⟨linked, hlink, hwrite⟩ := compile_success hreport hsuccess
      exact ⟨entry, target, linked, hentry, htarget, hlink, hwrite⟩

/-- An invocation that compiles a program successfully has been given values only. -/
theorem invoke_compile {p r o out err : String} (hr : r ≠ "")
    (h : invoke host [p, "--root", r, "-o", o] rules t = (.code 0 out err, t')) :
    Arguments.IsValue p ∧ Arguments.IsValue r ∧ Arguments.IsValue o ∧ Compiles t t' p r o := by
  cases hparse : Arguments.parse rules [p, "--root", r, "-o", o] with
  | error stop =>
    rw [invoke, hparse] at h
    cases h
  | ok args =>
    obtain ⟨hp, hroot, ho, rfl⟩ := Arguments.parse_compile hparse
    refine ⟨hp, hroot, ho, ?_⟩
    rw [invoke, hparse] at h
    dsimp only at h
    rw [if_neg Bool.false_ne_true] at h
    exact compileCommand_success hr h

/-! ## Compiling and then running -/

/-- Whatever a program and its imports are: if it has been compiled below a root, and the host opens the
artifact under the path that was asked for, then running the artifact has the same exit code and prints
the same as running the program did before, and what it reports differs only in the file name of the
lines about frames. The artifact may be run with any root or none. -/
theorem compiled_runs_alike {p r o out err : String} {bytes stored : Bytes} {root : Option String}
    (hnames : t.HasNames) (hr : r ≠ "") (hp : t.read p = .ok bytes)
    (htag : Artifact.isTagged bytes = false)
    (hcompile : invoke host [p, "--root", r, "-o", o] rules t = (.code 0 out err, t'))
    (ho : t'.read o = .ok stored) (hroot : ∀ x, root = some x → Arguments.IsValue x) (verbose : Bool) :
    ∃ code stdout lines lines',
      invoke host (p :: (Arguments.rootWords (some r) ++ Arguments.verboseWords verbose)) rules t =
        (.code code stdout (unlines lines), t) ∧
      invoke host (o :: (Arguments.rootWords root ++ Arguments.verboseWords verbose)) rules t' =
        (.code code stdout (unlines lines'), t') ∧
      List.Forall₂ (Traceback.SameLine p o) lines lines' := by
  obtain ⟨hpvalue, hrvalue, hovalue, hcompiles⟩ := invoke_compile hr hcompile
  obtain ⟨entry, target, linked, hentry, htarget, hlink, hwrite⟩ := hcompiles
  have hartifact := Artifact.holds_of_link hlink
  have hsource : loadProgram host p (chooseRoot (pathOf t.current) (some r) [p]) t =
      (.ok linked.program, t) := by
    rw [chooseRoot_some hr]
    exact loadProgram_source hp htag hentry hlink
  cases FileTree.read_written hnames htarget hwrite ho
  have hcompiled : loadProgram host o (chooseRoot (pathOf t'.current) root [o]) t' =
      (.ok linked.program, t') :=
    loadProgram_artifact ho (Artifact.isTagged_tag _) hartifact.decoded
  have hrun : Arguments.parse rules
      (p :: (Arguments.rootWords (some r) ++ Arguments.verboseWords verbose)) =
        .ok ⟨p, false, none, some r, verbose, false⟩ := by
    refine Arguments.parse_run hpvalue ?_ verbose
    rintro _ ⟨⟩
    exact hrvalue
  have hrun' : Arguments.parse rules
      (o :: (Arguments.rootWords root ++ Arguments.verboseWords verbose)) =
        .ok ⟨o, false, none, root, verbose, false⟩ := Arguments.parse_run hovalue hroot verbose
  obtain ⟨code, stdout, lines, lines', hexit, hexit', halike⟩ :=
    runProgram_alike ⟨p, false, none, some r, verbose, false⟩ ⟨o, false, none, root, verbose, false⟩
      rfl rfl rfl p o linked.program
  refine ⟨code, stdout, lines, lines', ?_, ?_, halike⟩
  · rw [invoke_run hrun hsource, hexit]
  · rw [invoke_run hrun' hcompiled, hexit']

/-- A working directory with one program in it, which prints a number and then fails. -/
def workshop : FileTree where
  entries :=
    [(["work".toList], .directory),
      (["work".toList, "main.obpi".toList],
        .file (Text.utf8 "func main() { print(1); return x; }"))]
  current := ["work".toList]

def compiled (output : String) : FileTree :=
  (invoke host ["main.obpi", "--root", ".", "-o", output] .current workshop).2

theorem workshop_runs_alike :
    ∃ stored code stdout lines lines', (compiled "out").read "out" = .ok stored ∧
      invoke host ["main.obpi", "--root", ".", "-verbose"] .current workshop =
        (.code code stdout (unlines lines), workshop) ∧
      invoke host ["out", "-verbose"] .current (compiled "out") =
        (.code code stdout (unlines lines'), compiled "out") ∧
      List.Forall₂ (Traceback.SameLine "main.obpi" "out") lines lines' := by
  have hnames : workshop.HasNames := by
    intro name hname
    rw [List.mem_singleton.mp hname]
    exact ⟨by decide, by decide, by decide, by decide⟩
  have hexit : (invoke host ["main.obpi", "--root", ".", "-o", "out"] .current workshop).1 =
      .code 0 "Compilation successful! Executable created at /out\n" "" := by decide +kernel
  have hcompile : invoke host ["main.obpi", "--root", ".", "-o", "out"] .current workshop =
      (.code 0 "Compilation successful! Executable created at /out\n" "", compiled "out") :=
    Prod.ext hexit rfl
  have hsource : workshop.read "main.obpi" =
      .ok (Text.utf8 "func main() { print(1); return x; }") := by decide +kernel
  have hread : ((compiled "out").read "out").isOk = true := by decide +kernel
  cases hstored : (compiled "out").read "out" with
  | error f =>
    rw [hstored] at hread
    cases hread
  | ok stored =>
    obtain ⟨code, stdout, lines, lines', hrun, hrun', halike⟩ :=
      compiled_runs_alike hnames (by decide) hsource (by decide +kernel) hcompile hstored
        (fun x (h : none = some x) => nomatch h) true
    exact ⟨stored, code, stdout, lines, lines', rfl, hrun, hrun', halike⟩

/-- The artifact for a path with a slash at its end stands at the path without it, and is not opened
under the path that was asked for. So nothing is printed there, while the source prints a number. -/
theorem slashed_not_opened :
    (invoke host ["main.obpi", "--root", ".", "-o", "out/"] .current workshop).1 =
        .code 0 "Compilation successful! Executable created at /out\n" "" ∧
      (invoke host ["main.obpi", "--root", "."] .current workshop).1 =
        .code 1 "1\n" (unlines
          ["Traceback (most recent call last):", "  File \"main.obpi\", in <top-level>",
            "    Last step: CALL", "    State log index: 1  State id: s_000001",
            "  File \"main.obpi\", in main", "    Last step: ReturnStatement",
            "    State log index: 4  State id: s_000004",
            "UndeclaredVariableError: Cannot access undeclared variable \"x\". (rule: IDENT)"]) ∧
      (invoke host ["out/"] .current (compiled "out/")).1 =
        .code 1 "" "LoadError: Failed to read out/: [Errno 20] Not a directory: 'out/'\n" := by
  decide +kernel

end ScriptLang.CommandLine
