import ScriptLang.Proofs.CommandLine
import ScriptLang.Proofs.Decoding
import ScriptLang.Proofs.Messages

/-!
# How invocations end

An invocation that is understood ends with success and nothing on the error output, or with failure
and an explanation there. Three failures escape it and are not explained: a zero character in the path
of a program, one in the host path of a file that it imports, and a document whose reading stumbles
over a scalar in place of a list. Where the arguments are read by the early rules there is a fourth: a
place for an artifact that has no text.

Results:
* `isOrderly_compileCommand`: a compilation to a place with a text ends in order;
* `loadProgram_ends`: which failures escape when a program is loaded;
* `invoke_ends`: an invocation ends in order iff none of these is there to escape.
-/
namespace ScriptLang

open CommandLine (Tells fail)
open FileTree (bind_run host pathOf readFile_run workingDirectory_run)

/-- The exit tells how the invocation went: by success and nothing on the error output, or by
failure and an explanation there. -/
inductive Exit.IsOrderly : Exit → Prop
  | success (stdout : String) : IsOrderly (.code 0 stdout "")
  | failure (stdout : String) {stderr : String} : Tells stderr → IsOrderly (.code 1 stdout stderr)

/-- The exit says that the fuel was used up, by the imports or by the program itself. -/
inductive Exit.IsCutShort : Exit → Prop
  | imports : IsCutShort (fail "LoadError: out of fuel")
  | program (stdout : String) : IsCutShort (.code 1 stdout "out of fuel\n")

namespace CommandLine

variable {rules : Arguments.Rules} {t : FileTree} {args : Arguments} {failure : StoreFailure}

/-! ## Orderly ends -/

theorem isOrderly_fail {line : String} (h : Tells line) : (fail line).IsOrderly :=
  .failure "" (h.append "\n")

theorem isOrderly_outside (outside : Outside) :
    (fail ("CompileError: " ++ outside.message)).IsOrderly := by
  have h : Tells "CompileError: " := by decide
  exact isOrderly_fail (h.append _)

theorem isOrderly_compileCommand (args : Arguments) (output : String) (t : FileTree) :
    (compileCommand host args output t).1.IsOrderly := by
  rw [compileCommand, bind_run, workingDirectory_run]
  dsimp only
  generalize chooseRoot (pathOf t.current) args.root [args.program, output] = root
  cases virtualPath (pathOf t.current) args.program root with
  | error outside => exact isOrderly_outside outside
  | ok entry =>
    cases virtualPath (pathOf t.current) output root with
    | error outside => exact isOrderly_outside outside
    | ok target =>
      dsimp only
      rw [bind_run]
      have htells := tells_compile (Store.Rooted.store host (absolute (pathOf t.current) root))
        entry target t
      generalize compile (Store.Rooted.store host (absolute (pathOf t.current) root)) entry target t
        = compiled at *
      show (if compiled.1.success then _ else _ : Exit).IsOrderly
      split
      · exact .success _
      · exact isOrderly_fail htells

/-- A program that is run ends with an exit code, unless it uses up the fuel. -/
theorem runProgram_ends (args : Arguments) (file : String) (p : Program) :
    (runProgram args file p).IsCutShort ∨ (runProgram args file p).IsOrderly := by
  unfold runProgram
  rcases (Machine.fresh args.verbose none).run p with ⟨result, final⟩
  cases result with
  | value v => exact .inr (.success _)
  | fault f step =>
    have h : Tells "Traceback (most recent call last):" := by decide
    exact .inr (.failure _ (tells_unlines (tells_intercalate h "\n" _) _))
  | outOfFuel => exact .inl (.program _)

/-! ## Loading a program -/

/-- The failure escapes when a program is loaded. -/
inductive LoadEscapes (t : FileTree) (path root : String) : StoreFailure → Prop
  /-- The path of the program has a zero character. -/
  | path : '\x00' ∈ path.toList → LoadEscapes t path root Store.Rooted.zeroCharacter
  /-- The program is an artifact, and the reading of its document stumbles. -/
  | artifact {bytes : Bytes} {text : String} {j v : Json} :
      t.read path = .ok bytes → Artifact.unwrap bytes = .ok text → Json.ofText text = .ok j →
      Node.Stumbles j v →
      LoadEscapes t path root ⟨"TypeError", (Node.FormFault.notIterable v.kindName).message⟩
  /-- The program is a source file, and the first file in the order of the imports that is no
  program has a host path with a zero character. -/
  | imported {bytes : Bytes} {entry file : String} {before : List String} :
      t.read path = .ok bytes → Artifact.isTagged bytes = false →
      virtualPath (pathOf t.current) path root = .ok entry →
      DepthFirst (Linked.importsOf (t.sources (absolute (pathOf t.current) root)))
        (Linked.entryOf entry) (before ++ [file]) →
      (∀ f ∈ before, Linked.IsProgram f (t.sources (absolute (pathOf t.current) root) f)) →
      '\x00' ∈ (Store.Rooted.hostPath (absolute (pathOf t.current) root) file).toList →
      LoadEscapes t path root Store.Rooted.zeroCharacter

/-- Unless it is cut short, an invocation ends in order, or one of the failures escapes that can. -/
def Ends (escapes : StoreFailure → Prop) (exit : Exit) : Prop :=
  exit.IsCutShort ∨ (exit.IsOrderly ∧ ∀ failure, ¬ escapes failure) ∨
    ∃ failure, exit = .escaped failure ∧ escapes failure

section Loading

variable {path root entry : String} {bytes : Bytes}

theorem tells_loadError : Tells "LoadError: " := by decide

theorem not_zero_of_read (h : t.read path = .ok bytes) : '\x00' ∉ path.toList := by
  rw [← FileTree.read_zeroCharacter_iff (t := t), h]
  nofun

/-- What is wrong with an artifact is told, unless it escapes. -/
theorem isOrderly_ofArtifact {e : ArtifactError} (h : ¬ e.Escapes) :
    (LoadError.ofArtifact e).exit.IsOrderly := by
  unfold LoadError.ofArtifact
  split
  · next found => exact absurd (ArtifactError.escapes_iff.mpr ⟨found, rfl⟩) h
  · exact isOrderly_fail (tells_loadError.append _)

/-- What is wrong with a source file is told, unless the host fails. -/
theorem isOrderly_ofLink {file : String} {r : ReadResult} {e : LinkError}
    (h : Linked.parseRead file r = .error e) (hfailed : ∀ failure, e ≠ .failed failure) :
    (LoadError.ofLink e).exit.IsOrderly := by
  rcases Linked.parseRead_error h with rfl | ⟨error, rfl⟩ | ⟨error, rfl⟩ | ⟨failure, rfl⟩
  · exact isOrderly_fail (tells_loadError.append _)
  · have htells : Tells "LexError: " := by decide
    exact isOrderly_fail (htells.append _)
  · -- no number of a scanned text is without a value
    have htells : Tells "ParseError: " := by decide
    obtain ⟨token, hpoints⟩ := Linked.pointsAt_of_parseRead h
    cases hpoints <;> exact isOrderly_fail (htells.append _)
  · exact absurd rfl (hfailed failure)

theorem not_loadEscapes_of_refused {f : FileFault} (hread : t.read path = .error f)
    (hf : f ≠ .zeroCharacter) : ¬ LoadEscapes t path root failure := by
  intro h
  cases h with
  | path hzero => exact hf (Except.error.inj
      (hread.symm.trans (FileTree.read_zeroCharacter_iff.mpr hzero)))
  | artifact hread' => cases hread.symm.trans hread'
  | imported hread' => cases hread.symm.trans hread'

theorem not_loadEscapes_of_outside {outside : Outside} (hread : t.read path = .ok bytes)
    (htag : Artifact.isTagged bytes = false)
    (hentry : virtualPath (pathOf t.current) path root = .error outside) :
    ¬ LoadEscapes t path root failure := by
  intro h
  cases h with
  | path hzero => exact absurd hzero (not_zero_of_read hread)
  | artifact hread' htext =>
    cases hread.symm.trans hread'
    cases htag.symm.trans (Artifact.isTagged_of_unwrap htext)
  | imported _ _ hentry' => cases hentry.symm.trans hentry'

/-- What can escape from an artifact. -/
theorem loadEscapes_artifact_iff (hread : t.read path = .ok bytes)
    (htag : Artifact.isTagged bytes = true) :
    LoadEscapes t path root failure ↔
      ∃ e, Artifact.decode bytes = .error e ∧ (LoadError.ofArtifact e) = .failed failure := by
  constructor
  · intro h
    cases h with
    | path hzero => exact absurd hzero (not_zero_of_read hread)
    | artifact hread' htext hj hstumbles =>
      cases hread.symm.trans hread'
      exact ⟨_, Artifact.decode_of_stumbles htext hj hstumbles, rfl⟩
    | imported hread' hsource =>
      cases hread.symm.trans hread'
      cases htag.symm.trans hsource
  · rintro ⟨e, hdecode, he⟩
    obtain ⟨text, j, v, htext, hj, hstumbles, rfl⟩ :=
      Artifact.stumbles_of_escapes hdecode ⟨failure, he⟩
    cases he
    exact .artifact hread htext hj hstumbles

/-- What can escape from a source file and what it imports, unless the link uses up its fuel. -/
theorem loadEscapes_source_iff (hread : t.read path = .ok bytes)
    (htag : Artifact.isTagged bytes = false)
    (hentry : virtualPath (pathOf t.current) path root = .ok entry)
    {result : Except LinkError Linked}
    (hlink : (link (Store.Rooted.store host (absolute (pathOf t.current) root)) entry t).1 = result)
    (hfuel : result ≠ .error .outOfFuel) :
    LoadEscapes t path root failure ↔ result = .error (.failed failure) := by
  subst hlink
  rw [FileTree.link_error_iff hfuel]
  constructor
  · intro h
    cases h with
    | path hzero => exact absurd hzero (not_zero_of_read hread)
    | artifact hread' htext =>
      cases hread.symm.trans hread'
      cases htag.symm.trans (Artifact.isTagged_of_unwrap htext)
    | imported _ _ hentry' hsearch hbefore hzero =>
      cases hentry.symm.trans hentry'
      refine ⟨_, _, hsearch, hbefore, ?_⟩
      rw [FileTree.sources_failed_iff.mpr ⟨hzero, rfl⟩]
      rfl
  · rintro ⟨before, file, hsearch, hbefore, hparse⟩
    obtain ⟨hzero, rfl⟩ := FileTree.sources_failed_iff.mp (Linked.failed_of_parseRead hparse)
    exact .imported hread htag hentry hsearch hbefore hzero

theorem ends_artifact (hread : t.read path = .ok bytes) (htag : Artifact.isTagged bytes = true)
    {e : ArtifactError} (hdecode : Artifact.decode bytes = .error e) :
    Ends (LoadEscapes t path root) (LoadError.ofArtifact e).exit := by
  by_cases he : e.Escapes
  · obtain ⟨failure, hfailure⟩ := he
    refine .inr (.inr ⟨failure, by rw [hfailure]; rfl, ?_⟩)
    exact (loadEscapes_artifact_iff hread htag).mpr ⟨e, hdecode, hfailure⟩
  · refine .inr (.inl ⟨isOrderly_ofArtifact he, fun failure hescapes => he ?_⟩)
    obtain ⟨other, hother, hfailure⟩ := (loadEscapes_artifact_iff hread htag).mp hescapes
    cases hdecode.symm.trans hother
    exact ⟨failure, hfailure⟩

theorem ends_source (hread : t.read path = .ok bytes) (htag : Artifact.isTagged bytes = false)
    (hentry : virtualPath (pathOf t.current) path root = .ok entry) {e : LinkError}
    (hlink : (link (Store.Rooted.store host (absolute (pathOf t.current) root)) entry t).1 =
      .error e) : Ends (LoadEscapes t path root) (LoadError.ofLink e).exit := by
  by_cases hout : e = .outOfFuel
  · subst hout
    exact .inl .imports
  · have hfuel : (.error e : Except LinkError Linked) ≠ .error .outOfFuel :=
      fun h => hout (Except.error.inj h)
    have hiff {failure : StoreFailure} :
        LoadEscapes t path root failure ↔ e = .failed failure := by
      rw [loadEscapes_source_iff hread htag hentry hlink hfuel, Except.error.injEq]
    by_cases hfailed : ∃ failure, e = .failed failure
    · obtain ⟨failure, rfl⟩ := hfailed
      exact .inr (.inr ⟨failure, rfl, hiff.mpr rfl⟩)
    · obtain ⟨_, file, -, -, hparse⟩ := (FileTree.link_error_iff (hlink ▸ hfuel)).mp hlink
      refine .inr (.inl ⟨isOrderly_ofLink hparse fun failure h => hfailed ⟨failure, h⟩, ?_⟩)
      exact fun failure hescapes => hfailed ⟨failure, hiff.mp hescapes⟩

/-- A program is loaded, or it is not and the end of the invocation is known. -/
theorem loadProgram_ends (t : FileTree) (path root : String) :
    (∃ p, (loadProgram host path root t).1 = .ok p ∧
      ∀ failure, ¬ LoadEscapes t path root failure) ∨
    ∃ e, (loadProgram host path root t).1 = .error e ∧ Ends (LoadEscapes t path root) e.exit := by
  rw [loadProgram, bind_run, workingDirectory_run, bind_run, readFile_run]
  dsimp only
  cases hread : t.read path with
  | error f =>
    by_cases hzero : f = .zeroCharacter
    · subst hzero
      exact .inr ⟨_, rfl, .inr (.inr ⟨_, rfl, .path (FileTree.read_zeroCharacter_iff.mp hread)⟩)⟩
    · refine .inr ⟨.other ("Failed to read " ++ path ++ ": " ++ f.message path), ?_, .inr (.inl
        ⟨isOrderly_fail (tells_loadError.append _),
          fun failure => not_loadEscapes_of_refused hread hzero⟩)⟩
      cases f with
      | zeroCharacter => exact absurd rfl hzero
      | _ => rfl
  | ok bytes =>
    dsimp only
    cases htag : Artifact.isTagged bytes with
    | true =>
      rw [if_pos rfl]
      cases hdecode : Artifact.decode bytes with
      | error e => exact .inr ⟨_, rfl, ends_artifact hread htag hdecode⟩
      | ok p =>
        refine .inl ⟨p, rfl, fun failure hescapes => ?_⟩
        obtain ⟨e, he, -⟩ := (loadEscapes_artifact_iff hread htag).mp hescapes
        cases hdecode.symm.trans he
    | false =>
      rw [if_neg Bool.false_ne_true]
      cases hentry : virtualPath (pathOf t.current) path root with
      | error outside =>
        refine .inr ⟨_, rfl, .inr (.inl ⟨isOrderly_fail (tells_loadError.append _), ?_⟩)⟩
        exact fun failure => not_loadEscapes_of_outside hread htag hentry
      | ok entry =>
        dsimp only
        rw [bind_run]
        cases hlink : (link (Store.Rooted.store host (absolute (pathOf t.current) root)) entry
          t).1 with
        | error e => exact .inr ⟨_, rfl, ends_source hread htag hentry hlink⟩
        | ok linked =>
          refine .inl ⟨linked.program, rfl, fun failure hescapes => ?_⟩
          have hfuel : Except.ok linked ≠ .error LinkError.outOfFuel := by simp
          cases (loadEscapes_source_iff hread htag hentry hlink hfuel).mp hescapes

end Loading

/-! ## Invocations -/

/-- The failure escapes from an invocation. -/
inductive Escapes (rules : Arguments.Rules) (t : FileTree) (args : Arguments) : StoreFailure → Prop
  /-- A program is run, and the failure escapes when it is loaded. -/
  | loading {failure : StoreFailure} : args.sourceMode = false → args.output = none →
      LoadEscapes t args.program (chooseRoot (pathOf t.current) args.root [args.program]) failure →
      Escapes rules t args failure
  /-- By the early rules, an artifact is asked for at a place that has no text, and the program is not
  outside of the root that is asked for. -/
  | nowhere : rules = .early → args.sourceMode = false → args.output = some none →
      (∀ root, args.root = some root → root ≠ "" →
        ∃ entry, virtualPath (pathOf t.current) args.program root = .ok entry) →
      Escapes rules t args noPlace

theorem not_escapes_of_sourceMode (h : args.sourceMode = true) : ¬ Escapes rules t args failure := by
  rintro (⟨hmode, -⟩ | ⟨-, hmode, -⟩) <;> cases h.symm.trans hmode

theorem not_escapes_of_output {output : String} (h : args.output = some (some output)) :
    ¬ Escapes rules t args failure := by
  rintro (⟨-, houtput, -⟩ | ⟨-, -, houtput, -⟩) <;> cases h.symm.trans houtput

theorem compileNowhere_ends (t : FileTree) (hmode : args.sourceMode = false)
    (houtput : args.output = some none) :
    Ends (Escapes .early t args) (compileNowhere (pathOf t.current) args) := by
  have hescapes (hplace : ∀ root, args.root = some root → root ≠ "" →
      ∃ entry, virtualPath (pathOf t.current) args.program root = .ok entry) :
      Ends (Escapes .early t args) (.escaped noPlace) :=
    .inr (.inr ⟨noPlace, rfl, .nowhere rfl hmode houtput hplace⟩)
  unfold compileNowhere
  cases hroot : args.root with
  | none => exact hescapes (by rw [hroot]; nofun)
  | some root =>
    dsimp only
    by_cases hempty : root = ""
    · rw [if_pos hempty]
      refine hescapes fun other hother hne => ?_
      cases hroot.symm.trans hother
      exact absurd hempty hne
    · rw [if_neg hempty]
      cases hentry : virtualPath (pathOf t.current) args.program root with
      | error outside =>
        refine .inr (.inl ⟨isOrderly_outside outside, ?_⟩)
        rintro failure (⟨-, hrun, -⟩ | ⟨-, -, -, hplace⟩)
        · cases houtput.symm.trans hrun
        · obtain ⟨entry, hinside⟩ := hplace root hroot hempty
          cases hentry.symm.trans hinside
      | ok entry =>
        refine hescapes fun other hother _ => ?_
        cases hroot.symm.trans hother
        exact ⟨entry, hentry⟩

/-- A program that is given as text is parsed and run, and nothing escapes. -/
theorem runCommand_source_ends (t : FileTree) (hmode : args.sourceMode = true) :
    Ends (Escapes rules t args) (runCommand host args t).1 := by
  have hnone (failure : StoreFailure) : ¬ Escapes rules t args failure :=
    not_escapes_of_sourceMode hmode
  rw [runCommand, if_pos hmode, parseSource]
  cases hparse : Linked.parseText "<string>" args.program with
  | error e =>
    have hread : Linked.parseRead "<string>" (.text args.program) = .error e := hparse
    refine .inr (.inl ⟨isOrderly_ofLink hread fun failure h => ?_, hnone⟩)
    subst h
    cases Linked.failed_of_parseRead hread
  | ok p => exact (runProgram_ends args "<string>" p).imp id fun h => .inl ⟨h, hnone⟩

/-- A program in a file is loaded and run. -/
theorem runCommand_file_ends (t : FileTree) (hmode : args.sourceMode = false)
    (houtput : args.output = none) : Ends (Escapes rules t args) (runCommand host args t).1 := by
  have hsame : Escapes rules t args =
      LoadEscapes t args.program (chooseRoot (pathOf t.current) args.root [args.program]) := by
    refine funext fun failure => propext ⟨?_, .loading hmode houtput⟩
    rintro (⟨-, -, h⟩ | ⟨-, -, hnowhere, -⟩)
    · exact h
    · cases houtput.symm.trans hnowhere
  rw [hsame, runCommand, hmode, if_neg Bool.false_ne_true, bind_run, workingDirectory_run]
  dsimp only
  rw [bind_run]
  obtain ⟨p, hload, hnone⟩ | ⟨e, hload, hends⟩ := loadProgram_ends t args.program
    (chooseRoot (pathOf t.current) args.root [args.program])
  · rw [hload]
    exact (runProgram_ends args args.program p).imp id fun h => .inl ⟨h, hnone⟩
  · rw [hload]
    exact hends

/-- For every command line that is understood, by whichever rules, and whatever the files hold: unless
its fuel is used up, the invocation ends in order and no failure can escape it, or it ends by one that
can. In order it ends with success and nothing on the error output, or with failure and an explanation
there. -/
theorem invoke_ends {words : List String} (h : Arguments.parse rules words = .ok args)
    (t : FileTree) :
    (invoke host words rules t).1.IsCutShort ∨
    ((invoke host words rules t).1.IsOrderly ∧ ∀ failure, ¬ Escapes rules t args failure) ∨
    ∃ failure, (invoke host words rules t).1 = .escaped failure ∧ Escapes rules t args failure := by
  rw [invoke, h]
  dsimp only
  cases houtput : args.output with
  | none =>
    cases hmode : args.sourceMode with
    | true => exact runCommand_source_ends t hmode
    | false => exact runCommand_file_ends t hmode houtput
  | some output? =>
    dsimp only
    cases hmode : args.sourceMode with
    | true =>
      have htells : Tells "-source cannot be combined with --output" := by decide
      exact .inr (.inl ⟨isOrderly_fail htells, fun failure => not_escapes_of_sourceMode hmode⟩)
    | false =>
      rw [if_neg Bool.false_ne_true]
      cases output? with
      | none =>
        cases rules with
        | early => exact compileNowhere_ends t hmode houtput
        | current => exact absurd houtput (Arguments.output_current h)
      | some output =>
        exact .inr (.inl ⟨isOrderly_compileCommand args output t,
          fun failure => not_escapes_of_output houtput⟩)

/-- A program that imports a path with a zero character, and an artifact whose body is a number. -/
def snares : FileTree where
  entries :=
    [(["main.obpi".toList], .file (Text.utf8 "import \"a\x00b\"; func main() \x7b \x7d")),
      (["broken".toList], .file (Artifact.wrap "\x7b\"type\":\"Program\",\"body\":5\x7d"))]
  current := []

theorem snares_escape :
    Arguments.parse .current ["main.obpi"] = .ok ⟨"main.obpi", false, none, none, false, false⟩ ∧
      ∃ failure, (invoke host ["main.obpi"] .current snares).1 = .escaped failure ∧
        Escapes .current snares ⟨"main.obpi", false, none, none, false, false⟩ failure := by
  have hparse : Arguments.parse .current ["main.obpi"] =
      .ok ⟨"main.obpi", false, none, none, false, false⟩ := by decide +kernel
  have hexit : (invoke host ["main.obpi"] .current snares).1 =
      .escaped Store.Rooted.zeroCharacter := by decide +kernel
  refine ⟨hparse, ?_⟩
  rcases invoke_ends hparse snares with hcut | ⟨horderly, -⟩ | hescapes
  · rw [hexit] at hcut
    cases hcut
  · rw [hexit] at horderly
    cases horderly
  · exact hescapes

/-- None of the three failures is handled: that of an import, of a program and of an artifact. -/
theorem failures_not_handled :
    (invoke host ["main.obpi"] .current snares).1 =
        .escaped ⟨"ValueError", "embedded null byte"⟩ ∧
      (invoke host ["a\x00b"] .current snares).1 =
        .escaped ⟨"ValueError", "embedded null byte"⟩ ∧
      (invoke host ["broken"] .current snares).1 =
        .escaped ⟨"TypeError", "'int' object is not iterable"⟩ := by
  decide +kernel

end CommandLine

end ScriptLang
