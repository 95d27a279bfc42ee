import ScriptLang.Arguments

/-!
# Invocations with a program, a root and an output

What the words of an invocation are read as when they are a program with some options that are given in
full. A word is taken for a program or for the value of an option under the same condition.

Results:
* `parse_run`: an invocation that runs a program, with or without a root;
* `parse_compile`: if an invocation that compiles a program is understood, all its words are values,
  and it is read as it was meant;
* `output_current`: by the current rules, the place for an artifact has a text.
-/
namespace ScriptLang.Arguments

/-- The word is taken for a program, or for the value of an option before it. -/
structure IsValue (word : String) : Prop where
  ne_dashes : word ≠ "--"
  positional : classify word = .positional

instance (word : String) : Decidable (IsValue word) :=
  decidable_of_iff (word ≠ "--" ∧ classify word = .positional)
    ⟨fun h => ⟨h.1, h.2⟩, fun h => ⟨h.ne_dashes, h.positional⟩⟩

theorem isValue_iff {word : String} :
    (word != "--" && classify word == .positional) = true ↔ IsValue word := by
  rw [Bool.and_eq_true, bne_iff_ne, beq_iff_eq]
  exact ⟨fun h => ⟨h.1, h.2⟩, fun h => ⟨h.ne_dashes, h.positional⟩⟩

/-! ## Reading one word -/

variable {rules : Rules} {reading reading' : Reading} {justRead : Bool} {word value : String}
  {words : List String}

theorem kept_value (h : IsValue word) : rules.kept word = some word :=
  if_neg fun hdashes => h.ne_dashes hdashes.2

theorem readWords_value (h : IsValue word) :
    readWords rules reading justRead (word :: words) =
      readWords rules (reading.positional word) reading.program.isNone words := by
  rw [readWords.eq_def]
  dsimp only
  rw [if_neg (by simpa using h.ne_dashes), h.positional]

/-- An option of two dashes that takes the next word. -/
theorem readWords_option {setting : Setting} (hword : (word == "--") = false)
    (h : classify word = .option ⟨setting, isLong word, none⟩) (hvalue : setting.takesValue = true) :
    readWords rules reading justRead (word :: value :: words) =
      if IsValue value then readWords rules (reading.setValue rules setting value) false words
      else .error .usage := by
  have hrequests : rules.requests ⟨setting, isLong word, none⟩ = some [.value setting none] := by
    rw [Rules.requests, if_pos hvalue]
    rfl
  rw [readWords.eq_def]
  dsimp only
  rw [hword, if_neg Bool.false_ne_true, h]
  dsimp only
  rw [hrequests]
  dsimp only
  rw [if_pos (show needNext [.value setting none] = true from rfl)]
  by_cases hv : IsValue value
  · rw [if_pos (isValue_iff.mpr hv), if_pos hv]
    rfl
  · rw [if_neg (mt isValue_iff.mp hv), if_neg hv]

theorem readWords_root :
    readWords rules reading justRead ("--root" :: value :: words) =
      if IsValue value then readWords rules (reading.setValue rules .root value) false words
      else .error .usage :=
  readWords_option rfl (by decide +kernel) rfl

theorem readWords_output :
    readWords rules reading justRead ("-o" :: value :: words) =
      if IsValue value then readWords rules (reading.setValue rules .output value) false words
      else .error .usage :=
  readWords_option rfl (by decide +kernel) rfl

theorem readWords_verbose :
    readWords rules reading justRead ("-verbose" :: words) =
      readWords rules { reading with verbose := true } false words := by
  rw [readWords.eq_def]
  dsimp only
  rw [if_neg (by decide), show classify "-verbose" = .option ⟨.verbose, false, none⟩ by decide +kernel]
  rfl

/-- What every single request keeps is kept by all of them. -/
theorem apply_induction {Keeps : Reading → Prop} {next : String} {requests : List Request}
    (hflag : ∀ r r' setting, Keeps r → Reading.flag r setting = .ok r' → Keeps r')
    (hvalue : ∀ r setting value, Keeps r → Keeps (r.setValue rules setting value))
    (hstray : ∀ r : Reading, Keeps r → Keeps { r with strays := true }) (hreading : Keeps reading)
    (h : reading.apply rules next requests = .ok reading') : Keeps reading' := by
  induction requests generalizing reading with
  | nil =>
    cases h
    exact hreading
  | cons request requests ih =>
    cases request with
    | flag setting =>
      rw [Reading.apply] at h
      cases happly : reading.flag setting with
      | error stop =>
        rw [happly] at h
        cases h
      | ok flagged =>
        rw [happly] at h
        exact ih (hflag reading flagged setting hreading happly) h
    | value setting attached =>
      rw [Reading.apply] at h
      exact ih (hvalue reading setting _ hreading) h
    | stray =>
      rw [Reading.apply] at h
      exact ih (hstray reading hreading) h

/-- An option is no program. -/
theorem program_apply {next : String} {requests : List Request}
    (h : reading.apply rules next requests = .ok reading') : reading'.program = reading.program := by
  have hflag (r r' : Reading) (setting : Setting) (hr : r.program = reading.program)
      (h : r.flag setting = .ok r') : r'.program = reading.program := by
    cases setting <;> cases h <;> exact hr
  have hvalue (r : Reading) (setting : Setting) (value : String)
      (hr : r.program = reading.program) :
      (r.setValue rules setting value).program = reading.program := by
    cases setting <;> exact hr
  exact apply_induction hflag hvalue (fun _ hr => hr) rfl h

/-! ## Running -/

def rootWords : Option String → List String
  | some root => ["--root", root]
  | none => []

def verboseWords (verbose : Bool) : List String := if verbose then ["-verbose"] else []

/-- Reading decides, unless a word may be short for several options. -/
theorem parse_of_readWords {words : List String} {reading : Reading} {program : String}
    (hwords : ∀ w ∈ words, classify w ≠ .ambiguous)
    (h : readWords rules .empty false words = .ok reading) (hprogram : reading.program = some program)
    (hstrays : reading.strays = false) :
    parse rules words =
      .ok ⟨program, reading.sourceMode, reading.output, reading.root, reading.verbose,
        reading.tracebackJson⟩ := by
  have hclear : ((words.takeWhile (· != "--")).any fun w => classify w == .ambiguous) = false := by
    rw [List.any_eq_false]
    intro w hw
    rw [beq_iff_eq]
    exact hwords w ((List.takeWhile_subset _) hw)
  rw [parse, hclear, if_neg Bool.false_ne_true, h]
  simp only [hprogram, hstrays]

theorem readWords_run {program : String} {root : Option String} (hprogram : IsValue program)
    (hroot : ∀ r, root = some r → IsValue r) (verbose : Bool) :
    readWords rules .empty false (program :: (rootWords root ++ verboseWords verbose)) =
      .ok ⟨some program, false, none, root, verbose, false, false⟩ := by
  rw [readWords_value hprogram]
  cases root with
  | none =>
    cases verbose with
    | false => rfl
    | true => exact readWords_verbose
  | some r =>
    have hr := hroot r rfl
    show readWords rules _ _ ("--root" :: r :: verboseWords verbose) = _
    rw [readWords_root, if_pos hr]
    have hset : (Reading.empty.positional program).setValue rules .root r =
        ⟨some program, false, none, some r, false, false, false⟩ := by
      rw [Reading.setValue, kept_value hr]
      rfl
    rw [hset]
    cases verbose with
    | false => rfl
    | true => exact readWords_verbose

/-- An invocation that runs a program, with or without a root. -/
theorem parse_run {program : String} {root : Option String} (hprogram : IsValue program)
    (hroot : ∀ r, root = some r → IsValue r) (verbose : Bool) :
    parse rules (program :: (rootWords root ++ verboseWords verbose)) =
      .ok ⟨program, false, none, root, verbose, false⟩ := by
  have hoptions : classify "--root" ≠ .ambiguous ∧ classify "-verbose" ≠ .ambiguous := by
    decide +kernel
  have hvalue {w : String} (h : IsValue w) : classify w ≠ .ambiguous := by
    rw [h.positional]
    exact Word.noConfusion
  refine parse_of_readWords ?_ (readWords_run hprogram hroot verbose) rfl rfl
  refine List.forall_mem_cons.mpr ⟨hvalue hprogram, List.forall_mem_append.mpr ⟨?_, ?_⟩⟩
  · cases root with
    | none => exact fun w hw => absurd hw List.not_mem_nil
    | some r => simpa [rootWords, hoptions] using hvalue (hroot r rfl)
  · cases verbose with
    | false => exact fun w hw => absurd hw List.not_mem_nil
    | true => simpa [verboseWords] using hoptions.2

/-! ## Compiling -/

/-- What comes after the program of an invocation that compiles. -/
theorem readWords_compile {root output : String}
    (h : readWords rules reading justRead ["--root", root, "-o", output] = .ok reading') :
    IsValue root ∧ IsValue output ∧
      reading' = { reading with root := some root, output := some (some output) } := by
  rw [readWords_root] at h
  split at h
  · next hroot =>
    rw [readWords_output] at h
    split at h
    · next houtput =>
      refine ⟨hroot, houtput, ?_⟩
      rw [readWords.eq_def] at h
      cases h
      rw [Reading.setValue, Reading.setValue, kept_value hroot, kept_value houtput]
      rfl
    · cases h
  · cases h

theorem parse_eq_ok {words : List String} {args : Arguments} (h : parse rules words = .ok args) :
    ∃ reading, readWords rules .empty false words = .ok reading ∧ reading.program = some args.program ∧
      reading.strays = false ∧
      args = ⟨args.program, reading.sourceMode, reading.output, reading.root, reading.verbose,
        reading.tracebackJson⟩ := by
  unfold parse at h
  split at h
  · cases h
  · split at h
    · cases h
    · next reading hreading =>
      split at h
      · next program hprogram hstrays =>
        cases h
        exact ⟨reading, hreading, hprogram, hstrays, rfl⟩
      · cases h

/-- Only a value is taken for the program: the options that follow are not taken for one. -/
theorem isValue_of_readWords_compile {program root output : String} {reading : Reading}
    (h : readWords rules .empty false [program, "--root", root, "-o", output] = .ok reading)
    (hprogram : reading.program ≠ none) (hstrays : reading.strays = false) : IsValue program := by
  rw [readWords.eq_def] at h
  dsimp only at h
  split at h
  · -- after two dashes the option would be the program, and the rest would have no place
    cases h
    cases hstrays
  · next hdashes =>
    split at h
    · cases h
    · next hpositional => exact ⟨by simpa using hdashes, hpositional⟩
    · obtain ⟨-, -, rfl⟩ := readWords_compile h
      cases hstrays
    · split at h
      · cases h
      · split at h
        · cases h
        · split at h
          · next hread =>
            obtain ⟨-, -, rfl⟩ := readWords_compile h
            exact absurd (program_apply hread) hprogram
          · cases h

/-- If an invocation that compiles a program is understood, its words are values, and it is read as it
was meant. -/
theorem parse_compile {program root output : String} {args : Arguments}
    (h : parse rules [program, "--root", root, "-o", output] = .ok args) :
    IsValue program ∧ IsValue root ∧ IsValue output ∧
      args = ⟨program, false, some (some output), some root, false, false⟩ := by
  obtain ⟨reading, hread, hprogram, hstrays, hargs⟩ := parse_eq_ok h
  have hvalue := isValue_of_readWords_compile hread (by simp [hprogram]) hstrays
  rw [readWords_value hvalue] at hread
  obtain ⟨hroot, houtput, rfl⟩ := readWords_compile hread
  cases hprogram
  exact ⟨hvalue, hroot, houtput, hargs⟩

/-! ## The place for an artifact -/

/-- A place that is asked for has a text. -/
def Reading.HasPlace (reading : Reading) : Prop := reading.output ≠ some none

theorem hasPlace_apply {next : String} {requests : List Request} (hplace : reading.HasPlace)
    (h : reading.apply .current next requests = .ok reading') : reading'.HasPlace := by
  have hflag (r r' : Reading) (setting : Setting) (hr : r.HasPlace)
      (h : r.flag setting = .ok r') : r'.HasPlace := by
    cases setting <;> cases h <;> exact hr
  have hvalue (r : Reading) (setting : Setting) (value : String) (hr : r.HasPlace) :
      (r.setValue .current setting value).HasPlace := by
    cases setting with
    | output => rintro ⟨⟩
    | _ => exact hr
  exact apply_induction hflag hvalue (fun _ hr => hr) hplace h

theorem hasPlace_positional (hplace : reading.HasPlace) : (reading.positional word).HasPlace := by
  unfold Reading.positional
  split <;> exact hplace

theorem hasPlace_readWords (hplace : reading.HasPlace)
    (h : readWords .current reading justRead words = .ok reading') : reading'.HasPlace := by
  fun_induction readWords .current reading justRead words with
  | case1 | case2 | case3 | case4 =>
    cases h
    exact hplace
  | case5 | case8 | case9 | case11 | case12 | case14 => cases h
  | case6 reading _ _ _ _ _ ih => exact ih (hasPlace_positional hplace) h
  | case7 reading _ _ _ _ _ ih => exact ih hplace h
  | case10 _ _ _ _ _ _ _ _ _ _ _ _ _ happly ih => exact ih (hasPlace_apply hplace happly) h
  | case13 _ _ _ _ _ _ _ _ _ _ _ happly ih => exact ih (hasPlace_apply hplace happly) h

/-- By the current rules, a place for an artifact that is asked for has a text. -/
theorem output_current {args : Arguments} (h : parse .current words = .ok args) :
    args.output ≠ some none := by
  obtain ⟨reading, hread, -, -, hargs⟩ := parse_eq_ok h
  have hempty : Reading.empty.HasPlace := nofun
  rw [hargs]
  exact hasPlace_readWords hempty hread

end ScriptLang.Arguments
