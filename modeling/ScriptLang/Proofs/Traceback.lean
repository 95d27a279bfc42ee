import Mathlib.Data.List.Forall2
import ScriptLang.CommandLine

/-!
# Tracebacks of one program under two names

The name under which a program is known is shown in the lines about frames and nowhere else.

Result:
* `runProgram_alike`: under two names a program ends in the same way, with the same output, and the
  lines of the tracebacks differ in the name only.
-/
namespace ScriptLang

namespace Traceback

/-- The lines are the same, or they are about the same frame of programs in two files. -/
inductive SameLine (file file' : String) : String → String → Prop
  | same (line : String) : SameLine file file' line line
  | frame (name : String) :
      SameLine file file' ("  File \"" ++ file ++ "\", in " ++ name)
        ("  File \"" ++ file' ++ "\", in " ++ name)

def lines (m : Machine) (verbose : Bool) (file : String) (f : Fault) : List String :=
  "Traceback (most recent call last):" :: (frames m).flatMap (frameLines verbose file) ++
    [faultLine f]

theorem text_eq (m : Machine) (verbose : Bool) (file : String) (f : Fault) :
    text m verbose file f = "\n".intercalate (lines m verbose file f) := rfl

variable {file file' : String}

theorem forall₂_same (same : List String) : List.Forall₂ (SameLine file file') same same :=
  List.forall₂_same.mpr fun line _ => .same line

theorem frameLines_alike (verbose : Bool) (entries : List (Frame × Option Step)) :
    List.Forall₂ (SameLine file file') (entries.flatMap (frameLines verbose file))
      (entries.flatMap (frameLines verbose file')) := by
  induction entries with
  | nil => exact .nil
  | cons entry entries ih =>
    rw [List.flatMap_cons, List.flatMap_cons]
    exact List.rel_append (.cons (.frame _) (forall₂_same _)) ih

theorem lines_alike (m : Machine) (verbose : Bool) (f : Fault) :
    List.Forall₂ (SameLine file file') (lines m verbose file f) (lines m verbose file' f) :=
  .cons (.same _) (List.rel_append (frameLines_alike verbose _) (forall₂_same _))

end Traceback

namespace CommandLine

theorem unlines_intercalate (line : String) (lines : List String) :
    unlines ["\n".intercalate (line :: lines)] = unlines (line :: lines) := by
  induction lines generalizing line with
  | nil => rw [String.intercalate_singleton]
  | cons next lines ih =>
    have hrest := ih next
    simp only [unlines, List.map_cons, List.map_nil, String.join_cons] at hrest ⊢
    rw [String.intercalate_cons_cons, ← hrest]
    simp [String.append_assoc]

/-- Under two names a program ends in the same way, with the same output, and the lines of the
tracebacks differ in the name only. -/
theorem runProgram_alike (args args' : Arguments) (hverbose : args'.verbose = args.verbose)
    (hjson : args.tracebackJson = false) (hjson' : args'.tracebackJson = false) (file file' : String)
    (p : Program) :
    ∃ code stdout lines lines',
      runProgram args file p = .code code stdout (unlines lines) ∧
      runProgram args' file' p = .code code stdout (unlines lines') ∧
      List.Forall₂ (Traceback.SameLine file file') lines lines' := by
  unfold runProgram
  rw [hverbose, hjson, hjson']
  rcases (Machine.fresh args.verbose none).run p with ⟨result, final⟩
  have told (name : String) (f : Fault) :
      unlines [Traceback.text final args.verbose name f] =
        unlines (Traceback.lines final args.verbose name f) := by
    rw [Traceback.text_eq]
    exact unlines_intercalate _ _
  cases result with
  | value v => exact ⟨0, unlines final.output.toList, [], [], rfl, rfl, .nil⟩
  | fault f step =>
    refine ⟨1, unlines final.output.toList, Traceback.lines final args.verbose file f,
      Traceback.lines final args.verbose file' f, ?_, ?_, Traceback.lines_alike _ _ _⟩
    · rw [← told]
      rfl
    · rw [← told]
      rfl
  | outOfFuel =>
    exact ⟨1, unlines final.output.toList, ["out of fuel"], ["out of fuel"], rfl, rfl,
      Traceback.forall₂_same _⟩

end CommandLine

end ScriptLang
