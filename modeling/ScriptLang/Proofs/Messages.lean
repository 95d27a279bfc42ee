import ScriptLang.CommandLine
import ScriptLang.Proofs.Compilation

/-!
# Messages are not empty

What is written about a failure begins with a line that says something, whatever failed and whatever
the files are called: the fixed words of a message come first in it.

Result:
* `tells_compile`: so does the report of every compilation.
-/
namespace ScriptLang.CommandLine

/-- The first line of the text is not empty. -/
def Tells (text : String) : Prop := text.toList.head?.any (· != '\n') = true

instance (text : String) : Decidable (Tells text) := inferInstanceAs (Decidable (_ = true))

theorem Tells.append {a : String} (h : Tells a) (b : String) : Tells (a ++ b) := by
  unfold Tells at h ⊢
  rw [String.toList_append]
  cases ha : a.toList with
  | nil =>
    rw [ha] at h
    cases h
  | cons c rest =>
    rw [ha] at h
    exact h

theorem tells_intercalate {line : String} (h : Tells line) (separator : String)
    (lines : List String) : Tells (separator.intercalate (line :: lines)) := by
  cases lines with
  | nil => rwa [String.intercalate_singleton]
  | cons next lines =>
    rw [String.intercalate_cons_cons]
    exact (h.append _).append _

theorem tells_unlines {line : String} (h : Tells line) (lines : List String) :
    Tells (unlines (line :: lines)) := by
  rw [unlines, List.map_cons, String.join_cons]
  exact (h.append _).append _

theorem tells_lexError (file : String) (e : LexError) : Tells (e.message file) := by
  cases e with
  | unexpected c p =>
    have h : Tells "Unexpected character '" := by decide
    exact ((h.append _).append _).append _
  | unterminatedString p =>
    have h : Tells "Unterminated string literal at " := by decide
    exact h.append _

theorem tells_slot (slot : Slot) : Tells slot.message := by cases slot <;> decide

theorem tells_parseError (file : String) (e : ParseError) : Tells (e.message file) := by
  cases e with
  | noEnd => show Tells "Token stream must end with EOF"; decide
  | missing slot t =>
    exact ((((((tells_slot slot).append _).append _).append _).append _).append _).append _
  | badTarget kind t =>
    have h : Tells "Invalid left-hand side in assignment at " := by decide
    exact h.append _
  | notCallable start t =>
    have h : Tells "Expected identifier before call expression at " := by decide
    exact h.append _
  | noExpression t =>
    have h : Tells "Unexpected token " := by decide
    exact ((((h.append _).append _).append _).append _).append _
  | badNumber text =>
    have h : Tells "could not convert string to float: " := by decide
    exact h.append _
  | outOfFuel => show Tells "out of fuel"; decide

theorem tells_unknown (message : String) : Tells (Compilation.unknown message) := by
  have h : Tells "An unknown compilation error occurred: " := by decide
  exact h.append _

theorem tells_linkFailed (e : LinkError) : Tells (Compilation.linkFailed e).message := by
  cases e with
  | unreadable path =>
    have h : Tells "Could not read source file at " := by decide
    exact h.append _
  | lex path error => exact tells_lexError path error
  | parse path error =>
    unfold Compilation.linkFailed
    split
    · exact tells_unknown _
    · exact tells_unknown _
    · exact tells_parseError path error
  | failed failure => exact tells_unknown _
  | outOfFuel => show Tells "out of fuel"; decide

theorem tells_written (output : String) (files : List String) (result : WriteResult) :
    Tells (Compilation.written output files result).message := by
  cases result with
  | done =>
    have h : Tells "Compilation successful! Executable created at " := by decide
    exact h.append _
  | refused =>
    have h : Tells "Compilation failed. Could not write to " := by decide
    exact (h.append _).append _
  | failed failure => exact tells_unknown _

/-- Whatever the store does, a compilation has something to say. -/
theorem tells_compile {σ : Type} (store : Store (StateM σ)) (entry output : String) (s : σ) :
    Tells (compile store entry output s).1.message := by
  rcases hlink : link store entry s with ⟨_ | linked, s'⟩
  · rw [compile_failed hlink]
    exact tells_linkFailed _
  · rw [compile_linked hlink (Artifact.holds_of_link hlink).built]
    exact tells_written ..

end ScriptLang.CommandLine
