import ScriptLang.Json
import ScriptLang.Number.IntText
import ScriptLang.Number.Shortest
import ScriptLang.Text.Quoted

/-!
# Showing documents in messages

The form in which messages, snapshots and printed lists show a document: strings quoted, lists in
brackets, objects in braces, and `None`, `True` and `False` for the three constants. There is no
such text where an integer has too many digits.
-/
namespace ScriptLang.Json

mutual

def shown? : Json → Option String
  | .null => some "None"
  | .bool b => some (if b then "True" else "False")
  | .int n => IntText.text? n
  | .float x => some (Shortest.text x)
  | .str s => some (Text.quoted s)
  | .arr items => do
    return "[" ++ ", ".intercalate (← shownItems? items) ++ "]"
  | .obj fields => do
    return "\x7b" ++ ", ".intercalate (← shownFields? fields) ++ "\x7d"

def shownItems? : List Json → Option (List String)
  | [] => some []
  | item :: items => do
    let first ← item.shown?
    return first :: (← shownItems? items)

def shownFields? : List (String × Json) → Option (List String)
  | [] => some []
  | (name, value) :: fields => do
    let first ← value.shown?
    return (Text.quoted name ++ ": " ++ first) :: (← shownFields? fields)

end

/-- The text of a document that stands inside a message: a string is not quoted there. -/
def inMessage? : Json → Option String
  | .str s => some s
  | j => j.shown?

/-- The text that shows a document, for those whose integers were read from a document and so have
few enough digits. -/
def shown (j : Json) : String := j.shown?.getD ""

/-- The text of a document inside a message, for those whose integers were read from a document. -/
def inMessage (j : Json) : String := j.inMessage?.getD ""

end ScriptLang.Json
