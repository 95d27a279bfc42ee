import ScriptLang.Json
import ScriptLang.Number.IntText
import ScriptLang.Number.Shortest
import ScriptLang.Text.Quoted

/-!
# Writing documents

The text of a document: compact or indented by two columns, with all characters or with ASCII
alone. Strings are escaped as the format demands; floats have their shortest text, and the three
that have no decimal text are written `NaN`, `Infinity` and `-Infinity`.
-/
namespace ScriptLang.Json

/-- How a document is laid out. -/
structure Layout where
  /-- Characters beyond ASCII are escaped. -/
  ascii : Bool
  /-- Items and fields stand on lines of their own. -/
  indented : Bool
  deriving DecidableEq, Repr

namespace Layout

/-- Everything on one line, no blanks, all characters as they are: the form of artifacts. -/
def compact : Layout := ⟨false, false⟩

/-- Everything on one line, no blanks, ASCII alone. -/
def asciiCompact : Layout := ⟨true, false⟩

/-- Lines indented by two columns a level, ASCII alone. -/
def asciiIndented : Layout := ⟨true, true⟩

def newline (l : Layout) (level : Nat) : List Char :=
  if l.indented then '\n' :: List.replicate (2 * level) ' ' else []

def colon (l : Layout) : List Char := if l.indented then [':', ' '] else [':']

end Layout

/-! ## Strings -/

def unitEscape (unit : Nat) : List Char := '\\' :: 'u' :: Text.hexPadded 4 unit

/-- The escape of a character by number: of two units if it is beyond the first 65536. -/
def charEscape (c : Char) : List Char :=
  if c.toNat < 0x10000 then unitEscape c.toNat
  else
    let offset := c.toNat - 0x10000
    unitEscape (0xd800 + offset / 0x400) ++ unitEscape (0xdc00 + offset % 0x400)

/-- The characters that stand for `c` in a string. -/
def writeChar (ascii : Bool) (c : Char) : List Char :=
  if c == '"' then ['\\', '"']
  else if c == '\\' then ['\\', '\\']
  else if c == '\n' then ['\\', 'n']
  else if c == '\r' then ['\\', 'r']
  else if c == '\t' then ['\\', 't']
  else if c == '\x0c' then ['\\', 'f']
  else if c == '\x08' then ['\\', 'b']
  else if c.toNat < 0x20 then charEscape c
  else if ascii && 0x7f ≤ c.toNat then charEscape c
  else [c]

/-- A string between its quotes, before more text. -/
def writeString (ascii : Bool) (s : String) (after : List Char) : List Char :=
  '"' :: (s.toList.flatMap (writeChar ascii) ++ '"' :: after)

/-! ## Documents

Every writer takes the text that follows, so that nothing is copied on the way out of a nesting. -/

def floatText (x : Float) : List Char :=
  match Binary64.parts x with
  | .nan => "NaN".toList
  | .infinite negative => if negative then "-Infinity".toList else "Infinity".toList
  | .finite .. => (Shortest.text x).toList

mutual

def write (l : Layout) (level : Nat) : Json → List Char → List Char
  | .null, after => "null".toList ++ after
  | .bool b, after => (if b then "true".toList else "false".toList) ++ after
  | .int n, after => IntText.digits n ++ after
  | .float x, after => floatText x ++ after
  | .str s, after => writeString l.ascii s after
  | .arr [], after => '[' :: ']' :: after
  | .arr (item :: items), after =>
    '[' :: (l.newline (level + 1) ++ item.write l (level + 1)
      (writeItems l (level + 1) items (l.newline level ++ ']' :: after)))
  | .obj [], after => '\x7b' :: '\x7d' :: after
  | .obj ((name, value) :: fields), after =>
    '\x7b' :: (l.newline (level + 1) ++ writeString l.ascii name
      (l.colon ++ value.write l (level + 1)
        (writeFields l (level + 1) fields (l.newline level ++ '\x7d' :: after))))

/-- The items after the first one, each after a comma. -/
def writeItems (l : Layout) (level : Nat) : List Json → List Char → List Char
  | [], after => after
  | item :: items, after =>
    ',' :: (l.newline level ++ item.write l level (writeItems l level items after))

/-- The fields after the first one, each after a comma. -/
def writeFields (l : Layout) (level : Nat) : List (String × Json) → List Char → List Char
  | [], after => after
  | (name, value) :: fields, after =>
    ',' :: (l.newline level ++ writeString l.ascii name
      (l.colon ++ value.write l level (writeFields l level fields after)))

end

mutual

/-- The text of no integer in the document has too many digits. -/
def isWritable : Json → Bool
  | .int n => decide (n.natAbs < IntText.tooLarge)
  | .arr items => areWritable items
  | .obj fields => fieldsWritable fields
  | _ => true

def areWritable : List Json → Bool
  | [] => true
  | item :: items => item.isWritable && areWritable items

def fieldsWritable : List (String × Json) → Bool
  | [] => true
  | (_, value) :: fields => value.isWritable && fieldsWritable fields

end

/-- The text of a document in a layout (`json.dumps`). -/
def render (l : Layout) (j : Json) : String := String.ofList (j.write l 0 [])

end ScriptLang.Json
