/-!
# UTF-8

Bytes of a text and the text of bytes, and the line breaks of text files: a carriage return, alone
or before a line feed, reads as a line feed.
-/
namespace ScriptLang

/-- The contents of a file or an artifact. -/
abbrev Bytes := List UInt8

namespace Text

def utf8 (s : String) : Bytes := s.toUTF8.toList

/-- The text of which the bytes are the UTF-8 form. -/
def ofUtf8? (bytes : Bytes) : Option String := String.fromUTF8? ⟨bytes.toArray⟩

def unixLines : List Char → List Char
  | '\r' :: '\n' :: rest => '\n' :: unixLines rest
  | '\r' :: rest => '\n' :: unixLines rest
  | c :: rest => c :: unixLines rest
  | [] => []

/-- The text of a text file. -/
def ofFile? (bytes : Bytes) : Option String :=
  (ofUtf8? bytes).map fun s => String.ofList (unixLines s.toList)

end Text

end ScriptLang
