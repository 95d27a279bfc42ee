import ScriptLang.Text.Printable

/-!
# Quoted text

A text between quotes, with everything that is not printable written as an escape. The quote is
the single one, unless the text holds single quotes and no double quote. Error messages, scope
snapshots and the text of lists show strings this way.
-/
namespace ScriptLang.Text

def hexDigits (n : Nat) : List Char := Nat.toDigits 16 n

/-- `n` in base 16, filled with zeros on the left to `width` digits. -/
def hexPadded (width n : Nat) : List Char :=
  let digits := hexDigits n
  List.replicate (width - digits.length) '0' ++ digits

/-- The escape of a character by its number: two, four or eight digits, the fewest that fit. -/
def numericEscape (c : Char) : List Char :=
  if c.toNat < 0x100 then '\\' :: 'x' :: hexPadded 2 c.toNat
  else if c.toNat < 0x10000 then '\\' :: 'u' :: hexPadded 4 c.toNat
  else '\\' :: 'U' :: hexPadded 8 c.toNat

/-- The characters that stand for `c` between two quotes `quote`. -/
def quotedChar (quote c : Char) : List Char :=
  if c == quote || c == '\\' then ['\\', c]
  else if c == '\n' then ['\\', 'n']
  else if c == '\r' then ['\\', 'r']
  else if c == '\t' then ['\\', 't']
  else if isPrintable c then [c]
  else numericEscape c

/-- The quote that `quoted` puts around a text. -/
def quoteFor (text : List Char) : Char :=
  if text.contains '\'' && !text.contains '"' then '"' else '\''

/-- The text between quotes. -/
def quoted (text : String) : String :=
  let chars := text.toList
  let quote := quoteFor chars
  String.ofList (quote :: chars.flatMap (quotedChar quote) ++ [quote])

end ScriptLang.Text
