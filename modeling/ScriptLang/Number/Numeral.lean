import ScriptLang.Json
import ScriptLang.Number.IntText

/-!
# Numerals

The number that the text of a number token stands for. A text with a point is a float; any other is
an integer if it can be read as one of at most 4300 digits, and else a float. The scanner makes
digits with at most one point among them; tokens from elsewhere may also have blanks around, a sign,
an exponent, single underscores between digits, decimal digits of any writing system (Unicode 14.0),
and the words for infinity and NaN.
-/
namespace ScriptLang.Numeral

/-! ## Characters -/

/-- The code points of the zeros beyond ASCII; nine more digits follow each of them. -/
def zeros : List Nat := [
  0x660, 0x6f0, 0x7c0, 0x966, 0x9e6, 0xa66, 0xae6, 0xb66, 0xbe6, 0xc66, 0xce6, 0xd66, 0xde6,
  0xe50, 0xed0, 0xf20, 0x1040, 0x1090, 0x17e0, 0x1810, 0x1946, 0x19d0, 0x1a80, 0x1a90, 0x1b50,
  0x1bb0, 0x1c40, 0x1c50, 0xa620, 0xa8d0, 0xa900, 0xa9d0, 0xa9f0, 0xaa50, 0xabf0, 0xff10,
  0x104a0, 0x10d30, 0x11066, 0x110f0, 0x11136, 0x111d0, 0x112f0, 0x11450, 0x114d0, 0x11650,
  0x116c0, 0x11730, 0x118e0, 0x11950, 0x11c50, 0x11d50, 0x11da0, 0x16a60, 0x16ac0, 0x16b50,
  0x1d7ce, 0x1d7d8, 0x1d7e2, 0x1d7ec, 0x1d7f6, 0x1e140, 0x1e2f0, 0x1e950, 0x1fbf0]

/-- The code points of the blanks beyond ASCII. -/
def blanks : List Nat := [
  0x85, 0xa0, 0x1680, 0x2000, 0x2001, 0x2002, 0x2003, 0x2004, 0x2005, 0x2006, 0x2007, 0x2008,
  0x2009, 0x200a, 0x2028, 0x2029, 0x202f, 0x205f, 0x3000]

/-- A character as the readers below see it: blanks and digits beyond ASCII become ASCII ones, and
all else beyond ASCII a character that is part of no numeral. -/
def plain (c : Char) : Char :=
  if c.toNat < 0x7f then c
  else if blanks.contains c.toNat then ' '
  else
    match zeros.find? fun z => z ≤ c.toNat && c.toNat ≤ z + 9 with
    | some z => Char.ofNat ('0'.toNat + (c.toNat - z))
    | none => '?'

def isBlank (c : Char) : Bool :=
  c == ' ' || c == '\t' || c == '\n' || c == '\r' || c == '\x0b' || c == '\x0c'

def trimmed (cs : List Char) : List Char :=
  ((cs.dropWhile isBlank).reverse.dropWhile isBlank).reverse

/-- The text without its underscores, each of which must stand between two digits; `before` is the
character before the text. -/
def joined? (before : Char) : List Char → Option (List Char)
  | [] => if before == '_' then none else some []
  | c :: rest =>
    if c == '_' then
      if IntText.isDigit before then joined? c rest else none
    else if before == '_' && !IntText.isDigit c then none
    else (joined? c rest).map (c :: ·)

def signOf : List Char → Bool × List Char
  | '-' :: rest => (true, rest)
  | '+' :: rest => (false, rest)
  | rest => (false, rest)

/-! ## Readers -/

/-- The integer that a text is, if it is digits alone and not too many. -/
def int? (cs : List Char) : Option Int := do
  let (negative, digits) := signOf (← joined? ' ' (trimmed cs))
  if digits.isEmpty || digits.any (!IntText.isDigit ·) || IntText.maxDigits < digits.length then
    none
  else some (Binary64.signed negative (IntText.ofDigits digits))

/-- The value of an exponent with its letter, zero for none; fails on anything else. -/
def exponent? : List Char → Option Int
  | [] => some 0
  | e :: rest =>
    if e == 'e' || e == 'E' then
      let (negative, digits) := signOf rest
      if digits.isEmpty || digits.any (!IntText.isDigit ·) then none
      else some (Binary64.signed negative (IntText.ofDigits digits))
    else none

/-- The float of an unsigned decimal text: digits on one side of the point at least. -/
def decimal? (negative : Bool) (cs : List Char) : Option Float := do
  let whole := cs.takeWhile IntText.isDigit
  let (fraction, rest) :=
    match cs.drop whole.length with
    | '.' :: after =>
      let digits := after.takeWhile IntText.isDigit
      (digits, after.drop digits.length)
    | rest => ([], rest)
  let exponent ← exponent? rest
  if whole.isEmpty && fraction.isEmpty then none
  else
    let digits := IntText.ofDigits (whole ++ fraction)
    some (Binary64.ofDecimal negative digits (exponent - fraction.length))

/-- The float that a text is. -/
def float? (cs : List Char) : Option Float := do
  let (negative, rest) := signOf (← joined? ' ' (trimmed cs))
  let word := String.ofList (rest.map Char.toLower)
  if word == "inf" || word == "infinity" then some (Binary64.infinity negative)
  else if word == "nan" then some Binary64.nan
  else decimal? negative rest

/-- The number that the text of a token is (`_number_value`). -/
def read? (text : String) : Option Json :=
  let cs := text.toList.map plain
  if cs.contains '.' then (float? cs).map .float
  else
    match int? cs with
    | some n => some (.int n)
    | none => (float? cs).map .float

end ScriptLang.Numeral
