/-!
# Decimal text of integers

Integers are unbounded, but the text of one is limited to 4300 digits.
-/
namespace ScriptLang.IntText

/-- The largest number of digits that the text of an integer, or a numeral that is read as an
integer, may have. -/
def maxDigits : Nat := 4300

def tooLarge : Nat := Nat.pow 10 maxDigits

/-- All digits of an integer, with a sign if it is negative. -/
def digits (n : Int) : List Char :=
  if n < 0 then '-' :: Nat.toDigits 10 n.natAbs else Nat.toDigits 10 n.natAbs

/-- The text of an integer, unless it would have too many digits. -/
def text? (n : Int) : Option String :=
  if n.natAbs < tooLarge then some (String.ofList (digits n)) else none

/-- The number that decimal digits stand for. -/
def ofDigits (ds : List Char) : Nat := ds.foldl (fun n d => 10 * n + (d.toNat - '0'.toNat)) 0

def isDigit (c : Char) : Bool := '0' ≤ c && c ≤ '9'

end ScriptLang.IntText
