import ScriptLang.Number.Binary64

/-!
# Shortest decimal text of a float

A float is written with the fewest significant digits that read back as the same float, and of
those with the ones nearest to it. Numbers from `0.0001` up to but not including `10 ^ 16` are
written positionally, with at least one digit on each side of the point; all others have an
exponent of at least two digits.
-/
namespace ScriptLang.Shortest

/-- A positive number and the ends of the interval of the numbers that round to it, all over one
denominator. The ends belong to the interval iff `closed`. -/
structure Interval where
  low : Nat
  value : Nat
  high : Nat
  denominator : Nat
  closed : Bool
  deriving Repr

/-- The interval of the float `mantissa * 2 ^ exponent`. Below a power of two the neighbours are
twice as close, unless the exponent is the least one. -/
def interval (mantissa : Nat) (exponent : Int) : Interval :=
  let closer := mantissa = Nat.pow 2 52 ∧ -1074 < exponent
  let low := if closer then 4 * mantissa - 1 else 4 * mantissa - 2
  let unit := exponent - 2
  let scale := Nat.pow 2 unit.toNat
  { low := low * scale, value := 4 * mantissa * scale, high := (4 * mantissa + 2) * scale
    denominator := Nat.pow 2 (-unit).toNat, closed := mantissa % 2 == 0 }

def Interval.holds (i : Interval) (num den : Nat) : Bool :=
  if i.closed then i.low * den ≤ num * i.denominator ∧ num * i.denominator ≤ i.high * den
  else i.low * den < num * i.denominator ∧ num * i.denominator < i.high * den

/-- The number of decimal digits of `n`; zero has none. -/
def decimalLength (n : Nat) : Nat := if n = 0 then 0 else (Nat.toDigits 10 n).length

/-- The least `p` with `value < 10 ^ p`. -/
def Interval.pointPosition (i : Interval) : Int :=
  if i.denominator ≤ i.value then decimalLength (i.value / i.denominator)
  else 1 - (decimalLength ((i.denominator + i.value - 1) / i.value - 1) : Nat)

/-- The multiple of `10 ^ place` that is in the interval and nearest to its value, as a multiplier;
of two that are equally near the even one. -/
def Interval.onGrid (i : Interval) (place : Int) : Option Nat :=
  let up := Nat.pow 10 place.toNat
  let down := Nat.pow 10 (-place).toNat
  let below := i.value * down / (i.denominator * up)
  let above := below + 1
  let rest := 2 * (i.value * down % (i.denominator * up))
  let first := rest < i.denominator * up ∨ (rest = i.denominator * up ∧ below % 2 = 0)
  match i.holds (below * up) down, i.holds (above * up) down with
  | true, true => some (if first then below else above)
  | true, false => some below
  | false, true => some above
  | false, false => none

/-- Tries the grids of `digits`, `digits + 1`, … digits, at most `tries` of them. -/
def Interval.search (i : Interval) (point : Int) : Nat → Nat → Nat × Int
  | 0, digits => (i.value / i.denominator, point - digits)
  | tries + 1, digits =>
    match i.onGrid (point - digits) with
    | some n => if n = 0 then i.search point tries (digits + 1) else (n, point - digits)
    | none => i.search point tries (digits + 1)

/-- The digits of a positive finite float and the power of ten that the first one is a multiple of:
`(['1', '5'], 2)` is 150. -/
def digits (mantissa : Nat) (exponent : Int) : List Char × Int :=
  let i := interval mantissa exponent
  let (n, place) := i.search i.pointPosition 17 1
  let all := Nat.toDigits 10 n
  ((all.reverse.dropWhile (· == '0')).reverse, place + all.length - 1)

/-- Digits with the point where the exponent of the first one puts it. -/
def positional (digits : List Char) (exponent : Int) : List Char :=
  if exponent < 0 then
    '0' :: '.' :: List.replicate (-exponent - 1).toNat '0' ++ digits
  else
    let whole := exponent.toNat + 1
    let zeros := List.replicate (whole - digits.length) '0'
    let rest := digits.drop whole
    digits.take whole ++ zeros ++ '.' :: (if rest.isEmpty then ['0'] else rest)

/-- Digits with one digit before the point, and the exponent after an `e`. -/
def scientific (digits : List Char) (exponent : Int) : List Char :=
  let point := if digits.length ≤ 1 then [] else ['.']
  let sign := if exponent < 0 then '-' else '+'
  let power := Nat.toDigits 10 exponent.natAbs
  let padding := List.replicate (2 - power.length) '0'
  digits.take 1 ++ point ++ digits.drop 1 ++ 'e' :: sign :: padding ++ power

def text (x : Float) : String :=
  match Binary64.parts x with
  | .nan => "nan"
  | .infinite negative => if negative then "-inf" else "inf"
  | .finite negative mantissa exponent =>
    let sign := if negative then ['-'] else []
    if mantissa = 0 then String.ofList (sign ++ ['0', '.', '0'])
    else
      let (digits, first) := digits mantissa exponent
      let body :=
        if -4 ≤ first ∧ first < 16 then positional digits first else scientific digits first
      String.ofList (sign ++ body)

end ScriptLang.Shortest
