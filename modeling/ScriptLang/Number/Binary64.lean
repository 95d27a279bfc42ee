/-!
# Binary64 numbers

Floating-point numbers seen as sign, mantissa and exponent, their exact values as dyadic
fractions, and the rounding of an exact quotient to the nearest of them, ties to the even
mantissa. Integers, quotients of integers and decimal numerals all become floats through
`ofQuotient?`, so each of them is rounded once and correctly.
-/
namespace ScriptLang.Binary64

/-! ## Taking a float apart -/

/-- What a float stands for: `finite s m e` is `± m * 2 ^ e`, negative iff `s`. -/
inductive Parts where
  | nan
  | infinite (negative : Bool)
  | finite (negative : Bool) (mantissa : Nat) (exponent : Int)
  deriving DecidableEq, Repr

/-- The parts of a bit pattern: one sign bit, eleven exponent bits, 52 fraction bits. -/
def Parts.ofBits (bits : Nat) : Parts :=
  let negative := decide (bits / Nat.pow 2 63 % 2 = 1)
  let field : Nat := bits / Nat.pow 2 52 % 2048
  let fraction : Nat := bits % Nat.pow 2 52
  if field = 2047 then
    if fraction = 0 then .infinite negative else .nan
  else if field = 0 then .finite negative fraction (-1074)
  else .finite negative (Nat.pow 2 52 + fraction) ((field : Int) - 1075)

def parts (x : Float) : Parts := Parts.ofBits x.toBits.toNat

/-- The integer `± n`, negative iff `negative`. -/
def signed (negative : Bool) (n : Nat) : Int := if negative then -(n : Int) else n

/-! ## Exact values -/

/-- The real numbers that floats and integers stand for, with the two infinities and NaN. -/
inductive Exact where
  | nan
  | negativeInfinity
  | finite (value : Dyadic)
  | positiveInfinity
  deriving DecidableEq

def Parts.exact : Parts → Exact
  | .nan => .nan
  | .infinite negative => if negative then .negativeInfinity else .positiveInfinity
  | .finite negative mantissa exponent =>
    .finite (.ofIntWithPrec (signed negative mantissa) (-exponent))

def exact (x : Float) : Exact := (parts x).exact

def Exact.ofInt (n : Int) : Exact := .finite (.ofInt n)

/-- Equality of values as numbers: NaN differs from everything. -/
def Exact.equal : Exact → Exact → Bool
  | .nan, _ => false
  | _, .nan => false
  | a, b => decide (a = b)

/-- Strict order of values as numbers: NaN is comparable with nothing. -/
def Exact.less : Exact → Exact → Bool
  | .nan, _ => false
  | _, .nan => false
  | .negativeInfinity, b => decide (b ≠ .negativeInfinity)
  | .positiveInfinity, _ => false
  | .finite _, .negativeInfinity => false
  | .finite _, .positiveInfinity => true
  | .finite a, .finite b => decide (a < b)

/-! ## Rounding -/

/-- The exponent of the highest power of two that is at most `num / den`, for positive `num` and
`den`. -/
def floorLog2 (num den : Nat) : Int :=
  let guess : Int := (num.log2 : Int) - den.log2
  let fits :=
    if 0 ≤ guess then den * Nat.pow 2 guess.toNat ≤ num
    else den ≤ num * Nat.pow 2 (-guess).toNat
  if fits then guess else guess - 1

/-- The integer nearest to `num / den`, the even one of two that are equally near. -/
def roundHalfEven (num den : Nat) : Nat :=
  let whole := num / den
  let rest := num % den
  if den < 2 * rest ∨ (den = 2 * rest ∧ whole % 2 = 1) then whole + 1 else whole

/-- The bit pattern of the float nearest to `num / den`; from `overflowBits` on it is no finite
float. A mantissa that rounds up to the next power of two carries into the exponent. -/
def roundedBits (num den : Nat) : Nat :=
  if num = 0 then 0
  else
    let unit := max (floorLog2 num den - 52) (-1074)
    let mantissa :=
      if 0 ≤ unit then roundHalfEven num (den * Nat.pow 2 unit.toNat)
      else roundHalfEven (num * Nat.pow 2 (-unit).toNat) den
    (unit + 1074).toNat * Nat.pow 2 52 + mantissa

/-- The bit pattern of infinity. -/
def overflowBits : Nat := 2047 * Nat.pow 2 52

/-- The float with the given sign and the given pattern of the other bits. -/
def ofMagnitude (negative : Bool) (bits : Nat) : Float :=
  .ofBits (UInt64.ofNat (if negative then Nat.pow 2 63 + bits else bits))

def infinity (negative : Bool) : Float := ofMagnitude negative overflowBits

def nan : Float := .ofBits 0x7ff8000000000000

/-- The float nearest to `± num / den`, unless that is beyond the finite floats. -/
def ofQuotient? (negative : Bool) (num den : Nat) : Option Float :=
  let bits := roundedBits num den
  if bits < overflowBits then some (ofMagnitude negative bits) else none

/-- The float nearest to an integer, unless that is beyond the finite floats. -/
def ofInt? (n : Int) : Option Float := ofQuotient? (n < 0) n.natAbs 1

/-- The float nearest to the quotient of two integers, unless that is beyond the finite floats.
Its sign is that of the two operands also where it is zero. -/
def ofRatio? (a b : Int) : Option Float :=
  ofQuotient? (decide (a < 0) != decide (b < 0)) a.natAbs b.natAbs

/-- The float nearest to `± digits * 10 ^ exponent`, infinity beyond the finite floats. Exponents
far outside the range are settled by the number of digits. -/
def ofDecimal (negative : Bool) (digits : Nat) (exponent : Int) : Float :=
  let size : Int := exponent + (Nat.toDigits 10 digits).length
  if digits = 0 ∨ size < -400 then ofMagnitude negative 0
  else if 400 < size then infinity negative
  else
    let float? :=
      if 0 ≤ exponent then ofQuotient? negative (digits * Nat.pow 10 exponent.toNat) 1
      else ofQuotient? negative digits (Nat.pow 10 (-exponent).toNat)
    float?.getD (infinity negative)

/-- The integer that a float stands for, if it stands for one. -/
def toInt? (x : Float) : Option Int :=
  match parts x with
  | .finite negative mantissa exponent =>
    if 0 ≤ exponent then some (signed negative (mantissa * Nat.pow 2 exponent.toNat))
    else
      let scale := Nat.pow 2 (-exponent).toNat
      if mantissa % scale = 0 then some (signed negative (mantissa / scale)) else none
  | _ => none

end ScriptLang.Binary64
