import ScriptLang.Json
import ScriptLang.Number.IntText

/-!
# Reading documents

The reader takes the whole text or none of it. Beside the standard form it takes `NaN`,
`Infinity` and `-Infinity`; of two fields of one name the last value counts. A number with neither
fraction nor exponent is an integer, and one of too many digits is a fault of its own.
-/
namespace ScriptLang.Json

inductive ReadFault where
  | malformed
  | tooManyDigits
  deriving DecidableEq, Repr

/-- A reader of some leading part of a text. -/
abbrev Reader (α : Type) := List Char → Except ReadFault (α × List Char)

def isBlank (c : Char) : Bool := c == ' ' || c == '\t' || c == '\n' || c == '\r'

def skipBlank (cs : List Char) : List Char := cs.dropWhile isBlank

/-! ## Strings -/

def hexValue? (c : Char) : Option Nat :=
  if '0' ≤ c ∧ c ≤ '9' then some (c.toNat - '0'.toNat)
  else if 'a' ≤ c ∧ c ≤ 'f' then some (c.toNat - 'a'.toNat + 10)
  else if 'A' ≤ c ∧ c ≤ 'F' then some (c.toNat - 'A'.toNat + 10)
  else none

def hex4? (a b c d : Char) : Option Nat := do
  return (((← hexValue? a) * 16 + (← hexValue? b)) * 16 + (← hexValue? c)) * 16 + (← hexValue? d)

def isHighSurrogate (n : Nat) : Bool := 0xd800 ≤ n && n < 0xdc00

def isLowSurrogate (n : Nat) : Bool := 0xdc00 ≤ n && n < 0xe000

/-- The character of a UTF-16 unit that stands alone. A surrogate, for which there is no character,
becomes U+FFFD; the reader of the host keeps it. -/
def charOfUnit (n : Nat) : Char :=
  if isHighSurrogate n || isLowSurrogate n then '\uFFFD' else Char.ofNat n

/-- The character that a letter stands for after a backslash. -/
def simpleEscape? (c : Char) : Option Char :=
  if c == '"' || c == '\\' || c == '/' then some c
  else if c == 'b' then some '\x08'
  else if c == 'f' then some '\x0c'
  else if c == 'n' then some '\n'
  else if c == 'r' then some '\r'
  else if c == 't' then some '\t'
  else none

/-- The rest of a string after its opening quote; `read` holds what was read, last first. Two
escaped surrogates in a row are one character. -/
def stringRest (read : List Char) : Reader String
  | [] => .error .malformed
  | '"' :: rest => .ok (String.ofList read.reverse, rest)
  | '\\' :: 'u' :: a :: b :: c :: d :: rest =>
    match hex4? a b c d with
    | none => .error .malformed
    | some high =>
      match isHighSurrogate high, rest with
      | true, '\\' :: 'u' :: e :: f :: g :: h :: rest' =>
        match hex4? e f g h with
        | none => .error .malformed
        | some low =>
          if isLowSurrogate low then
            let c := Char.ofNat (0x10000 + (high - 0xd800) * 0x400 + (low - 0xdc00))
            stringRest (c :: read) rest'
          else stringRest (charOfUnit high :: read) ('\\' :: 'u' :: e :: f :: g :: h :: rest')
      | _, rest => stringRest (charOfUnit high :: read) rest
  | '\\' :: c :: rest =>
    match simpleEscape? c with
    | some c => stringRest (c :: read) rest
    | none => .error .malformed
  | ['\\'] => .error .malformed
  | c :: rest => if c.toNat < 0x20 then .error .malformed else stringRest (c :: read) rest

/-! ## Numbers -/

def digitRun (cs : List Char) : List Char × List Char :=
  (cs.takeWhile IntText.isDigit, cs.dropWhile IntText.isDigit)

/-- The digits of a fraction, if one follows. -/
def fractionPart : List Char → Option (List Char × List Char)
  | '.' :: rest =>
    let (digits, rest) := digitRun rest
    if digits.isEmpty then none else some (digits, rest)
  | _ => none

/-- The value of an exponent, if one follows. -/
def exponentPart : List Char → Option (Int × List Char)
  | e :: rest =>
    if e == 'e' || e == 'E' then
      let (negative, rest) :=
        match rest with
        | '-' :: rest => (true, rest)
        | '+' :: rest => (false, rest)
        | rest => (false, rest)
      let (digits, rest) := digitRun rest
      if digits.isEmpty then none
      else some (Binary64.signed negative (IntText.ofDigits digits), rest)
    else none
  | [] => none

def unsignedNumber (negative : Bool) (cs : List Char) : Except ReadFault (Json × List Char) :=
  let (whole, rest) :=
    match cs with
    | '0' :: rest => (['0'], rest)
    | cs => digitRun cs
  if whole.isEmpty then .error .malformed
  else
    match fractionPart rest, exponentPart ((fractionPart rest).elim rest (·.2)) with
    | none, none =>
      if IntText.maxDigits < whole.length then .error .tooManyDigits
      else .ok (.int (Binary64.signed negative (IntText.ofDigits whole)), rest)
    | fraction?, exponent? =>
      let fraction := fraction?.elim [] (·.1)
      let exponent := exponent?.elim 0 (·.1)
      let digits := IntText.ofDigits (whole ++ fraction)
      .ok (.float (Binary64.ofDecimal negative digits (exponent - fraction.length)),
        exponent?.elim (fraction?.elim rest (·.2)) (·.2))

def number : Reader Json
  | '-' :: rest => unsignedNumber true rest
  | cs => unsignedNumber false cs

/-! ## Documents -/

mutual

/-- A document at the start of the text. -/
def value : Nat → Reader Json
  | 0, _ => .error .malformed
  | fuel + 1, cs =>
    match cs with
    | '"' :: rest => do
      let (s, rest) ← stringRest [] rest
      return (.str s, rest)
    | '[' :: rest =>
      match skipBlank rest with
      | ']' :: rest => .ok (.arr [], rest)
      | rest => items fuel [] rest
    | '\x7b' :: rest =>
      match skipBlank rest with
      | '\x7d' :: rest => .ok (.obj [], rest)
      | rest => members fuel [] rest
    | 'n' :: 'u' :: 'l' :: 'l' :: rest => .ok (.null, rest)
    | 't' :: 'r' :: 'u' :: 'e' :: rest => .ok (.bool true, rest)
    | 'f' :: 'a' :: 'l' :: 's' :: 'e' :: rest => .ok (.bool false, rest)
    | 'N' :: 'a' :: 'N' :: rest => .ok (.float Binary64.nan, rest)
    | 'I' :: 'n' :: 'f' :: 'i' :: 'n' :: 'i' :: 't' :: 'y' :: rest =>
      .ok (.float (Binary64.infinity false), rest)
    | '-' :: 'I' :: 'n' :: 'f' :: 'i' :: 'n' :: 'i' :: 't' :: 'y' :: rest =>
      .ok (.float (Binary64.infinity true), rest)
    | cs => number cs

/-- The items of a list from one of them on; `read` holds those before, last first. -/
def items : Nat → List Json → Reader Json
  | 0, _, _ => .error .malformed
  | fuel + 1, read, cs => do
    let (item, rest) ← value fuel cs
    match skipBlank rest with
    | ',' :: rest => items fuel (item :: read) (skipBlank rest)
    | ']' :: rest => return (.arr (item :: read).reverse, rest)
    | _ => .error .malformed

/-- The fields of an object from one of them on; `read` holds those before. -/
def members : Nat → List (String × Json) → Reader Json
  | 0, _, _ => .error .malformed
  | fuel + 1, read, cs =>
    match cs with
    | '"' :: rest => do
      let (name, rest) ← stringRest [] rest
      match skipBlank rest with
      | ':' :: rest =>
        let (item, rest) ← value fuel (skipBlank rest)
        let read := Entries.set read name item
        match skipBlank rest with
        | ',' :: rest => members fuel read (skipBlank rest)
        | '\x7d' :: rest => return (.obj read, rest)
        | _ => .error .malformed
      | _ => .error .malformed
    | _ => .error .malformed

end

/-- The document that a text is. A nesting level takes two units of fuel and at least one
character, so the fuel lasts. A byte order mark at the start is not part of the form. -/
def ofChars (cs : List Char) : Except ReadFault Json := do
  if cs.head? == some '\uFEFF' then throw .malformed
  let (j, rest) ← value (2 * cs.length + 2) (skipBlank cs)
  if (skipBlank rest).isEmpty then return j else throw .malformed

/-- The document that a text is (`json.loads`). -/
def ofText (text : String) : Except ReadFault Json := ofChars text.toList

end ScriptLang.Json
