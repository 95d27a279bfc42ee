import ScriptLang.Text.Utf8

/-!
# The deflate format

Compressed data as a sequence of bits, the low bit of each byte first. `inflate` reads any stream of
stored, fixed and dynamic blocks and gives the data with the bits after the last block; a stream
that breaks a rule is invalid as soon as the bits that break it are there, and truncated if it ends
before. `deflate` writes stored blocks.
-/
namespace ScriptLang.Deflate

/-- Why bits are no compressed stream. -/
inductive Fault where
  | truncated
  | invalid
  deriving DecidableEq, Repr

/-! ## Bits -/

/-- A sequence of bits, the next one first. -/
abbrev Bits := List Bool

def byteBits (b : UInt8) : Bits :=
  [b.toNat.testBit 0, b.toNat.testBit 1, b.toNat.testBit 2, b.toNat.testBit 3,
    b.toNat.testBit 4, b.toNat.testBit 5, b.toNat.testBit 6, b.toNat.testBit 7]

def bitsOf (bytes : Bytes) : Bits := bytes.flatMap byteBits

def number : Bits → Nat
  | [] => 0
  | b :: bits => b.toNat + 2 * number bits

/-- Takes a number of `n` bits off the front. -/
def take (n : Nat) (bits : Bits) : Except Fault (Nat × Bits) :=
  let first := bits.take n
  if first.length = n then .ok (number first, bits.drop n) else .error .truncated

/-- The bits from the next byte boundary on: a stream has whole bytes. -/
def aligned (bits : Bits) : Bits := bits.drop (bits.length % 8)

/-! ## Prefix codes -/

/-- A prefix code: the numbers of code words of each length from one bit on, and the symbols in the
order of their code words. -/
structure Code where
  counts : List Nat
  symbols : Array Nat
  deriving Repr

namespace Code

/-- The code in which symbol `i` has a word of `lengths[i]` bits, none for zero. A code without
words still takes a bit to find that there is none. -/
def ofLengths (lengths : List Nat) : Code :=
  let longest := max 1 (lengths.foldl max 0)
  let sizes := (List.range longest).map (· + 1)
  let indexed := lengths.zipIdx
  { counts := sizes.map fun n => lengths.count n
    symbols := (sizes.flatMap fun n => (indexed.filter (·.1 == n)).map (·.2)).toArray }

/-- The number of code words of the longest length that are not in use, none if the lengths need
more words than there are. -/
def unused? (counts : List Nat) : Option Nat :=
  let step (left : Option Nat) (count : Nat) : Option Nat :=
    left.bind fun n => if 2 * n < count then none else some (2 * n - count)
  counts.foldl step (some 1)

/-- The code of some lengths, unless they need more words than there are or leave words out. A code
of no word or of one word of one bit may be incomplete, unless it has to be `strict`. -/
def ofLengths? (strict : Bool) (lengths : List Nat) : Option Code :=
  let code := ofLengths lengths
  if lengths.all (· == 0) then some code
  else
    match unused? code.counts with
    | none => none
    | some 0 => some code
    | some _ => if !strict && code.counts.length == 1 then some code else none

/-- Reads a symbol: among the words of a length, those from `first` on are in use, and their symbols
start at `index`. -/
def readFrom (symbols : Array Nat) : List Nat → Nat → Nat → Nat → Bits → Except Fault (Nat × Bits)
  | [], _, _, _, _ => .error .invalid
  | _ :: _, _, _, _, [] => .error .truncated
  | count :: counts, word, first, index, b :: bits =>
    let word := word + b.toNat
    if word < first + count then
      match symbols[index + (word - first)]? with
      | some symbol => .ok (symbol, bits)
      | none => .error .invalid
    else readFrom symbols counts (2 * word) (2 * (first + count)) (index + count) bits

def read (code : Code) (bits : Bits) : Except Fault (Nat × Bits) :=
  readFrom code.symbols code.counts 0 0 0 bits

end Code

/-! ## The symbols of compressed blocks -/

/-- The least length and the number of extra bits of each length symbol, from 257 on. -/
def lengthTable : Array (Nat × Nat) := #[
  (3, 0), (4, 0), (5, 0), (6, 0), (7, 0), (8, 0), (9, 0), (10, 0), (11, 1), (13, 1), (15, 1),
  (17, 1), (19, 2), (23, 2), (27, 2), (31, 2), (35, 3), (43, 3), (51, 3), (59, 3), (67, 4),
  (83, 4), (99, 4), (115, 4), (131, 5), (163, 5), (195, 5), (227, 5), (258, 0)]

/-- The least distance and the number of extra bits of each distance symbol. -/
def distanceTable : Array (Nat × Nat) := #[
  (1, 0), (2, 0), (3, 0), (4, 0), (5, 1), (7, 1), (9, 2), (13, 2), (17, 3), (25, 3), (33, 4),
  (49, 4), (65, 5), (97, 5), (129, 6), (193, 6), (257, 7), (385, 7), (513, 8), (769, 8),
  (1025, 9), (1537, 9), (2049, 10), (3073, 10), (4097, 11), (6145, 11), (8193, 12), (12289, 12),
  (16385, 13), (24577, 13)]

/-- Reads the number that a symbol of one of the tables stands for. -/
def readExtra (table : Array (Nat × Nat)) (symbol : Nat) (bits : Bits) :
    Except Fault (Nat × Bits) :=
  match table[symbol]? with
  | none => .error .invalid
  | some (base, extra) => do
    let (more, bits) ← take extra bits
    return (base + more, bits)

def copyBack (distance : Nat) : Nat → Array UInt8 → Array UInt8
  | 0, out => out
  | length + 1, out => copyBack distance length (out.push (out.getD (out.size - distance) 0))

/-- The symbols of a block up to its end. Every symbol takes a bit at least, so the number of bits
is fuel enough. -/
def symbols (literals distances : Code) :
    Nat → Array UInt8 → Bits → Except Fault (Array UInt8 × Bits)
  | 0, _, _ => .error .truncated
  | fuel + 1, out, bits => do
    let (symbol, bits) ← literals.read bits
    if symbol < 256 then symbols literals distances fuel (out.push (UInt8.ofNat symbol)) bits
    else if symbol = 256 then return (out, bits)
    else
      let (length, bits) ← readExtra lengthTable (symbol - 257) bits
      let (symbol, bits) ← distances.read bits
      let (distance, bits) ← readExtra distanceTable symbol bits
      if out.size < distance then throw .invalid
      else symbols literals distances fuel (copyBack distance length out) bits

/-! ## Blocks -/

def fixedLiterals : Code :=
  .ofLengths (List.replicate 144 8 ++ List.replicate 112 9 ++ List.replicate 24 7
    ++ List.replicate 8 8)

def fixedDistances : Code := .ofLengths (List.replicate 32 5)

/-- The order in which the lengths of the code of code lengths are written. -/
def lengthOrder : List Nat := [16, 17, 18, 0, 8, 7, 9, 6, 10, 5, 11, 4, 12, 3, 13, 2, 14, 1, 15]

def readTriples : Nat → Bits → Except Fault (List Nat × Bits)
  | 0, bits => .ok ([], bits)
  | n + 1, bits => do
    let (first, bits) ← take 3 bits
    let (rest, bits) ← readTriples n bits
    return (first :: rest, bits)

/-- Reads code lengths until there are `total`; `read` holds those before, last first. A symbol
below 16 is a length, the others repeat the last one or zero. -/
def readLengths (code : Code) (total : Nat) :
    Nat → List Nat → Bits → Except Fault (List Nat × Bits)
  | 0, _, _ => .error .truncated
  | fuel + 1, read, bits =>
    if total ≤ read.length then .ok (read.reverse, bits)
    else do
      let (symbol, bits) ← code.read bits
      if symbol < 16 then readLengths code total fuel (symbol :: read) bits
      else
        let (base, extra) := if symbol = 16 then (3, 2) else if symbol = 17 then (3, 3) else (11, 7)
        let (more, bits) ← take extra bits
        let repeated? := if symbol = 16 then read.head? else some 0
        match repeated? with
        | none => throw .invalid
        | some repeated =>
          if total < read.length + (base + more) then throw .invalid
          else
            let read := List.replicate (base + more) repeated ++ read
            readLengths code total fuel read bits

def readCodes (bits : Bits) : Except Fault (Code × Code × Bits) := do
  let (literalCount, bits) ← take 5 bits
  let (distanceCount, bits) ← take 5 bits
  let (lengthCount, bits) ← take 4 bits
  let literalCount := literalCount + 257
  let distanceCount := distanceCount + 1
  if 286 < literalCount || 30 < distanceCount then throw .invalid
  let (written, bits) ← readTriples (lengthCount + 4) bits
  let order := lengthOrder.zip written
  let lengths := (List.range 19).map fun i => (order.lookup i).getD 0
  let lengthCode ←
    if lengths.all (· == 0) then pure ⟨[2], #[0, 0]⟩
    else
      match Code.ofLengths? true lengths with
      | some code => pure code
      | none => throw .invalid
  let total := literalCount + distanceCount
  let (all, bits) ← readLengths lengthCode total (bits.length + 1) [] bits
  if all.getD 256 0 = 0 then throw .invalid
  let code? (lengths : List Nat) : Option Code := Code.ofLengths? false lengths
  match code? (all.take literalCount), code? (all.drop literalCount) with
  | some literals, some distances => return (literals, distances, bits)
  | _, _ => throw .invalid

def stored : Nat → Array UInt8 → Bits → Except Fault (Array UInt8 × Bits)
  | 0, out, bits => .ok (out, bits)
  | n + 1, out, bits => do
    let (b, bits) ← take 8 bits
    stored n (out.push (UInt8.ofNat b)) bits

def block (type : Nat) (out : Array UInt8) (bits : Bits) : Except Fault (Array UInt8 × Bits) :=
  match type with
  | 0 => do
    let (length, bits) ← take 16 (aligned bits)
    let (complement, bits) ← take 16 bits
    if length + complement = 0xffff then stored length out bits else throw .invalid
  | 1 => symbols fixedLiterals fixedDistances (bits.length + 1) out bits
  | 2 => do
    let (literals, distances, bits) ← readCodes bits
    symbols literals distances (bits.length + 1) out bits
  | _ => .error .invalid

def blocks : Nat → Array UInt8 → Bits → Except Fault (Array UInt8 × Bits)
  | 0, _, _ => .error .truncated
  | fuel + 1, out, bits => do
    let (header, bits) ← take 3 bits
    let (out, bits) ← block (header / 2) out bits
    if header % 2 = 1 then return (out, aligned bits) else blocks fuel out bits

/-- The data of a compressed stream, and the bytes after it. -/
def inflate (bytes : Bytes) : Except Fault (Bytes × Bytes) := do
  let bits := bitsOf bytes
  let (out, rest) ← blocks (bits.length + 1) #[] bits
  return (out.toList, bytes.drop (bytes.length - rest.length / 8))

/-! ## Writing -/

def word16 (n : Nat) : Bytes := [UInt8.ofNat (n % 256), UInt8.ofNat (n / 256 % 256)]

def storedBlock (final : Bool) (bytes : Bytes) : Bytes :=
  (if final then 1 else 0) :: word16 bytes.length ++ word16 (0xffff - bytes.length) ++ bytes

def maxStored : Nat := 0xffff

/-- Stored blocks, the last one of which is final; one unit of fuel is one block. -/
def storedBlocks : Nat → Bytes → Bytes
  | 0, bytes => storedBlock true bytes
  | fuel + 1, bytes =>
    if bytes.length ≤ maxStored then storedBlock true bytes
    else storedBlock false (bytes.take maxStored) ++ storedBlocks fuel (bytes.drop maxStored)

/-- A compressed stream of the data. -/
def deflate (bytes : Bytes) : Bytes := storedBlocks bytes.length bytes

end ScriptLang.Deflate
