import ScriptLang.Checksum
import ScriptLang.Deflate

/-!
# The gzip container

Compressed data in members, each with a header, a deflate stream, and the checksum and length of its
data. Reading takes any number of members, with zero bytes after each; optional header fields are
passed over. No bytes at all are no members and hold no data.
-/
namespace ScriptLang.Gzip

/-- Why bytes are no container. -/
inductive Fault where
  /-- A wrong mark, method, checksum or length. -/
  | badMember
  | truncated
  | badStream
  deriving DecidableEq, Repr

/-! ## Numbers of several bytes -/

def word32 (n : Nat) : Bytes :=
  [UInt8.ofNat (n % 256), UInt8.ofNat (n / 256 % 256), UInt8.ofNat (n / 65536 % 256),
    UInt8.ofNat (n / 16777216 % 256)]

def ofBytes : Bytes → Nat
  | [] => 0
  | b :: bytes => b.toNat + 256 * ofBytes bytes

def take (n : Nat) (bytes : Bytes) : Except Fault (Bytes × Bytes) :=
  if n ≤ bytes.length then .ok (bytes.take n, bytes.drop n) else .error .truncated

/-! ## Reading -/

/-- What follows a text that ends with a zero byte; such a text may also end with the data. -/
def skipText (bytes : Bytes) : Bytes := (bytes.dropWhile (· != 0)).drop 1

def checkedFlag : Nat := 2
def extraFlag : Nat := 4
def nameFlag : Nat := 8
def commentFlag : Nat := 16

def hasFlag (flags flag : Nat) : Bool := flags / flag % 2 == 1

/-- What follows the optional fields of a header. -/
def skipFields (flags : Nat) (bytes : Bytes) : Except Fault Bytes := do
  let bytes ←
    if hasFlag flags extraFlag then
      let (length, bytes) ← take 2 bytes
      let (_, bytes) ← take (ofBytes length) bytes
      pure bytes
    else pure bytes
  let bytes := if hasFlag flags nameFlag then skipText bytes else bytes
  let bytes := if hasFlag flags commentFlag then skipText bytes else bytes
  if hasFlag flags checkedFlag then
    let (_, bytes) ← take 2 bytes
    return bytes
  else return bytes

/-- What follows the header of a member. -/
def skipHeader (bytes : Bytes) : Except Fault Bytes := do
  if bytes.take 2 ≠ [0x1f, 0x8b] then throw .badMember
  let (fixed, bytes) ← take 8 (bytes.drop 2)
  if fixed.head? ≠ some 8 then throw .badMember
  skipFields (ofBytes (fixed.drop 1 |>.take 1)) bytes

def member (bytes : Bytes) : Except Fault (Bytes × Bytes) := do
  let stream ← skipHeader bytes
  match Deflate.inflate stream with
  | .error .truncated => throw .truncated
  | .error .invalid => throw .badStream
  | .ok (data, bytes) =>
    let (checksum, bytes) ← take 4 bytes
    let (length, bytes) ← take 4 bytes
    if ofBytes checksum ≠ (Checksum.crc32 data).toNat then throw .badMember
    if ofBytes length ≠ data.length % Nat.pow 2 32 then throw .badMember
    return (data, bytes)

/-- The data of all members. Each of them takes a byte at least, so the number of bytes is fuel
enough. -/
def members : Nat → Bytes → Except Fault Bytes
  | 0, _ => .ok []
  | fuel + 1, bytes =>
    if bytes.isEmpty then .ok []
    else do
      let (data, bytes) ← member bytes
      return data ++ (← members fuel (bytes.dropWhile (· == 0)))

def decompress (bytes : Bytes) : Except Fault Bytes := members bytes.length bytes

/-! ## Writing -/

/-- The header of a member without optional fields and without a time. -/
def header : Bytes := [0x1f, 0x8b, 8, 0, 0, 0, 0, 0, 0, 0xff]

/-- A container of one member with the data. -/
def compress (data : Bytes) : Bytes :=
  header ++ Deflate.deflate data ++ word32 (Checksum.crc32 data).toNat
    ++ word32 (data.length % Nat.pow 2 32)

end ScriptLang.Gzip
