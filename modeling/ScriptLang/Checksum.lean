import ScriptLang.Text.Utf8

/-!
# The checksum of compressed data

The cyclic redundancy check of 32 bits that ends a compressed member, bit by bit, lowest bit first.
-/
namespace ScriptLang.Checksum

/-- Takes `n` bits off the low end of the register. -/
def steps : Nat → UInt32 → UInt32
  | 0, r => r
  | n + 1, r => steps n (if r &&& 1 = 1 then (r >>> 1) ^^^ 0xedb88320 else r >>> 1)

/-- The register after one more byte. -/
def update (r : UInt32) (b : UInt8) : UInt32 := steps 8 (r ^^^ b.toUInt32)

def crc32 (bytes : Bytes) : UInt32 := bytes.foldl update 0xffffffff ^^^ 0xffffffff

end ScriptLang.Checksum
