import ScriptLang.Gzip

/-!
# Compressed data

A container is read back from the stored blocks that are written, whatever its data is and whatever
bytes follow the blocks.

Results:
* `block_stored`: a stored block gives its bytes;
* `inflate_deflate`: reading a compressed stream undoes writing it;
* `decompress_compress`: reading a container undoes writing it.
-/
namespace ScriptLang.Deflate

open Gzip (ofBytes)

/-! ## Bits of bytes -/

theorem bitsOf_append (as bs : Bytes) : bitsOf (as ++ bs) = bitsOf as ++ bitsOf bs :=
  List.flatMap_append

theorem bitsOf_cons (b : UInt8) (bytes : Bytes) :
    bitsOf (b :: bytes) = byteBits b ++ bitsOf bytes :=
  List.flatMap_cons

theorem length_bitsOf (bytes : Bytes) : (bitsOf bytes).length = 8 * bytes.length := by
  induction bytes with
  | nil => rfl
  | cons b bytes ih =>
    have hbyte : (byteBits b).length = 8 := rfl
    rw [bitsOf_cons, List.length_append, List.length_cons, hbyte, ih]
    omega

theorem number_byteBits_append (b : UInt8) (bits : Bits) :
    number (byteBits b ++ bits) = b.toNat + 256 * number bits := by
  have hlt := b.toNat_lt
  simp only [byteBits, List.cons_append, List.nil_append, number, Nat.toNat_testBit]
  omega

theorem number_byteBits (b : UInt8) : number (byteBits b) = b.toNat := by
  rw [← List.append_nil (byteBits b), number_byteBits_append]
  rfl

theorem number_bitsOf (bytes : Bytes) : number (bitsOf bytes) = ofBytes bytes := by
  induction bytes with
  | nil => rfl
  | cons b bytes ih =>
    rw [bitsOf_cons, number_byteBits_append, ofBytes, ih]

theorem take_append {n : Nat} {as : Bits} (h : as.length = n) (bs : Bits) :
    take n (as ++ bs) = .ok (number as, bs) := by
  subst h
  rw [take, List.take_left, List.drop_left]
  exact if_pos rfl

theorem take_byte (b : UInt8) (bits : Bits) :
    take 8 (byteBits b ++ bits) = .ok (b.toNat, bits) := by
  have htake := take_append (show (byteBits b).length = 8 from rfl) bits
  rwa [number_byteBits] at htake

theorem ofBytes_word16 {n : Nat} (h : n < 65536) : ofBytes (word16 n) = n := by
  simp only [word16, ofBytes, UInt8.toNat_ofNat']
  omega

theorem take_word16 {n : Nat} (h : n < 65536) (bits : Bits) :
    take 16 (bitsOf (word16 n) ++ bits) = .ok (n, bits) := by
  have htake := take_append (show (bitsOf (word16 n)).length = 16 from rfl) bits
  rwa [number_bitsOf, ofBytes_word16 h] at htake

theorem aligned_bitsOf (bytes : Bytes) : aligned (bitsOf bytes) = bitsOf bytes := by
  rw [aligned, length_bitsOf, Nat.mul_mod_right, List.drop_zero]

/-! ## Stored blocks -/

theorem stored_bytes (bytes : Bytes) (out : Array UInt8) (bits : Bits) :
    stored bytes.length out (bitsOf bytes ++ bits) = .ok (out ++ bytes.toArray, bits) := by
  induction bytes generalizing out with
  | nil =>
    simp [stored, bitsOf]
  | cons b bytes ih =>
    rw [List.length_cons, stored, bitsOf_cons, List.append_assoc, take_byte]
    show stored bytes.length (out.push (UInt8.ofNat b.toNat)) (bitsOf bytes ++ bits) = _
    rw [ih, UInt8.ofNat_toNat]
    simp

/-- A stored block after the three bits of its header, which leave five to the byte boundary. -/
theorem block_stored {bytes : Bytes} (h : bytes.length ≤ maxStored) (out : Array UInt8)
    {pad : Bits} (hpad : pad.length = 5) (rest : Bytes) :
    block 0 out (pad ++ bitsOf (word16 bytes.length ++ (word16 (0xffff - bytes.length) ++
      (bytes ++ rest)))) = .ok (out ++ bytes.toArray, bitsOf rest) := by
  have hlen : bytes.length < 65536 := Nat.lt_succ_of_le h
  have haligned : ∀ more : Bytes, aligned (pad ++ bitsOf more) = bitsOf more := by
    intro more
    have hmod : (pad ++ bitsOf more).length % 8 = pad.length := by
      rw [List.length_append, length_bitsOf, hpad]
      omega
    rw [aligned, hmod, List.drop_left]
  rw [block, haligned, bitsOf_append, take_word16 hlen]
  dsimp only [bind, Except.bind]
  rw [bitsOf_append, take_word16 (by omega)]
  dsimp only
  rw [if_pos (by omega), bitsOf_append, stored_bytes]

/-! ## Streams -/

/-- The header of a stored block: its number, and the bits up to the byte boundary. -/
theorem take_header (final : Bool) (bits : Bits) :
    ∃ pad : Bits, pad.length = 5 ∧
      take 3 (byteBits (if final then 1 else 0) ++ bits) = .ok (final.toNat, pad ++ bits) := by
  refine ⟨List.replicate 5 false, rfl, ?_⟩
  have hbits : byteBits (if final then 1 else 0) ++ bits =
      [final, false, false] ++ (List.replicate 5 false ++ bits) := by
    cases final <;> rfl
  have hnumber : number [final, false, false] = final.toNat := by
    cases final <;> rfl
  rw [hbits, take_append (show [final, false, false].length = 3 from rfl), hnumber]

theorem blocks_stored (final : Bool) {bytes : Bytes} (h : bytes.length ≤ maxStored) (fuel : Nat)
    (out : Array UInt8) (rest : Bytes) :
    blocks (fuel + 1) out (bitsOf (storedBlock final bytes ++ rest)) =
      if final then .ok (out ++ bytes.toArray, bitsOf rest)
      else blocks fuel (out ++ bytes.toArray) (bitsOf rest) := by
  obtain ⟨pad, hpad, htake⟩ := take_header final (bitsOf (word16 bytes.length ++
    (word16 (0xffff - bytes.length) ++ (bytes ++ rest))))
  have hblock : storedBlock final bytes ++ rest = (if final then 1 else 0) ::
      (word16 bytes.length ++ (word16 (0xffff - bytes.length) ++ (bytes ++ rest))) := by
    rw [storedBlock, List.append_assoc, List.append_assoc]
    rfl
  rw [blocks, hblock, bitsOf_cons, htake]
  dsimp only [bind, Except.bind]
  have htype : final.toNat / 2 = 0 := by
    cases final <;> rfl
  rw [htype, block_stored h out hpad rest]
  dsimp only
  cases final with
  | true =>
    rw [aligned_bitsOf]
    rfl
  | false => rfl

theorem length_storedBlock (final : Bool) (bytes : Bytes) :
    (storedBlock final bytes).length = bytes.length + 5 := by
  rw [storedBlock, List.length_append, List.length_append, List.length_cons]
  simp only [word16, List.length_cons, List.length_nil]
  omega

/-- Every block takes a byte at least, so the number of bytes is fuel enough. -/
theorem blocks_storedBlocks {n : Nat} {bytes : Bytes} (h : bytes.length ≤ n) {fuel : Nat}
    (hf : (storedBlocks n bytes).length ≤ fuel) (out : Array UInt8) (rest : Bytes) :
    blocks fuel out (bitsOf (storedBlocks n bytes ++ rest)) =
      .ok (out ++ bytes.toArray, bitsOf rest) := by
  induction n generalizing bytes fuel out with
  | zero =>
    rw [storedBlocks, length_storedBlock] at hf
    obtain ⟨fuel, rfl⟩ : ∃ f, fuel = f + 1 := ⟨fuel - 1, by omega⟩
    rw [storedBlocks, blocks_stored true (by omega)]
    rfl
  | succ n ih =>
    by_cases hsmall : bytes.length ≤ maxStored
    · rw [storedBlocks, if_pos hsmall, length_storedBlock] at hf
      obtain ⟨fuel, rfl⟩ : ∃ f, fuel = f + 1 := ⟨fuel - 1, by omega⟩
      rw [storedBlocks, if_pos hsmall, blocks_stored true hsmall]
      rfl
    · have hmax : 0 < maxStored := by decide
      have hfirst : (bytes.take maxStored).length ≤ maxStored := List.length_take_le _ _
      have hdrop : (bytes.drop maxStored).length ≤ n := by
        rw [List.length_drop]
        omega
      rw [storedBlocks, if_neg hsmall, List.length_append, length_storedBlock] at hf
      obtain ⟨fuel, rfl⟩ : ∃ f, fuel = f + 1 := ⟨fuel - 1, by omega⟩
      rw [storedBlocks, if_neg hsmall, List.append_assoc, blocks_stored false hfirst]
      show blocks fuel (out ++ (bytes.take maxStored).toArray) _ = _
      have hjoin : (bytes.take maxStored).toArray ++ (bytes.drop maxStored).toArray =
          bytes.toArray := by
        rw [List.append_toArray, List.take_append_drop]
      rw [ih hdrop (by omega), Array.append_assoc, hjoin]

theorem inflate_deflate (bytes rest : Bytes) :
    inflate (deflate bytes ++ rest) = .ok (bytes, rest) := by
  have hfuel : (storedBlocks bytes.length bytes).length ≤
      (bitsOf (deflate bytes ++ rest)).length + 1 := by
    rw [length_bitsOf, List.length_append, deflate]
    omega
  have hblocks := blocks_storedBlocks (Nat.le_refl bytes.length) hfuel #[] rest
  have hdrop : (deflate bytes ++ rest).length - (bitsOf rest).length / 8 =
      (deflate bytes).length := by
    rw [length_bitsOf, List.length_append]
    omega
  rw [← deflate] at hblocks
  rw [inflate]
  dsimp only [bind, Except.bind]
  rw [hblocks]
  dsimp only
  rw [hdrop, List.drop_left, Array.empty_append]
  rfl

end ScriptLang.Deflate

namespace ScriptLang.Gzip

theorem ofBytes_word32 {n : Nat} (h : n < 4294967296) : ofBytes (word32 n) = n := by
  simp only [word32, ofBytes, UInt8.toNat_ofNat']
  omega

theorem take_append {n : Nat} {bytes : Bytes} (h : bytes.length = n) (rest : Bytes) :
    take n (bytes ++ rest) = .ok (bytes, rest) := by
  subst h
  rw [take, if_pos (by rw [List.length_append]; omega), List.take_left, List.drop_left]

/-- The header has no optional fields. -/
theorem skipHeader_header (rest : Bytes) : skipHeader (header ++ rest) = .ok rest := by
  have hmark : (header ++ rest).take 2 = [0x1f, 0x8b] := rfl
  have hfixed : (header ++ rest).drop 2 = [8, 0, 0, 0, 0, 0, 0, 0xff] ++ rest := rfl
  have hfields : skipFields 0 rest = .ok rest := rfl
  rw [skipHeader, if_neg (not_not_intro hmark), hfixed]
  dsimp only [bind, Except.bind]
  rw [take_append (show List.length [8, 0, 0, 0, 0, 0, 0, (0xff : UInt8)] = 8 from rfl)]
  dsimp only
  rw [if_neg (by decide)]
  exact hfields

theorem member_compress (data : Bytes) : member (compress data) = .ok (data, []) := by
  have hsum : (Checksum.crc32 data).toNat < 4294967296 := (Checksum.crc32 data).toNat_lt
  have hlen : data.length % Nat.pow 2 32 < 4294967296 := Nat.mod_lt _ (by decide)
  have hword : ∀ n, (word32 n).length = 4 := fun _ => rfl
  rw [member, compress, List.append_assoc, List.append_assoc, skipHeader_header]
  dsimp only [bind, Except.bind]
  rw [Deflate.inflate_deflate]
  dsimp only
  rw [take_append (hword _)]
  dsimp only
  rw [← List.append_nil (word32 (data.length % Nat.pow 2 32)), take_append (hword _)]
  dsimp only
  rw [ofBytes_word32 hsum, ofBytes_word32 hlen, if_neg (not_not_intro rfl),
    if_neg (not_not_intro rfl)]
  rfl

theorem decompress_compress (data : Bytes) : decompress (compress data) = .ok data := by
  have hlen : (compress data).length = (compress data).length - 1 + 1 := by
    have hpos : 0 < (compress data).length := by
      rw [compress, List.append_assoc, List.append_assoc, List.length_append]
      exact Nat.lt_add_right _ (by decide)
    omega
  have hne : (compress data).isEmpty = false := by
    rw [List.isEmpty_eq_false_iff, ne_eq, ← List.length_eq_zero_iff]
    omega
  have hend : ∀ fuel, members fuel [] = .ok [] := by
    intro fuel
    cases fuel <;> rfl
  rw [decompress, hlen, members, hne, member_compress]
  dsimp only [bind, Except.bind]
  rw [List.dropWhile_nil, hend]
  dsimp only
  rw [List.append_nil]
  rfl

end ScriptLang.Gzip
