import OpusFleet.Library.Crc
import OpusFleet.Server.Muxing

namespace OpusFleet.Server.OggOpus

open Python Library Polynomial

/-- `x³²` apart, the coefficients of Ogg's polynomial. -/
def oggPolynomial : BitVec 32 := 0x04C11DB7#32

def octetBits (b : UInt8) : List Bool := (List.range 8).map b.toBitVec.getMsbD

theorem crcRound_toNat (r : BitVec 32) : crcRound r.toNat = (Crc.shift oggPolynomial r).toNat := by
  have hmask (n : ℕ) : n &&& 0xFFFFFFFF = n % 2 ^ 32 := Nat.and_two_pow_sub_one_eq_mod n 32
  have htop : (r.toNat &&& 0x80000000 ≠ 0) ↔ r.msb = true := by
    rw [show (0x80000000 : ℕ) = 2 ^ 31 from rfl, Nat.and_two_pow, BitVec.msb_eq_getLsbD_last]
    change _ ↔ r.toNat.testBit 31 = true
    cases r.toNat.testBit 31 <;> decide
  rw [crcRound, Crc.shift, hmask, hmask]
  by_cases h : r.msb = true
  · rw [if_pos (htop.mpr h), if_pos h, BitVec.toNat_xor, BitVec.toNat_shiftLeft,
      Nat.xor_mod_two_pow]
    rfl
  · rw [if_neg (mt htop.mp h), if_neg h, BitVec.toNat_xor, BitVec.toNat_shiftLeft]
    exact (Nat.xor_zero _).symm

theorem crcRound_iterate (k : ℕ) (r : BitVec 32) :
    crcRound^[k] r.toNat = ((Crc.shift oggPolynomial)^[k] r).toNat := by
  induction k with
  | zero => rfl
  | succ k ih =>
    rw [Function.iterate_succ_apply', Function.iterate_succ_apply', ih, crcRound_toNat]

theorem makeCrcTable_getD (i : BitVec 32) (hi : i.toNat < 256) :
    makeCrcTable.getD i.toNat 0 = ((Crc.shift oggPolynomial)^[8] (i <<< 24)).toNat := by
  have hplace : i.toNat <<< 24 = (i <<< 24).toNat := by
    rw [BitVec.toNat_shiftLeft, Nat.shiftLeft_eq]
    omega
  rw [makeCrcTable, List.getD_eq_getElem?_getD, List.getElem?_map, List.getElem?_range hi,
    Option.map_some, Option.getD_some, hplace, crcRound_iterate]

theorem update_toNat (r : BitVec 32) (b : UInt8) :
    ((r.toNat <<< 8) &&& 0xFFFFFFFF) ^^^ makeCrcTable.getD
      (((r.toNat >>> 24) &&& 0xFF) ^^^ b.toNat) 0 =
      ((octetBits b).foldl (Crc.feed oggPolynomial) r).toNat := by
  have hmask (n : ℕ) : n &&& 0xFFFFFFFF = n % 2 ^ 32 := Nat.and_two_pow_sub_one_eq_mod n 32
  have htop : (r.toNat >>> 24) &&& 0xFF = r.toNat >>> 24 := by
    have hr := r.isLt
    rw [show (0xFF : ℕ) = 2 ^ 8 - 1 from rfl, Nat.and_two_pow_sub_one_eq_mod,
      Nat.shiftRight_eq_div_pow]
    omega
  have hindex : (r.toNat >>> 24) ^^^ b.toNat = ((r >>> 24) ^^^ b.toBitVec.setWidth 32).toNat := by
    rw [BitVec.toNat_xor, BitVec.toNat_ushiftRight, BitVec.toNat_setWidth, UInt8.toNat_toBitVec,
      Nat.mod_eq_of_lt (b.toNat_lt.trans (by decide))]
  have hbound : ((r >>> 24) ^^^ b.toBitVec.setWidth 32).toNat < 2 ^ 8 := by
    rw [← hindex]
    refine Nat.xor_lt_two_pow ?_ b.toNat_lt
    rw [Nat.shiftRight_eq_div_pow]
    have hr := r.isLt
    omega
  rw [hmask, htop, hindex, makeCrcTable_getD _ hbound, octetBits,
    Crc.feed_table oggPolynomial (by decide), BitVec.toNat_xor, BitVec.toNat_shiftLeft]

theorem oggCrc32_eq_bitwise (data : Bytes) :
    oggCrc32 data = (Crc.bitwise oggPolynomial (data.flatMap octetBits)).toNat := by
  induction data using List.reverseRecOn with
  | nil => rfl
  | append_singleton data b ih =>
    rw [oggCrc32, List.foldl_concat, ← oggCrc32, ih, update_toNat, List.flatMap_append,
      List.flatMap_singleton, Crc.bitwise, Crc.bitwise, List.foldl_append]

/-- The table is the bit-by-bit remainder of the message times `x³²`, and no register
along the way outgrows 32 bits. -/
theorem oggCrc32_remainder (data : Bytes) :
    oggCrc32 data = (Crc.bitwise oggPolynomial (data.flatMap octetBits)).toNat ∧
      Crc.poly (BitVec.ofNat 32 (oggCrc32 data)) =
        (Crc.message (data.flatMap octetBits) * X ^ 32) %ₘ Crc.generator oggPolynomial ∧
      ∀ k, oggCrc32 (data.take k) < 2 ^ 32 := by
  refine ⟨oggCrc32_eq_bitwise data, ?_, fun k ↦ oggCrc32_lt _⟩
  rw [oggCrc32_eq_bitwise, BitVec.ofNat_toNat, BitVec.setWidth_eq, Crc.poly_bitwise]

end OpusFleet.Server.OggOpus
