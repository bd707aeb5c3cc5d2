import XnuXzs.Lib.CrcPoly
import XnuXzs.Xzsfs.Mount

/-!
# The checksums of the boot shim and of the kernel

`shim_crc32` takes single bits, `xzsfs_crc32` half bytes from a table. Both are the remainder of
the message by the generator of CRC-32, reflected.
-/

namespace XnuXzs.Bootshim

open Lib Xzsfs

/-- The inner loop body of `shim_crc32`. -/
def shimCrcBit (crc : UInt32) : UInt32 := (crc >>> 1) ^^^ (0xedb88320 &&& (0 - (crc &&& 1)))

def shimCrcByte (crc : UInt32) (byte : UInt8) : UInt32 := shimCrcBit^[8] (crc ^^^ byte.toUInt32)

def shimCrc32 (buf : List UInt8) : UInt32 := ~~~(buf.foldl shimCrcByte 0xffffffff)

theorem shimCrcBit_eq (crc : UInt32) : shimCrcBit crc = crcBit crc := by
  have hmask : (0 : UInt32) - 1 = -1 := by decide
  rw [shimCrcBit, crcBit, crcPoly]
  congr 1
  by_cases hodd : crc &&& 1 = 1
  · rw [if_pos hodd, hodd, hmask, UInt32.and_neg_one]
  have heven : crc &&& 1 = 0 := by
    rw [← UInt32.toNat_inj] at hodd ⊢
    rw [UInt32.toNat_and] at hodd ⊢
    exact (Nat.and_one_is_mod crc.toNat ▸ Nat.mod_two_eq_zero_or_one crc.toNat).resolve_right hodd
  rw [if_neg hodd, heven, UInt32.sub_self, UInt32.and_zero]

theorem shimCrc32_eq (buf : List UInt8) : shimCrc32 buf = crc32 buf 0 := by
  have hbit := funext shimCrcBit_eq
  have hbyte : shimCrcByte = crcByte := by
    funext crc byte
    rw [shimCrcByte, hbit, crcByte]
  rw [shimCrc32, hbyte, crc32]
  rfl

/-- What is chained is one checksum. -/
theorem crc32_append (a b : List UInt8) (crc : UInt32) :
    crc32 (a ++ b) crc = crc32 b (crc32 a crc) := by
  rw [crc32, crc32, crc32, List.foldl_append, UInt32.not_not]

/-- The reflected CRC-32: the remainder of the message, shifted by 32 and with 32 ones in front,
complemented. -/
def IsCrc32 (crc : UInt32) (bytes : List UInt8) : Prop :=
  wordPoly crc = wordPoly 0xffffffff +
    (Polynomial.X ^ (8 * bytes.length) * wordPoly 0xffffffff +
      Polynomial.X ^ 32 * messagePoly bytes) %ₘ
      generator

theorem crc32_isCrc32 (bytes : List UInt8) : IsCrc32 (crc32 bytes 0) bytes := by
  have h := wordPoly_crc32 bytes 0
  rwa [wordPoly_zero, add_zero] at h

theorem crcs_agree (a b : List UInt8) (crc : UInt32) :
    xzsfsCrc32 (xzsfsCrc32 crc a) b = xzsfsCrc32 crc (a ++ b) ∧ xzsfsCrc32 0 a = shimCrc32 a ∧
      IsCrc32 (xzsfsCrc32 0 a) a ∧ IsCrc32 (shimCrc32 a) a := by
  rw [xzsfsCrc32_eq, xzsfsCrc32_eq, xzsfsCrc32_eq, xzsfsCrc32_eq, shimCrc32_eq, crc32_append]
  exact ⟨rfl, rfl, crc32_isCrc32 a, crc32_isCrc32 a⟩

end XnuXzs.Bootshim
