import Mathlib.Tactic

/-! CRC-32 with the reflected polynomial 0xEDB88320, by bits as zlib documents it, and by
nibbles. A table of four bit steps of each nibble gives the same value, as the bit step is
linear. -/
namespace XnuXzs.Lib

open Function

def crcPoly : UInt32 := 0xEDB88320

def crcBit (c : UInt32) : UInt32 := (c >>> 1) ^^^ (if c &&& 1 = 1 then crcPoly else 0)

def crcByte (c : UInt32) (b : UInt8) : UInt32 := crcBit^[8] (c ^^^ b.toUInt32)

/-- The CRC of `bytes` continued from `crc`. -/
def crc32 (bytes : List UInt8) (crc : UInt32) : UInt32 := ~~~(bytes.foldl crcByte (~~~crc))

/-- One table step: shift a nibble out and fold the table word for it in. -/
def nibbleStep (table : UInt32 → UInt32) (c n : UInt32) : UInt32 :=
  (c >>> 4) ^^^ table ((c ^^^ n) &&& 0x0f)

theorem and_one_iff (c : UInt32) : c &&& 1 = 1 ↔ c.toBitVec.getLsbD 0 = true := by
  rw [← UInt32.toBitVec_inj]
  constructor
  · intro h
    have := congrArg (·.getLsbD 0) h
    simpa using this
  intro h
  refine BitVec.eq_of_getLsbD_eq fun i hi => ?_
  cases i with
  | zero => simpa using h
  | succ => simp

theorem crcBit_odd {c : UInt32} (h : c.toBitVec.getLsbD 0 = true) :
    crcBit c = c >>> 1 ^^^ crcPoly := by
  rw [crcBit, if_pos ((and_one_iff c).2 h)]

theorem crcBit_even {c : UInt32} (h : c.toBitVec.getLsbD 0 = false) : crcBit c = c >>> 1 := by
  rw [crcBit, if_neg (by rw [and_one_iff, h]; decide), UInt32.xor_zero]

theorem crcBit_xor (a b : UInt32) : crcBit (a ^^^ b) = crcBit a ^^^ crcBit b := by
  have bit : (a ^^^ b).toBitVec.getLsbD 0 = (a.toBitVec.getLsbD 0 ^^ b.toBitVec.getLsbD 0) := by
    rw [UInt32.toBitVec_xor, BitVec.getLsbD_xor]
  cases ha : a.toBitVec.getLsbD 0 <;> cases hb : b.toBitVec.getLsbD 0 <;> rw [ha, hb] at bit
  · rw [crcBit_even ha, crcBit_even hb, crcBit_even bit, UInt32.shiftRight_xor]
  · rw [crcBit_even ha, crcBit_odd hb, crcBit_odd bit, UInt32.shiftRight_xor, UInt32.xor_assoc]
  · rw [crcBit_odd ha, crcBit_even hb, crcBit_odd bit, UInt32.shiftRight_xor]
    ac_rfl
  · rw [crcBit_odd ha, crcBit_odd hb, crcBit_even bit, UInt32.shiftRight_xor, UInt32.xor_assoc,
      UInt32.xor_comm crcPoly, UInt32.xor_assoc, UInt32.xor_self, UInt32.xor_zero]

theorem crcBits_xor (n : Nat) (a b : UInt32) :
    crcBit^[n] (a ^^^ b) = crcBit^[n] a ^^^ crcBit^[n] b := by
  induction n generalizing a b with
  | zero => rfl
  | succ n ih =>
    rw [iterate_succ_apply, iterate_succ_apply, iterate_succ_apply, crcBit_xor, ih]

theorem crcBits_shift (n : Nat) (c : UInt32) (h : ∀ i < n, c.toBitVec.getLsbD i = false) :
    (crcBit^[n] c).toBitVec = c.toBitVec >>> n := by
  induction n generalizing c with
  | zero => simp
  | succ n ih =>
    have hbit : ∀ i, (c >>> 1).toBitVec.getLsbD i = c.toBitVec.getLsbD (i + 1) := by
      intro i
      simp [add_comm]
    rw [iterate_succ_apply, crcBit_even (h 0 (by omega)),
      ih (c >>> 1) fun i hi => by rw [hbit]; exact h (i + 1) (by omega)]
    refine BitVec.eq_of_getLsbD_eq fun i hi => ?_
    rw [BitVec.getLsbD_ushiftRight, BitVec.getLsbD_ushiftRight, hbit]
    congr 1
    omega

theorem getLsbD_nibbleMask (i : Nat) : (15#32).getLsbD i = decide (i < 4) := by
  by_cases hi : i < 32
  · revert i
    decide
  · rw [BitVec.getLsbD_of_ge _ _ (by omega)]
    simp
    omega

theorem getLsbD_clearNibble (c : UInt32) {i : Nat} (hi : i < 32) :
    ((c >>> 4) <<< 4).toBitVec.getLsbD i = (decide (4 ≤ i) && c.toBitVec.getLsbD i) := by
  have hfour : (4 : UInt32).toBitVec % 32 = 4#32 := by decide
  rw [UInt32.toBitVec_shiftLeft, UInt32.toBitVec_shiftRight, hfour, BitVec.shiftLeft_eq',
    BitVec.getLsbD_shiftLeft, BitVec.ushiftRight_eq', BitVec.getLsbD_ushiftRight]
  by_cases h : i < 4
  · simp [h]
  · simp [h, hi, not_lt.mp h]

theorem nibble_split (c : UInt32) : c = (c >>> 4) <<< 4 ^^^ (c &&& 0x0f) := by
  rw [← UInt32.toBitVec_inj]
  refine BitVec.eq_of_getLsbD_eq fun i hi => ?_
  rw [UInt32.toBitVec_xor, BitVec.getLsbD_xor, getLsbD_clearNibble c hi, UInt32.toBitVec_and,
    BitVec.getLsbD_and, show (0x0f : UInt32).toBitVec = 15#32 from rfl, getLsbD_nibbleMask]
  by_cases h : i < 4
  · simp [h, not_le.mpr h]
  · simp [h, not_lt.mp h]

theorem crcBits_upper (c : UInt32) : crcBit^[4] ((c >>> 4) <<< 4) = c >>> 4 := by
  rw [← UInt32.toBitVec_inj, crcBits_shift]
  · refine BitVec.eq_of_getLsbD_eq fun i hi => ?_
    have hfour : (4 : UInt32).toBitVec % 32 = 4#32 := by decide
    rw [UInt32.toBitVec_shiftRight, hfour, BitVec.ushiftRight_eq', BitVec.getLsbD_ushiftRight,
      BitVec.getLsbD_ushiftRight]
    by_cases h : 4 + i < 32
    · rw [getLsbD_clearNibble c h]
      simp
    · rw [BitVec.getLsbD_of_ge _ _ (by omega), BitVec.getLsbD_of_ge _ _ (by simp; omega)]
  · intro i hi
    rw [getLsbD_clearNibble c (by omega)]
    simp [not_le.mpr hi]

/-- Four bit steps of a word: its upper bits shift, its low nibble is stepped. -/
theorem crcBits_nibble (c : UInt32) : crcBit^[4] c = (c >>> 4) ^^^ crcBit^[4] (c &&& 0x0f) := by
  nth_rewrite 1 [nibble_split c]
  rw [crcBits_xor, crcBits_upper]

section
variable {table : UInt32 → UInt32}
  (ht : ∀ i < 16, table (UInt32.ofNat i) = crcBit^[4] (UInt32.ofNat i))
include ht

theorem nibbleStep_eq (c n : UInt32) (hn : n.toNat < 16) :
    nibbleStep table c n = crcBit^[4] (c ^^^ n) := by
  have hlt : ((c ^^^ n) &&& 0x0f).toNat < 16 := by
    rw [UInt32.toNat_and]
    exact Nat.lt_succ_of_le Nat.and_le_right
  have hidx := ht _ hlt
  rw [UInt32.ofNat_toNat] at hidx
  have hshift : n >>> 4 = 0 := by
    rw [← UInt32.toNat_inj, UInt32.toNat_shiftRight]
    exact Nat.shiftRight_eq_zero _ _ hn
  rw [nibbleStep, crcBits_nibble (c ^^^ n), UInt32.shiftRight_xor, hshift, UInt32.xor_zero, hidx]

/-- Two table steps, low nibble first, are the eight bit steps of a byte. -/
theorem nibbles_eq_crcByte (c : UInt32) (b : UInt8) :
    nibbleStep table (nibbleStep table c (b.toUInt32 &&& 0x0f)) (b.toUInt32 >>> 4) =
      crcByte c b := by
  have hlow : (b.toUInt32 &&& 0x0f).toNat < 16 := by
    rw [UInt32.toNat_and]
    exact Nat.lt_succ_of_le Nat.and_le_right
  have hhigh : (b.toUInt32 >>> 4).toNat < 16 := by
    have hb := b.toNat_lt
    have hdiv : (b.toUInt32 >>> 4).toNat = b.toNat / 2 ^ 4 := by
      rw [UInt32.toNat_shiftRight, UInt8.toNat_toUInt32]
      exact Nat.shiftRight_eq_div_pow _ _
    omega
  rw [nibbleStep_eq ht _ _ hlow, nibbleStep_eq ht _ _ hhigh, crcByte,
    show 8 = 4 + 4 from rfl, iterate_add_apply]
  nth_rewrite 3 [nibble_split b.toUInt32]
  rw [UInt32.xor_comm (_ <<< _), ← UInt32.xor_assoc, crcBits_xor 4 _ (_ <<< _), crcBits_upper]

end

end XnuXzs.Lib
