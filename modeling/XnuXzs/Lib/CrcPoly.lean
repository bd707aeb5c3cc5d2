import Mathlib.Algebra.CharP.Two
import Mathlib.Algebra.Polynomial.Div
import Mathlib.Data.ZMod.Basic
import XnuXzs.Lib.Crc32

/-!
# CRC-32 as a remainder of polynomials

A word is a polynomial over the integers modulo 2 with its lowest bit highest. The register
after a message is the remainder of the shifted message, the first register in front.
-/

namespace XnuXzs.Lib

open Polynomial List

/-- The bits `0`, …, `n - 1`, the first of them with the highest power. -/
noncomputable def bitsPoly (n : Nat) (bits : Nat → Bool) : (ZMod 2)[X] :=
  ∑ k ∈ Finset.range n, if bits (n - 1 - k) = true then X ^ k else 0

noncomputable def wordPoly (c : UInt32) : (ZMod 2)[X] := bitsPoly 32 c.toBitVec.getLsbD

noncomputable def bytePoly (b : UInt8) : (ZMod 2)[X] := bitsPoly 8 b.toBitVec.getLsbD

/-- The message, its first bit with the highest power. -/
noncomputable def messagePoly (bytes : List UInt8) : (ZMod 2)[X] :=
  bytes.foldl (fun p b => X ^ 8 * p + bytePoly b) 0

/-- The generator: its powers below 32 are the reflected constant. -/
noncomputable def generator : (ZMod 2)[X] := X ^ 32 + wordPoly crcPoly

variable {n : Nat} {bits bits' : Nat → Bool}

theorem coeff_bitsPoly (k : Nat) :
    (bitsPoly n bits).coeff k = if k < n ∧ bits (n - 1 - k) = true then 1 else 0 := by
  have hterm : ∀ j, (if bits (n - 1 - j) = true then (X : (ZMod 2)[X]) ^ j else 0).coeff k =
      if j = k then (if bits (n - 1 - k) = true then 1 else 0) else 0 := by
    intro j
    by_cases hjk : j = k
    · subst hjk
      split <;> simp
    rw [if_neg hjk]
    split
    · rw [coeff_X_pow, if_neg (Ne.symm hjk)]
    · exact coeff_zero k
  rw [bitsPoly, finsetSum_coeff, Finset.sum_congr rfl fun j _ => hterm j, Finset.sum_ite_eq']
  simp [ite_and]

theorem degree_bitsPoly_lt (n : Nat) (bits : Nat → Bool) : (bitsPoly n bits).degree < n := by
  rw [degree_lt_iff_coeff_zero]
  intro k hk
  rw [coeff_bitsPoly, if_neg]
  omega

theorem bitsPoly_xor : bitsPoly n (fun k => bits k ^^ bits' k) =
    bitsPoly n bits + bitsPoly n bits' := by
  ext k
  rw [coeff_add, coeff_bitsPoly, coeff_bitsPoly, coeff_bitsPoly]
  by_cases hk : k < n
  · cases bits (n - 1 - k) <;> cases bits' (n - 1 - k) <;> simp only [hk, true_and] <;> decide
  · simp [hk]

theorem wordPoly_xor (a b : UInt32) : wordPoly (a ^^^ b) = wordPoly a + wordPoly b := by
  rw [wordPoly, wordPoly, wordPoly, ← bitsPoly_xor]
  congr 1
  funext k
  rw [UInt32.toBitVec_xor, BitVec.getLsbD_xor]

theorem wordPoly_zero : wordPoly 0 = 0 := by
  ext k
  simp [wordPoly, coeff_bitsPoly]

theorem degree_wordPoly_lt (c : UInt32) : (wordPoly c).degree < 32 := degree_bitsPoly_lt 32 _

theorem generator_monic : generator.Monic := monic_X_pow_add (degree_wordPoly_lt crcPoly)

theorem generator_degree : generator.degree = 32 := by
  rw [generator, degree_add_eq_left_of_degree_lt, degree_X_pow]
  · rfl
  · rw [degree_X_pow]
    exact degree_wordPoly_lt crcPoly

/-- What is shifted out comes back as the power 32. -/
theorem X_mul_wordPoly (c : UInt32) :
    X * wordPoly c = wordPoly (c >>> 1) + if c.toBitVec.getLsbD 0 = true then X ^ 32 else 0 := by
  have hbit : ∀ k, (c >>> 1).toBitVec.getLsbD k = c.toBitVec.getLsbD (k + 1) := by
    intro k
    simp [add_comm]
  have hout : ∀ k, (if c.toBitVec.getLsbD 0 = true then (X : (ZMod 2)[X]) ^ 32 else 0).coeff k =
      if k = 32 ∧ c.toBitVec.getLsbD 0 = true then 1 else 0 := by
    intro k
    split
    · next h => simp [coeff_X_pow, h]
    · next h => rw [coeff_zero, if_neg fun hk => h hk.2]
  ext k
  rw [coeff_add, hout, wordPoly, wordPoly, coeff_bitsPoly, hbit]
  cases k with
  | zero =>
    rw [coeff_X_mul_zero, BitVec.getLsbD_of_ge _ _ (by decide)]
    simp
  | succ k =>
    rw [coeff_X_mul, coeff_bitsPoly]
    by_cases hlast : k = 31
    · subst hlast
      simp
    by_cases hk : k < 31
    · have hidx : 32 - 1 - (k + 1) + 1 = 32 - 1 - k := by omega
      have hnext : k + 1 < 32 := by omega
      rw [hidx]
      simp [hnext, hk.trans (by decide : 31 < 32), hlast]
    · rw [if_neg (by omega), if_neg (by omega), if_neg (by omega), add_zero]

theorem wordPoly_crcBit (c : UInt32) :
    wordPoly (crcBit c) = wordPoly (c >>> 1) + if c.toBitVec.getLsbD 0 = true then wordPoly crcPoly
      else 0 := by
  cases h : c.toBitVec.getLsbD 0 with
  | true => rw [crcBit_odd h, wordPoly_xor, if_pos rfl]
  | false =>
    rw [crcBit_even h, if_neg (by decide), add_zero]

/-- A bit step is the product with `X`, up to a multiple of the generator. -/
theorem X_mul_crcBit (c : UInt32) : generator ∣ X * wordPoly c - wordPoly (crcBit c) := by
  rw [X_mul_wordPoly, wordPoly_crcBit, add_sub_add_left_eq_sub]
  split
  · rw [CharTwo.sub_eq_add]
    exact dvd_refl generator
  · rw [sub_zero]
    exact dvd_zero generator

theorem X_pow_mul_crcBits (n : Nat) (c : UInt32) :
    generator ∣ X ^ n * wordPoly c - wordPoly (crcBit^[n] c) := by
  induction n generalizing c with
  | zero => simp
  | succ n ih =>
    have hsplit : X ^ (n + 1) * wordPoly c - wordPoly (crcBit^[n] (crcBit c)) =
        X ^ n * (X * wordPoly c - wordPoly (crcBit c)) +
          (X ^ n * wordPoly (crcBit c) - wordPoly (crcBit^[n] (crcBit c))) := by ring
    rw [Function.iterate_succ_apply, hsplit]
    exact dvd_add (dvd_mul_of_dvd_right (X_mul_crcBit c) _) (ih (crcBit c))

theorem wordPoly_byte (b : UInt8) : wordPoly b.toUInt32 = X ^ 24 * bytePoly b := by
  have hbits : b.toUInt32.toBitVec = b.toBitVec.setWidth 32 := rfl
  ext k
  rw [wordPoly, bytePoly, coeff_bitsPoly, coeff_X_pow_mul', coeff_bitsPoly, hbits]
  by_cases hk : 24 ≤ k
  · by_cases hlt : k < 32
    · have hidx : 32 - 1 - k = 8 - 1 - (k - 24) := by omega
      have hbyte : k - 24 < 8 := by omega
      have hword : 8 - 1 - (k - 24) < 32 := by omega
      rw [if_pos hk, hidx, BitVec.getLsbD_setWidth]
      simp [hlt, hbyte, hword]
    · rw [if_pos hk, if_neg fun h => hlt h.1, if_neg (by omega)]
  · rw [if_neg hk, BitVec.getLsbD_setWidth, BitVec.getLsbD_of_ge b.toBitVec _ (by omega)]
    simp

theorem messagePoly_cons (b : UInt8) (bytes : List UInt8) :
    messagePoly (b :: bytes) = X ^ (8 * bytes.length) * bytePoly b + messagePoly bytes := by
  have hfold : ∀ p, bytes.foldl (fun p b => X ^ 8 * p + bytePoly b) p =
      X ^ (8 * bytes.length) * p + messagePoly bytes := by
    rw [messagePoly]
    induction bytes with
    | nil => simp
    | cons a bytes ih =>
      intro p
      rw [foldl_cons, foldl_cons, ih, ih (X ^ 8 * 0 + bytePoly a), length_cons]
      ring
  rw [messagePoly, foldl_cons, hfold]
  ring

theorem foldl_crcByte (bytes : List UInt8) (c : UInt32) :
    generator ∣ X ^ (8 * bytes.length) * wordPoly c + X ^ 32 * messagePoly bytes -
      wordPoly (bytes.foldl crcByte c) := by
  induction bytes generalizing c with
  | nil => simp [messagePoly]
  | cons b bytes ih =>
    have hbyte := X_pow_mul_crcBits 8 (c ^^^ b.toUInt32)
    rw [wordPoly_xor, wordPoly_byte] at hbyte
    have hsplit : X ^ (8 * (b :: bytes).length) * wordPoly c + X ^ 32 * messagePoly (b :: bytes) -
        wordPoly (bytes.foldl crcByte (crcByte c b)) =
        X ^ (8 * bytes.length) *
          (X ^ 8 * (wordPoly c + X ^ 24 * bytePoly b) - wordPoly (crcByte c b)) +
          (X ^ (8 * bytes.length) * wordPoly (crcByte c b) + X ^ 32 * messagePoly bytes -
            wordPoly (bytes.foldl crcByte (crcByte c b))) := by
      rw [messagePoly_cons, length_cons]
      ring
    rw [foldl_cons, hsplit]
    exact dvd_add (dvd_mul_of_dvd_right hbyte _) (ih (crcByte c b))

theorem wordPoly_not (c : UInt32) : wordPoly (~~~c) = wordPoly 0xffffffff + wordPoly c := by
  have hones : (0xffffffff : UInt32).toBitVec = BitVec.allOnes 32 := by decide
  have hnot : ~~~c = 0xffffffff ^^^ c := by
    rw [← UInt32.toBitVec_inj, UInt32.toBitVec_not, UInt32.toBitVec_xor, hones, BitVec.allOnes_xor]
  rw [hnot]
  exact wordPoly_xor 0xffffffff c

/-- The CRC continued from `crc`: the remainder of the message with the complement of `crc` in
front, complemented. -/
theorem wordPoly_crc32 (bytes : List UInt8) (crc : UInt32) :
    wordPoly (crc32 bytes crc) = wordPoly 0xffffffff +
      (X ^ (8 * bytes.length) * (wordPoly 0xffffffff + wordPoly crc) + X ^ 32 * messagePoly bytes)
        %ₘ
        generator := by
  obtain ⟨q, hq⟩ := foldl_crcByte bytes (~~~crc)
  have hdegree : (wordPoly (bytes.foldl crcByte (~~~crc))).degree < generator.degree := by
    rw [generator_degree]
    exact degree_wordPoly_lt _
  have hdiv := (sub_eq_iff_eq_add'.mp hq).symm
  have hrem := (div_modByMonic_unique q _ generator_monic ⟨hdiv, hdegree⟩).2
  rw [wordPoly_not crc] at hrem
  rw [crc32, wordPoly_not, hrem]

end XnuXzs.Lib
