import XnuXzs.Xzsfs.Core

/-!
# Loading the object table and the string table

`xzsfs_core_load_metadata`, with every copy recorded. The trip count of the object loop comes
from `string_table_offset`, the clamp from `object_table_size`; past `GapFits` it subtracts
below zero.
-/

namespace XnuXzs.Xzsfs

open XnuXzs.Lib

/-- The bytes at a sector buffer. Only the first 512 belong to it. -/
abbrev Sector := Nat → UInt8

/-- `xzsfs_block_read_fn` with `count = 1`, by sector number. One load reads no sector twice, so
a stateful callback answers as a function. -/
abbrev BlockRead := Nat → Except Err Sector

/-- One `memcpy` into a buffer: byte index from its base, and length. -/
structure Copy where
  dst : Nat
  len : Nat
  deriving DecidableEq, Repr

/-- A destination buffer with the copies made into it, newest first. -/
structure Buf where
  byte : Nat → UInt8
  copies : List Copy

def Buf.copy (b : Buf) (dst len : Nat) (src : Nat → UInt8) : Buf where
  byte i := if dst ≤ i ∧ i < dst + len then src (i - dst) else b.byte i
  copies := ⟨dst, len⟩ :: b.copies

/-- `obj_sec_count`: the whole gap between the tables in sectors, cut to 32 bits. -/
def objSecCount (sb : Superblock) : Nat :=
  (sb.stringTableOffset - sb.objectTableOffset).toNat / 512 % 2 ^ 32

/-- `copied` and the clamped `to_copy` of sector `s`. The product is 32-bit, the
difference 64-bit. -/
def objCopy (sb : Superblock) (s : Nat) : Copy :=
  let copied := 512 * s % 2 ^ 32
  let size := sb.objectTableSize.toNat
  ⟨copied, if copied + 512 > size then (2 ^ 64 + size - copied) % 2 ^ 64 else 512⟩

/-- Takes `n` sectors from sector `s` of `lba` on in turn; the first that can not be read ends
the loop. -/
def sectorLoop (rd : BlockRead) (lba : Nat) (take : Nat → Sector → Buf → Buf)
    (fail : Nat → Buf → Buf) : Nat → Nat → Buf → Except Err Unit × Buf
  | 0, _, buf => (.ok (), buf)
  | n + 1, s, buf =>
    match rd (lba + s) with
    | .error e => (.error e, fail s buf)
    | .ok sec => sectorLoop rd lba take fail n (s + 1) (take s sec buf)

/-- The loop of `xzsfs_core_load_objects`, `n` sectors from sector `s` on. -/
def loadObjectsLoop (rd : BlockRead) (sb : Superblock) : Nat → Nat → Buf → Except Err Unit × Buf :=
  sectorLoop rd (sb.objectTableOffset.toNat / 512)
    (fun s sec buf =>
      let c := objCopy sb s
      if c.len > 0 then buf.copy c.dst c.len sec else buf)
    fun _ buf => buf

def loadObjects (rd : BlockRead) (sb : Superblock) (objects : Buf) (max : Nat) :
    Except Err Unit × Buf :=
  if sb.objectCount.toNat > max then (.error .inval, objects)
  else loadObjectsLoop rd sb (objSecCount sb) 0 objects

/-- The loop of `xzsfs_core_load_strtab`. The callback fills the buffer in place, so its 512
bytes count as stored even when it fails. -/
def loadStrtabLoop (rd : BlockRead) (sb : Superblock) : Nat → Nat → Buf → Except Err Unit × Buf :=
  sectorLoop rd (sb.stringTableOffset.toNat / 512)
    (fun s sec buf => buf.copy (512 * s % 2 ^ 32) 512 sec)
    fun s buf => { buf with copies := ⟨512 * s % 2 ^ 32, 512⟩ :: buf.copies }

def loadStrtab (rd : BlockRead) (sb : Superblock) (strtab : Buf) (max : Nat) :
    Except Err Unit × Buf :=
  if sb.stringTableSize.toNat > max then (.error .inval, strtab)
  else loadStrtabLoop rd sb (sb.stringTableSize.toNat / 512 % 2 ^ 32) 0 strtab

structure Loaded where
  result : Except Err Unit
  objects : Buf
  strtab : Buf

def loadMetadata (rd : BlockRead) (sb : Superblock) (objects : Buf) (maxObj : Nat)
    (strtab : Buf) (maxStr : Nat) : Loaded :=
  match loadObjects rd sb objects maxObj with
  | (.error e, objects) => ⟨.error e, objects, strtab⟩
  | (.ok (), objects) =>
    let r := loadStrtab rd sb strtab maxStr
    ⟨r.1, objects, r.2⟩

/-- The call in `xzsfs_mount`, into stack arrays that hold anything at first. -/
def mountLoad (rd : BlockRead) (sb : Superblock) (objects strtab : Nat → UInt8) : Loaded :=
  loadMetadata rd sb ⟨objects, []⟩ maxObjects ⟨strtab, []⟩ maxStrtabSize

/-- The image byte at a byte offset, when the callback reads its sector. -/
def imageByte (rd : BlockRead) (p : Nat) : Option UInt8 :=
  match rd (p / 512) with
  | .ok sec => some (sec (p % 512))
  | .error _ => none

def HoldsImage (rd : BlockRead) (off n : Nat) (b : Buf) : Prop :=
  ∀ i, i < n → imageByte rd (off + i) = some (b.byte i)

/-- Every copy is at most a sector long and inside the first `n` bytes. -/
def CopiesWithin (n : Nat) (b : Buf) : Prop :=
  ∀ c ∈ b.copies, c.len ≤ 512 ∧ c.dst + c.len ≤ n

/-- A load that stores only inside the two tables and, when it succeeds, has
read them. -/
def LoadSafe (rd : BlockRead) (sb : Superblock) (objects strtab : Nat → UInt8) : Prop :=
  let r := mountLoad rd sb objects strtab
  CopiesWithin (64 * sb.objectCount.toNat) r.objects ∧
  CopiesWithin sb.stringTableSize.toNat r.strtab ∧
  (r.result = .ok () →
    HoldsImage rd sb.objectTableOffset.toNat (64 * sb.objectCount.toNat) r.objects ∧
    HoldsImage rd sb.stringTableOffset.toNat sb.stringTableSize.toNat r.strtab)

/-- The callback fails on one of the `n` sectors from `lba` on. -/
def FailsWithin (rd : BlockRead) (lba n : Nat) : Prop :=
  ∃ s e, s < n ∧ rd (lba + s) = .error e

/-- The first sector index at which `copied` is past the object table. -/
def overrunSector (sb : Superblock) : Nat := 64 * sb.objectCount.toNat / 512 + 1

/-- The sectors of the loop cover the table and end at most one sector past it,
or the callback fails before the loop does harm. -/
def GapFits (rd : BlockRead) (sb : Superblock) : Prop :=
  let size := 64 * sb.objectCount.toNat
  let read := 512 * objSecCount sb
  size ≤ read ∧ read ≤ size + 512 ∨
  size + 512 < read ∧ FailsWithin rd 1 (overrunSector sb + 1) ∨
  read < size ∧ (FailsWithin rd 1 (objSecCount sb) ∨
    FailsWithin rd (sb.stringTableOffset.toNat / 512) (sb.stringTableSize.toNat / 512))

section
variable {rd : BlockRead} {sb : Superblock} {i s : Nat}

theorem objCopy_inside (hv : ValidSuperblock sb) (hs : 512 * s ≤ 64 * sb.objectCount.toNat) :
    objCopy sb s = ⟨512 * s, min 512 (64 * sb.objectCount.toNat - 512 * s)⟩ := by
  have hle := hv.count_le
  have hmod : 512 * s % 2 ^ 32 = 512 * s := Nat.mod_eq_of_lt (by omega)
  simp only [objCopy, hmod, hv.objectTableSize, Copy.mk.injEq, true_and]
  split <;> omega

/-- One sector past the table, `object_table_size - copied` is below zero. -/
theorem objCopy_past (hv : ValidSuperblock sb)
    (hlo : 64 * sb.objectCount.toNat < 512 * s) (hhi : 512 * s ≤ 64 * sb.objectCount.toNat + 512) :
    512 < (objCopy sb s).len := by
  have hle := hv.count_le
  have hmod : 512 * s % 2 ^ 32 = 512 * s := Nat.mod_eq_of_lt (by omega)
  have hclamp : 512 * s + 512 > 64 * sb.objectCount.toNat := by omega
  simp only [objCopy, hmod, hv.objectTableSize, hclamp, if_true]
  omega

theorem failsWithin_succ (lba n : Nat) :
    FailsWithin rd lba (n + 1) ↔ (∃ e, rd lba = .error e) ∨ FailsWithin rd (lba + 1) n := by
  constructor
  · rintro ⟨s, e, hs, he⟩
    cases s with
    | zero => exact .inl ⟨e, he⟩
    | succ s => exact .inr ⟨s, e, by omega, by rw [← he]; congr 1; omega⟩
  · rintro (⟨e, he⟩ | ⟨s, e, hs, he⟩)
    · exact ⟨0, e, by omega, he⟩
    · exact ⟨s + 1, e, by omega, by rw [← he]; congr 1; omega⟩

theorem FailsWithin.mono {lba n m : Nat} (hf : FailsWithin rd lba n) (hle : n ≤ m) :
    FailsWithin rd lba m := by
  obtain ⟨s, e, hs, he⟩ := hf
  exact ⟨s, e, hs.trans_le hle, he⟩

theorem not_failsWithin_zero (lba : Nat) : ¬ FailsWithin rd lba 0 := by
  rintro ⟨s, _, hs, _⟩
  omega

variable {lba n : Nat} {take : Nat → Sector → Buf → Buf} {fail : Nat → Buf → Buf} {buf : Buf}
  {p : Buf → Prop}

theorem sectorLoop_ok :
    (sectorLoop rd lba take fail n s buf).1 = .ok () ↔ ¬ FailsWithin rd (lba + s) n := by
  induction n generalizing s buf with
  | zero => simp [sectorLoop, not_failsWithin_zero]
  | succ n ih =>
    rw [failsWithin_succ]
    simp only [sectorLoop]
    cases h : rd (lba + s) with
    | error => simp
    | ok => simp [ih, add_assoc]

/-- What `fail` and each `take` that the loop comes to keep holds at its end. -/
theorem sectorLoop_keeps (hbuf : p buf)
    (htake : ∀ j sec b, s ≤ j → j < s + n → ¬ FailsWithin rd (lba + s) (j + 1 - s) →
      p b → p (take j sec b))
    (hfail : ∀ j b, s ≤ j → j < s + n → p b → p (fail j b)) :
    p (sectorLoop rd lba take fail n s buf).2 := by
  induction n generalizing s buf with
  | zero => exact hbuf
  | succ n ih =>
    simp only [sectorLoop]
    cases hr : rd (lba + s) with
    | error => exact hfail s buf le_rfl (by omega) hbuf
    | ok sec =>
      have hread : ∀ e, rd (lba + s) ≠ .error e := by simp [hr]
      have hone : ¬ FailsWithin rd (lba + s) (s + 1 - s) := by
        rw [Nat.add_sub_cancel_left, failsWithin_succ]
        exact not_or.mpr ⟨not_exists.mpr hread, not_failsWithin_zero _⟩
      refine ih (htake s sec buf le_rfl (by omega) hone hbuf) (fun j sec' b hj hlt hf => ?_)
        fun j b hj hlt => hfail j b (by omega) (by omega)
      refine htake j sec' b (by omega) (by omega) ?_
      rw [show j + 1 - s = j + 1 - (s + 1) + 1 by omega, failsWithin_succ]
      exact not_or.mpr ⟨not_exists.mpr hread, hf⟩

/-- What the `take` of one sector brings about and the later ones keep holds at the end, if the
loop comes to that sector. -/
theorem sectorLoop_reaches (j : Nat) (hs : s ≤ j) (hj : j < s + n)
    (hread : ¬ FailsWithin rd (lba + s) (j + 1 - s))
    (hnow : ∀ sec b, rd (lba + j) = .ok sec → p (take j sec b))
    (htake : ∀ k sec b, j < k → k < s + n → p b → p (take k sec b))
    (hfail : ∀ k b, j < k → k < s + n → p b → p (fail k b)) :
    p (sectorLoop rd lba take fail n s buf).2 := by
  induction n generalizing s buf with
  | zero => omega
  | succ n ih =>
    rw [show j + 1 - s = j - s + 1 by omega, failsWithin_succ, not_or] at hread
    have hend : s + 1 + n = s + (n + 1) := by omega
    simp only [sectorLoop]
    cases hr : rd (lba + s) with
    | error e => exact absurd ⟨e, hr⟩ hread.1
    | ok sec =>
      rcases Nat.eq_or_lt_of_le hs with rfl | hlt
      · exact sectorLoop_keeps (hnow sec buf hr) (fun k sec' b hk hkn _ =>
          htake k sec' b hk (hend ▸ hkn))
          fun k b hk hkn => hfail k b hk (hend ▸ hkn)
      · refine ih hlt (by omega) ?_ (hend ▸ htake) (hend ▸ hfail)
        rw [show j + 1 - (s + 1) = j - s by omega]
        exact hread.2

theorem CopiesWithin.copy {n dst len : Nat} {b : Buf} (hb : CopiesWithin n b) (hlen : len ≤ 512)
    (hend : dst + len ≤ n) (src : Nat → UInt8) : CopiesWithin n (b.copy dst len src) := by
  intro c hc
  rcases List.mem_cons.mp hc with rfl | hc
  · exact ⟨hlen, hend⟩
  · exact hb c hc

theorem copiesWithin_nil (n : Nat) (byte : Nat → UInt8) : CopiesWithin n ⟨byte, []⟩ := by
  intro c hc
  cases hc

/-- All copies are inside if the loop comes to no sector past the table. -/
theorem loadObjectsLoop_within (hv : ValidSuperblock sb) (n : Nat) (byte : Nat → UInt8)
    (hn : ∀ j < n, ¬ FailsWithin rd 1 (j + 1) → 512 * j ≤ 64 * sb.objectCount.toNat) :
    CopiesWithin (64 * sb.objectCount.toNat) (loadObjectsLoop rd sb n 0 ⟨byte, []⟩).2 := by
  refine sectorLoop_keeps (copiesWithin_nil _ byte) (fun j sec b _ hj hf hb => ?_) fun _ _ _ _ => id
  rw [hv.objectTableOffset] at hf
  have hin := hn j (by omega) hf
  rw [objCopy_inside hv hin]
  simp only
  split
  · exact hb.copy (by omega) (by omega) sec
  · exact hb

/-- The loop changes no byte past its sectors. -/
theorem loadObjectsLoop_frame (hv : ValidSuperblock sb) (n : Nat) (buf : Buf)
    (hn : 512 * n ≤ 64 * sb.objectCount.toNat + 512) (hi : 512 * n ≤ i) :
    (loadObjectsLoop rd sb n 0 buf).2.byte i = buf.byte i := by
  refine sectorLoop_keeps (p := fun b => b.byte i = buf.byte i) rfl
    (fun j sec b _ hj _ hb => ?_) fun _ _ _ _ => id
  have hout : ¬ (512 * j ≤ i ∧ i < 512 * j + min 512 (64 * sb.objectCount.toNat - 512 * j)) := by
    omega
  rw [objCopy_inside hv (by omega)]
  simp only
  split
  · simp [Buf.copy, hout, hb]
  · exact hb

theorem loadObjectsLoop_bytes (hv : ValidSuperblock sb) (n : Nat) (buf : Buf)
    (hn : 512 * n ≤ 64 * sb.objectCount.toNat + 512) (hread : ¬ FailsWithin rd 1 n)
    (hi : i < 64 * sb.objectCount.toNat) (hhi : i < 512 * n) :
    imageByte rd (512 + i) = some ((loadObjectsLoop rd sb n 0 buf).2.byte i) := by
  have hoff := hv.objectTableOffset
  have hone : sb.objectTableOffset.toNat / 512 = 1 := by rw [hoff]
  refine sectorLoop_reaches (p := fun b => imageByte rd (512 + i) = some (b.byte i)) (i / 512)
    (Nat.zero_le _) (by omega) ?_ (fun sec b hr => ?_) (fun k sec b hk hkn hb => ?_) fun _ _ _ _ =>
      id
  · rw [hone]
    exact fun hf => hread (hf.mono (by omega))
  · have hlen : min 512 (64 * sb.objectCount.toNat - 512 * (i / 512)) > 0 := by omega
    have hin : 512 * (i / 512) ≤ i ∧
        i < 512 * (i / 512) + min 512 (64 * sb.objectCount.toNat - 512 * (i / 512)) := by omega
    have hsec : (512 + i) / 512 = sb.objectTableOffset.toNat / 512 + i / 512 := by omega
    have hpos : (512 + i) % 512 = i - 512 * (i / 512) := by omega
    rw [objCopy_inside hv (by omega)]
    simp [imageByte, hsec, hpos, hr, hlen, Buf.copy, hin]
  · have hout : ¬ (512 * k ≤ i ∧
        i < 512 * k + min 512 (64 * sb.objectCount.toNat - 512 * k)) := by omega
    rw [objCopy_inside hv (by omega)]
    simp only
    split
    · simp [Buf.copy, hout, hb]
    · exact hb

/-- A load that reaches the sector past the table makes a copy longer than a sector. -/
theorem loadObjectsLoop_overrun (hv : ValidSuperblock sb) (n : Nat) (buf : Buf)
    (hn : overrunSector sb < n) (hread : ¬ FailsWithin rd 1 (overrunSector sb + 1)) :
    ∃ c ∈ (loadObjectsLoop rd sb n 0 buf).2.copies, 512 < c.len := by
  have hone : sb.objectTableOffset.toNat / 512 = 1 := by rw [hv.objectTableOffset]
  have hpast : 512 < (objCopy sb (overrunSector sb)).len := by
    apply objCopy_past hv <;> simp only [overrunSector] <;> omega
  have hlen : (objCopy sb (overrunSector sb)).len > 0 := by omega
  refine sectorLoop_reaches (p := fun b => ∃ c ∈ b.copies, 512 < c.len) (overrunSector sb)
    (Nat.zero_le _) (by omega) (by rw [hone]; exact hread) (fun sec b _ => ?_)
    (fun k sec b _ _ hb => ?_) fun _ _ _ _ => id
  · simp only [hlen, if_true]
    exact ⟨_, List.mem_cons_self, hpast⟩
  · obtain ⟨c, hc, hlong⟩ := hb
    refine ⟨c, ?_, hlong⟩
    simp only
    split
    · exact List.mem_cons_of_mem _ hc
    · exact hc

theorem loadStrtabLoop_within (size : Nat) (hsize : size ≤ 2048) (n : Nat) (byte : Nat → UInt8)
    (hn : 512 * n ≤ size) : CopiesWithin size (loadStrtabLoop rd sb n 0 ⟨byte, []⟩).2 := by
  have hmod : ∀ j < 0 + n, 512 * j % 2 ^ 32 = 512 * j := fun j hj => Nat.mod_eq_of_lt (by omega)
  refine sectorLoop_keeps (copiesWithin_nil _ byte) (fun j sec b _ hj _ hb => ?_)
    fun j b _ hj hb => ?_
  · exact hb.copy le_rfl (by rw [hmod j hj]; omega) sec
  · exact hb.copy le_rfl (by rw [hmod j hj]; omega) fun _ => 0

theorem loadStrtabLoop_bytes (ha : sb.stringTableOffset.toNat % 512 = 0) (n : Nat) (buf : Buf)
    (hn : n ≤ 4) (hread : ¬ FailsWithin rd (sb.stringTableOffset.toNat / 512) n)
    (hhi : i < 512 * n) : imageByte rd (sb.stringTableOffset.toNat + i) =
      some ((loadStrtabLoop rd sb n 0 buf).2.byte i) := by
  have hmod : ∀ j < 0 + n, 512 * j % 2 ^ 32 = 512 * j := fun j hj => Nat.mod_eq_of_lt (by omega)
  refine sectorLoop_reaches
    (p := fun b => imageByte rd (sb.stringTableOffset.toNat + i) = some (b.byte i)) (i / 512)
    (Nat.zero_le _) (by omega) (fun hf => hread (hf.mono (by omega))) (fun sec b hr => ?_)
    (fun k sec b hk hkn hb => ?_) fun _ _ _ _ => id
  · have hin : 512 * (i / 512) ≤ i ∧ i < 512 * (i / 512) + 512 := by omega
    have hsec : (sb.stringTableOffset.toNat + i) / 512 =
        sb.stringTableOffset.toNat / 512 + i / 512 := by omega
    have hpos : (sb.stringTableOffset.toNat + i) % 512 = i - 512 * (i / 512) := by omega
    rw [hmod _ (by omega)]
    simp [imageByte, hsec, hpos, hr, Buf.copy, hin]
  · have hout : ¬ (512 * k ≤ i ∧ i < 512 * k + 512) := by omega
    rw [hmod k hkn]
    simp [Buf.copy, hout, hb]

theorem mountLoad_objects (hv : ValidSuperblock sb) (objects strtab : Nat → UInt8) :
    (mountLoad rd sb objects strtab).objects =
      (loadObjectsLoop rd sb (objSecCount sb) 0 ⟨objects, []⟩).2 := by
  have hcount : ¬ sb.objectCount.toNat > maxObjects := not_lt.mpr hv.count_le
  simp only [mountLoad, loadMetadata, loadObjects, hcount, if_false]
  rcases loadObjectsLoop rd sb (objSecCount sb) 0 ⟨objects, []⟩ with ⟨_ | _, _⟩ <;> rfl

/-- The string buffer is untouched, or it went through the whole string loop. -/
theorem mountLoad_strtab (rd : BlockRead) (hv : ValidSuperblock sb) (objects strtab : Nat → UInt8) :
    let r := mountLoad rd sb objects strtab
    let s := loadStrtabLoop rd sb (sb.stringTableSize.toNat / 512) 0 ⟨strtab, []⟩
    r.strtab = ⟨strtab, []⟩ ∧ r.result ≠ .ok () ∧ FailsWithin rd 1 (objSecCount sb) ∨
    r.strtab = s.2 ∧ r.result = s.1 ∧ ¬ FailsWithin rd 1 (objSecCount sb) := by
  have hcount : ¬ sb.objectCount.toNat > maxObjects := not_lt.mpr hv.count_le
  have hsize : ¬ sb.stringTableSize.toNat > maxStrtabSize := not_lt.mpr hv.stringTableSize_le
  have hmod : sb.stringTableSize.toNat / 512 % 2 ^ 32 = sb.stringTableSize.toNat / 512 :=
    Nat.mod_eq_of_lt (by have := hv.stringTableSize_le; omega)
  have hobj : (loadObjectsLoop rd sb (objSecCount sb) 0 ⟨objects, []⟩).1 = .ok () ↔ _ :=
    sectorLoop_ok
  rw [hv.objectTableOffset] at hobj
  simp only [mountLoad, loadMetadata, loadObjects, hcount, loadStrtab, hsize, hmod, if_false]
  rcases hl : loadObjectsLoop rd sb (objSecCount sb) 0 ⟨objects, []⟩ with ⟨_ | _, _⟩
  · rw [hl] at hobj
    exact .inl ⟨rfl, by simp, by_contra fun h => by simpa using hobj.mpr h⟩
  · rw [hl] at hobj
    exact .inr ⟨rfl, rfl, hobj.mp rfl⟩

variable (objects strtab : Nat → UInt8)

theorem mountLoad_strtab_within (hv : ValidSuperblock sb) :
    CopiesWithin sb.stringTableSize.toNat (mountLoad rd sb objects strtab).strtab := by
  obtain ⟨he, -, -⟩ | ⟨he, -, -⟩ := mountLoad_strtab rd hv objects strtab
  · rw [he]
    exact copiesWithin_nil _ strtab
  · rw [he]
    exact loadStrtabLoop_within _ hv.stringTableSize_le _ strtab (by omega)

theorem mountLoad_ok (hv : ValidSuperblock sb) :
    (mountLoad rd sb objects strtab).result = .ok () ↔ ¬ FailsWithin rd 1 (objSecCount sb) ∧
      ¬ FailsWithin rd (sb.stringTableOffset.toNat / 512) (sb.stringTableSize.toNat / 512) := by
  obtain ⟨-, hr, hf⟩ | ⟨-, hr, hf⟩ := mountLoad_strtab rd hv objects strtab
  · exact ⟨fun h => absurd h hr, fun h => absurd hf h.1⟩
  · rw [hr, loadStrtabLoop, sectorLoop_ok]
    exact ⟨fun h => ⟨hf, h⟩, fun h => h.2⟩

theorem mountLoad_strtab_holds (hv : ValidSuperblock sb)
    (hok : (mountLoad rd sb objects strtab).result = .ok ()) :
    HoldsImage rd sb.stringTableOffset.toNat sb.stringTableSize.toNat
      (mountLoad rd sb objects strtab).strtab := by
  obtain ⟨-, hr, -⟩ | ⟨he, -, -⟩ := mountLoad_strtab rd hv objects strtab
  · exact absurd hok hr
  have hle := hv.stringTableSize_le
  have ha := hv.stringTableSize_aligned
  intro i hi
  rw [he]
  exact loadStrtabLoop_bytes hv.stringTable_aligned _ _ (by omega)
    ((mountLoad_ok objects strtab hv).mp hok).2 (by omega)

/-- Where the loop comes to no sector past the table, all copies are inside. -/
theorem mountLoad_objects_within (hv : ValidSuperblock sb)
    (hread : ∀ j < objSecCount sb, ¬ FailsWithin rd 1 (j + 1) →
      512 * j ≤ 64 * sb.objectCount.toNat) :
    CopiesWithin (64 * sb.objectCount.toNat) (mountLoad rd sb objects strtab).objects := by
  rw [mountLoad_objects hv]
  exact loadObjectsLoop_within hv _ objects hread

/-- Where the sectors cover the table and end at most one past it, a load that succeeds has
read it. -/
theorem mountLoad_objects_holds (hv : ValidSuperblock sb)
    (hcover : 64 * sb.objectCount.toNat ≤ 512 * objSecCount sb)
    (hfit : 512 * objSecCount sb ≤ 64 * sb.objectCount.toNat + 512)
    (hok : (mountLoad rd sb objects strtab).result = .ok ()) :
    HoldsImage rd 512 (64 * sb.objectCount.toNat) (mountLoad rd sb objects strtab).objects := by
  intro i hi
  rw [mountLoad_objects hv]
  exact loadObjectsLoop_bytes hv _ _ hfit ((mountLoad_ok objects strtab hv).mp hok).1 hi (by omega)

/-- A byte the loop never reads keeps what the array held, which need not be
the image byte. -/
theorem unread_byte (rd : BlockRead) (hv : ValidSuperblock sb)
    (hshort : 512 * objSecCount sb < 64 * sb.objectCount.toNat) :
    ∃ objects, ¬ HoldsImage rd 512 (64 * sb.objectCount.toNat)
      (loadObjectsLoop rd sb (objSecCount sb) 0 ⟨objects, []⟩).2 := by
  refine ⟨fun i => (imageByte rd (512 + i)).elim 0 (· + 1), fun h => ?_⟩
  have hbyte := h (512 * objSecCount sb) hshort
  rw [loadObjectsLoop_frame hv _ _ (by omega) le_rfl] at hbyte
  cases hi : imageByte rd (512 + 512 * objSecCount sb) with
  | none => rw [hi] at hbyte; cases hbyte
  | some b =>
    simp only [hi, Option.elim, Option.some.injEq] at hbyte
    exact absurd hbyte.symm (by simp)

/-- **A load is safe exactly when the gap fits.** For an accepted superblock and
any callback, the load stores only inside the two tables, with copies of at
most a sector, and has read both tables when it succeeds, if and only if the
sectors between the tables (counted modulo 2^32) cover the object table and end
at most one sector past it, or the callback fails early enough. -/
theorem mountLoad_safe_iff (hsb : validateSuperblock sb = .ok ()) (rd : BlockRead) :
    (∀ objects strtab, LoadSafe rd sb objects strtab) ↔ GapFits rd sb := by
  have hv := validateSuperblock_ok.mp hsb
  have hoff := hv.objectTableOffset
  constructor
  · intro hsafe
    by_cases hlong : 64 * sb.objectCount.toNat + 512 < 512 * objSecCount sb
    · refine .inr (.inl ⟨hlong, by_contra fun hf => ?_⟩)
      have hin := (hsafe (fun _ => 0) (fun _ => 0)).1
      rw [mountLoad_objects hv] at hin
      obtain ⟨c, hc, hlen⟩ := loadObjectsLoop_overrun hv (objSecCount sb) ⟨fun _ => 0, []⟩
        (by simp only [overrunSector]; omega) hf
      exact absurd (hin c hc).1 (by omega)
    · by_cases hshort : 512 * objSecCount sb < 64 * sb.objectCount.toNat
      · refine .inr (.inr ⟨hshort, by_contra fun hf => ?_⟩)
        obtain ⟨objects, hbad⟩ := unread_byte rd hv hshort
        have hholds := ((hsafe objects (fun _ => 0)).2.2
          ((mountLoad_ok _ _ hv).mpr (not_or.mp hf))).1
        rw [mountLoad_objects hv, hoff] at hholds
        exact hbad hholds
      · exact .inl ⟨by omega, by omega⟩
  · rintro (⟨hcover, hfit⟩ | ⟨hlong, hf⟩ | ⟨hshort, hf⟩) objects strtab
    · refine ⟨mountLoad_objects_within _ _ hv fun j _ _ => by omega,
        mountLoad_strtab_within _ _ hv, fun hok => ?_⟩
      rw [hoff]
      exact ⟨mountLoad_objects_holds _ _ hv hcover hfit hok, mountLoad_strtab_holds _ _ hv hok⟩
    · refine ⟨mountLoad_objects_within _ _ hv fun j _ hread => ?_,
        mountLoad_strtab_within _ _ hv, fun hok => ?_⟩
      · have hbefore : ¬ overrunSector sb + 1 ≤ j + 1 := fun hle => hread (hf.mono hle)
        simp only [overrunSector] at hbefore
        omega
      · refine absurd (hf.mono ?_) ((mountLoad_ok _ _ hv).mp hok).1
        simp only [overrunSector]
        omega
    · refine ⟨mountLoad_objects_within _ _ hv fun j _ _ => by omega,
        mountLoad_strtab_within _ _ hv, fun hok => ?_⟩
      exact absurd hf (not_or.mpr ((mountLoad_ok _ _ hv).mp hok))

end

/-- One object, one sector of strings at `strings`, no file data. -/
def oneObject (strings : UInt64) : Superblock where
  magic := magicXzsf
  formatVersion := 1
  headerSize := 512
  sectorSize := 512
  imageSizeBytes := strings + 1024
  objectCount := 1
  rootObjectId := 1
  objectTableOffset := 512
  objectTableSize := 64
  stringTableOffset := strings
  stringTableSize := 512
  dataOffset := strings + 512
  dataSize := 0
  metadataCrc32 := 0
  reserved := 0
  padding := List.replicate 424 0
  padding_length := zeros_length

def zeroDevice : BlockRead := fun _ => .ok fun _ => 0

/-- With no gap the condition holds and every load is safe. -/
theorem mountLoad_safe_adjacent : validateSuperblock (oneObject 1024) = .ok () ∧
    ∀ objects strtab, LoadSafe zeroDevice (oneObject 1024) objects strtab :=
  ⟨by decide, (mountLoad_safe_iff (by decide) zeroDevice).mpr (.inl (by decide))⟩

/-- One gap sector behind a table of 64 bytes: the second pass of the loop
copies 2^64 - 448 bytes to index 512. -/
theorem mountLoad_gap_overruns : validateSuperblock (oneObject 1536) = .ok () ∧
    ¬ LoadSafe zeroDevice (oneObject 1536) (fun _ => 0) (fun _ => 0) := by
  refine ⟨by decide, fun h => ?_⟩
  have hc := h.1 ⟨512, 2 ^ 64 - 448⟩ (by decide)
  exact absurd hc.1 (by decide)

end XnuXzs.Xzsfs
