import XnuXzs.Lib.Guard

/-!
# The XZSFS structures and the superblock check

The packed structures of `xzsfs_core.h` and `xzsfs_core_validate_superblock`. `ValidSuperblock`
is what acceptance says in plain numbers, with each wrap written out.
-/

namespace XnuXzs.Xzsfs

open XnuXzs.Lib

/-- The return codes of the core. `dev` is a non-zero code of the block-read callback, passed on
unchanged. -/
inductive Err where
  | inval
  | noent
  | notdir
  | dev (code : Int)
  deriving DecidableEq, Repr

def magicXzsf : UInt32 := 0x5346535A
def maxObjects : Nat := 32
def maxStrtabSize : Nat := 2048
def typeDir : UInt32 := 1
def typeReg : UInt32 := 2

/-- `struct xzsfs_disk_superblock`: the 512 bytes of sector 0. -/
structure Superblock where
  magic : UInt32
  formatVersion : UInt32
  headerSize : UInt32
  sectorSize : UInt32
  imageSizeBytes : UInt64
  objectCount : UInt32
  rootObjectId : UInt32
  objectTableOffset : UInt64
  objectTableSize : UInt64
  stringTableOffset : UInt64
  stringTableSize : UInt64
  dataOffset : UInt64
  dataSize : UInt64
  metadataCrc32 : UInt32
  reserved : UInt32
  padding : List UInt8
  padding_length : padding.length = 424

theorem zeros_length : (List.replicate 424 (0 : UInt8)).length = 424 := List.length_replicate

/-- `struct xzsfs_disk_object`: one 64-byte entry of the object table. -/
structure DiskObject where
  objectId : UInt32
  parentId : UInt32
  type : UInt32
  mode : UInt32
  uid : UInt32
  gid : UInt32
  nameOffset : UInt32
  nameLength : UInt32
  dataOffset : UInt64
  dataLength : UInt64
  reserved1 : UInt64
  reserved2 : UInt64

def validateSuperblock (sb : Superblock) : Except Err Unit := do
  rejectIf .inval (sb.magic ≠ magicXzsf)
  rejectIf .inval (sb.formatVersion ≠ 1)
  rejectIf .inval (sb.headerSize ≠ 512)
  rejectIf .inval (sb.sectorSize ≠ 512)
  rejectIf .inval (sb.imageSizeBytes % 512 ≠ 0)
  rejectIf .inval (sb.imageSizeBytes < 4 * 512)
  rejectIf .inval (sb.objectCount = 0 ∨ sb.objectCount > 32)
  rejectIf .inval (sb.rootObjectId ≠ 1)
  rejectIf .inval (sb.objectTableOffset ≠ 512)
  rejectIf .inval (sb.objectTableSize ≠ sb.objectCount.toUInt64 * 64)
  rejectIf .inval (sb.stringTableOffset < sb.objectTableOffset + sb.objectTableSize)
  rejectIf .inval (sb.stringTableOffset % 512 ≠ 0)
  rejectIf .inval (sb.stringTableSize = 0 ∨ sb.stringTableSize > 2048)
  rejectIf .inval (sb.stringTableSize % 512 ≠ 0)
  rejectIf .inval (sb.dataOffset < sb.stringTableOffset + sb.stringTableSize)
  rejectIf .inval (sb.dataOffset % 512 ≠ 0)
  rejectIf .inval (sb.dataOffset + sb.dataSize > sb.imageSizeBytes)

/-- An accepted superblock, in unbounded numbers. The two sums left to 64-bit arithmetic keep
their wrap. -/
structure ValidSuperblock (sb : Superblock) : Prop where
  magic : sb.magic = magicXzsf
  formatVersion : sb.formatVersion = 1
  headerSize : sb.headerSize = 512
  sectorSize : sb.sectorSize = 512
  image_aligned : sb.imageSizeBytes.toNat % 512 = 0
  image_min : 2048 ≤ sb.imageSizeBytes.toNat
  count_pos : 0 < sb.objectCount.toNat
  count_le : sb.objectCount.toNat ≤ 32
  rootObjectId : sb.rootObjectId = 1
  objectTableOffset : sb.objectTableOffset.toNat = 512
  objectTableSize : sb.objectTableSize.toNat = 64 * sb.objectCount.toNat
  stringTable_after : 512 + 64 * sb.objectCount.toNat ≤ sb.stringTableOffset.toNat
  stringTable_aligned : sb.stringTableOffset.toNat % 512 = 0
  stringTableSize_pos : 0 < sb.stringTableSize.toNat
  stringTableSize_le : sb.stringTableSize.toNat ≤ 2048
  stringTableSize_aligned : sb.stringTableSize.toNat % 512 = 0
  data_after : (sb.stringTableOffset.toNat + sb.stringTableSize.toNat) % 2 ^ 64 ≤
    sb.dataOffset.toNat
  data_aligned : sb.dataOffset.toNat % 512 = 0
  data_end : (sb.dataOffset.toNat + sb.dataSize.toNat) % 2 ^ 64 ≤ sb.imageSizeBytes.toNat

theorem validateSuperblock_ok {sb : Superblock} :
    validateSuperblock sb = .ok () ↔ ValidSuperblock sb := by
  have count0 : sb.objectCount = 0 ↔ sb.objectCount.toNat = 0 := by
    rw [← UInt32.toNat_inj]; rfl
  simp only [validateSuperblock, seq_ok, rejectIf_ok, not_not, not_lt, not_or, ne_eq, count0,
    ← UInt64.toNat_inj, UInt64.lt_iff_toNat_lt, UInt32.lt_iff_toNat_lt, gt_iff_lt,
    UInt64.toNat_add, UInt64.toNat_mod, UInt64.toNat_mul, UInt32.toNat_toUInt64,
    UInt64.reduceToNat, UInt32.reduceToNat, UInt64.reduceMul]
  constructor
  · rintro ⟨h1, h2, h3, h4, h5, h6, h7, h8, h9, h10, h11, h12, h13, h14, h15, h16, h17⟩
    exact ⟨h1, h2, h3, h4, h5, h6, by omega, by omega, h8, h9, by omega, by omega, h12,
      by omega, by omega, h14, h15, h16, h17⟩
  · rintro ⟨h1, h2, h3, h4, h5, h6, h7, h7', h8, h9, h10, h11, h12, h13, h13', h14, h15, h16, h17⟩
    exact ⟨h1, h2, h3, h4, h5, h6, ⟨by omega, by omega⟩, h8, h9, by omega, by omega, h12,
      ⟨by omega, by omega⟩, h14, h15, h16, h17⟩

end XnuXzs.Xzsfs
