import XnuXzs.Lib.Crc32
import XnuXzs.Xzsfs.Load
import XnuXzs.Xzsfs.Lookup

/-!
# Mounting an image and reading a file

The steps of `xzsfs_mount` from the device to `struct xzsfs_core_fs`, and `xzsfs_core_read`. The
decoders say at which byte each packed field lies, little-endian.
-/

namespace XnuXzs.Xzsfs

open XnuXzs.Lib List

/-- `struct xzsfs_disk_superblock` at an address. -/
def superblockAt (m : Nat → UInt8) (p : Nat) : Superblock where
  magic := u32At m (p + 0x00)
  formatVersion := u32At m (p + 0x04)
  headerSize := u32At m (p + 0x08)
  sectorSize := u32At m (p + 0x0c)
  imageSizeBytes := u64At m (p + 0x10)
  objectCount := u32At m (p + 0x18)
  rootObjectId := u32At m (p + 0x1c)
  objectTableOffset := u64At m (p + 0x20)
  objectTableSize := u64At m (p + 0x28)
  stringTableOffset := u64At m (p + 0x30)
  stringTableSize := u64At m (p + 0x38)
  dataOffset := u64At m (p + 0x40)
  dataSize := u64At m (p + 0x48)
  metadataCrc32 := u32At m (p + 0x50)
  reserved := u32At m (p + 0x54)
  padding := bytesAt m (p + 0x58) 424
  padding_length := bytesAt_length ..

/-- `objects[i]` of a table of `struct xzsfs_disk_object`. -/
def objectAt (m : Nat → UInt8) (i : Nat) : DiskObject where
  objectId := u32At m (64 * i + 0x00)
  parentId := u32At m (64 * i + 0x04)
  type := u32At m (64 * i + 0x08)
  mode := u32At m (64 * i + 0x0c)
  uid := u32At m (64 * i + 0x10)
  gid := u32At m (64 * i + 0x14)
  nameOffset := u32At m (64 * i + 0x18)
  nameLength := u32At m (64 * i + 0x1c)
  dataOffset := u64At m (64 * i + 0x20)
  dataLength := u64At m (64 * i + 0x28)
  reserved1 := u64At m (64 * i + 0x30)
  reserved2 := u64At m (64 * i + 0x38)

def superblockBytes (sb : Superblock) : List UInt8 :=
  leBytes 4 sb.magic.toNat ++ leBytes 4 sb.formatVersion.toNat ++ leBytes 4 sb.headerSize.toNat ++
  leBytes 4 sb.sectorSize.toNat ++ leBytes 8 sb.imageSizeBytes.toNat ++
  leBytes 4 sb.objectCount.toNat ++ leBytes 4 sb.rootObjectId.toNat ++
  leBytes 8 sb.objectTableOffset.toNat ++ leBytes 8 sb.objectTableSize.toNat ++
  leBytes 8 sb.stringTableOffset.toNat ++ leBytes 8 sb.stringTableSize.toNat ++
  leBytes 8 sb.dataOffset.toNat ++ leBytes 8 sb.dataSize.toNat ++
  leBytes 4 sb.metadataCrc32.toNat ++ leBytes 4 sb.reserved.toNat ++ sb.padding

def objectBytes (o : DiskObject) : List UInt8 :=
  leBytes 4 o.objectId.toNat ++ leBytes 4 o.parentId.toNat ++ leBytes 4 o.type.toNat ++
  leBytes 4 o.mode.toNat ++ leBytes 4 o.uid.toNat ++ leBytes 4 o.gid.toNat ++
  leBytes 4 o.nameOffset.toNat ++ leBytes 4 o.nameLength.toNat ++
  leBytes 8 o.dataOffset.toNat ++ leBytes 8 o.dataLength.toNat ++
  leBytes 8 o.reserved1.toNat ++ leBytes 8 o.reserved2.toNat

def crc32Table : List UInt32 :=
  [0x00000000, 0x1db71064, 0x3b6e20c8, 0x26d930ac,
   0x76dc4190, 0x6b6b51f4, 0x4db26158, 0x5005713c,
   0xedb88320, 0xf00f9344, 0xd6d6a3e8, 0xcb61b38c,
   0x9b64c2b0, 0x86d3d2d4, 0xa00ae278, 0xbdbdf21c]

/-- The loop body of `xzsfs_crc32`: the low nibble, then the high one. -/
def crc32Step (crc : UInt32) (byte : UInt8) : UInt32 :=
  let table i := crc32Table.getD i.toNat 0
  let crc := nibbleStep table crc (byte.toUInt32 &&& 0x0f)
  nibbleStep table crc (byte.toUInt32 >>> 4)

def xzsfsCrc32 (crc : UInt32) (buf : List UInt8) : UInt32 :=
  ~~~(buf.foldl crc32Step (~~~crc))

def readSuperblock (rd : BlockRead) : Except Err Superblock :=
  (rd 0).map fun sec => superblockAt sec 0

def validateMetadataCrc (sb : Superblock) (objects strtab : Nat → UInt8) : Except Err Unit :=
  let crc := xzsfsCrc32 0 (superblockBytes { sb with metadataCrc32 := 0 })
  let crc := xzsfsCrc32 crc (bytesAt objects 0 sb.objectTableSize.toNat)
  let crc := xzsfsCrc32 crc (bytesAt strtab 0 sb.stringTableSize.toNat)
  rejectIf .inval (crc ≠ sb.metadataCrc32)

def validateMetadata (sb : Superblock) (objects strtab : Nat → UInt8) : Except Err Unit := do
  validateMetadataCrc sb objects strtab
  validateGraph sb (objectAt objects) strtab

/-- The core calls of `xzsfs_mount`. `objects` and `strtab` are what the stack arrays hold
before, `fs` the allocation. -/
def mount (rd : BlockRead) (objects strtab : Nat → UInt8) (fs : CoreFs) : Except Err CoreFs := do
  let sb ← readSuperblock rd
  validateSuperblock sb
  let loaded := mountLoad rd sb objects strtab
  loaded.result
  validateMetadata sb loaded.objects.byte loaded.strtab.byte
  pure (initFs fs sb (objectAt loaded.objects.byte) loaded.strtab.byte)

/-- The `while` loop of `xzsfs_core_read`, `left` bytes from `pos` on. -/
def readLoop (rd : BlockRead) (pos left : Nat) : Except Err (List UInt8) :=
  if left = 0 then .ok []
  else
    let chunk := min (512 - pos % 512) left
    match rd (pos / 512) with
    | .error e => .error e
    | .ok sec =>
      (readLoop rd ((pos + chunk) % 2 ^ 64) (left - chunk)).map (bytesAt sec (pos % 512) chunk ++ ·)
termination_by left
decreasing_by omega

/-- `xzsfs_core_read`; the result is the filled part of the buffer. -/
def coreRead (rd : BlockRead) (node : CoreNode) (offset len : UInt64) : Except Err (List UInt8) :=
  if node.type ≠ typeReg then .error .inval
  else if offset ≥ node.dataLength ∨ len = 0 then .ok []
  else
    let toRead := if offset + len > node.dataLength then node.dataLength - offset else len
    readLoop rd (node.dataOffset + offset).toNat toRead.toNat

theorem superblockAt_bytes {m : Nat → UInt8} {p : Nat} {sb : Superblock}
    (h : bytesAt m p 512 = superblockBytes sb) : superblockAt m p = sb := by
  obtain ⟨f0, f1, f2, f3, f4, f5, f6, f7, f8, f9, f10, f11, f12, f13, f14, padding, hlen⟩ := sb
  simp only [superblockBytes, append_assoc] at h
  obtain ⟨magic, h⟩ := bytesAt_field h
  obtain ⟨version, h⟩ := bytesAt_field h
  obtain ⟨header, h⟩ := bytesAt_field h
  obtain ⟨sector, h⟩ := bytesAt_field h
  obtain ⟨image, h⟩ := bytesAt_field h
  obtain ⟨count, h⟩ := bytesAt_field h
  obtain ⟨root, h⟩ := bytesAt_field h
  obtain ⟨objOff, h⟩ := bytesAt_field h
  obtain ⟨objSize, h⟩ := bytesAt_field h
  obtain ⟨strOff, h⟩ := bytesAt_field h
  obtain ⟨strSize, h⟩ := bytesAt_field h
  obtain ⟨dataOff, h⟩ := bytesAt_field h
  obtain ⟨dataSize, h⟩ := bytesAt_field h
  obtain ⟨crc, h⟩ := bytesAt_field h
  obtain ⟨reserved, h⟩ := bytesAt_field h
  simp only [superblockAt, Superblock.mk.injEq]
  exact ⟨u32At_eq magic, u32At_eq version, u32At_eq header, u32At_eq sector, u64At_eq image,
    u32At_eq count, u32At_eq root, u64At_eq objOff, u64At_eq objSize, u64At_eq strOff, u64At_eq
    strSize, u64At_eq dataOff, u64At_eq dataSize, u32At_eq crc, u32At_eq reserved, h⟩

theorem objectAt_bytes {m : Nat → UInt8} {i : Nat} {o : DiskObject}
    (h : bytesAt m (64 * i) 64 = objectBytes o) : objectAt m i = o := by
  obtain ⟨f0, f1, f2, f3, f4, f5, f6, f7, f8, f9, f10, f11⟩ := o
  simp only [objectBytes, append_assoc] at h
  obtain ⟨id, h⟩ := bytesAt_field h
  obtain ⟨parent, h⟩ := bytesAt_field h
  obtain ⟨type, h⟩ := bytesAt_field h
  obtain ⟨mode, h⟩ := bytesAt_field h
  obtain ⟨uid, h⟩ := bytesAt_field h
  obtain ⟨gid, h⟩ := bytesAt_field h
  obtain ⟨nameOff, h⟩ := bytesAt_field h
  obtain ⟨nameLen, h⟩ := bytesAt_field h
  obtain ⟨dataOff, h⟩ := bytesAt_field h
  obtain ⟨dataLen, h⟩ := bytesAt_field h
  obtain ⟨res1, h⟩ := bytesAt_field h
  simp only [objectAt, DiskObject.mk.injEq]
  exact ⟨u32At_eq id, u32At_eq parent, u32At_eq type, u32At_eq mode, u32At_eq uid, u32At_eq gid,
    u32At_eq nameOff, u32At_eq nameLen, u64At_eq dataOff, u64At_eq dataLen, u64At_eq res1,
    u64At_eq h⟩

theorem xzsfsCrc32_eq (crc : UInt32) (buf : List UInt8) : xzsfsCrc32 crc buf = crc32 buf crc := by
  have htable : ∀ i < 16, crc32Table.getD (UInt32.ofNat i).toNat 0 =
      crcBit^[4] (UInt32.ofNat i) := by
    decide
  have hstep : crc32Step = crcByte := by
    funext c b
    exact nibbles_eq_crcByte htable c b
  rw [xzsfsCrc32, hstep, crc32]

/-- The device holds the image: the callback succeeds on each of its sectors. -/
def Serves (rd : BlockRead) (img : List UInt8) : Prop :=
  ∀ p (h : p < img.length), imageByte rd p = some img[p]

variable {rd : BlockRead} {img : List UInt8}

theorem serves_sector (hs : Serves rd img) {p : Nat} (hp : p < img.length) :
    ∃ sec, rd (p / 512) = .ok sec ∧ sec (p % 512) = img[p] := by
  have h := hs p hp
  unfold imageByte at h
  cases hr : rd (p / 512) with
  | error => simp [hr] at h
  | ok sec =>
    simp only [hr, Option.some.injEq] at h
    exact ⟨sec, rfl, h⟩

theorem serves_bytes (hs : Serves rd img) (lba a n : Nat) (ha : a + n ≤ 512) (hn : 0 < n)
    (hend : 512 * lba + a + n ≤ img.length) :
    ∃ sec, rd lba = .ok sec ∧ bytesAt sec a n = (img.drop (512 * lba + a)).take n := by
  have hlba : ∀ c < n, (512 * lba + a + c) / 512 = lba ∧ (512 * lba + a + c) % 512 = a + c := by
    intro c hc
    omega
  obtain ⟨sec, hr, -⟩ := serves_sector hs (p := 512 * lba + a + 0) (by omega)
  rw [(hlba 0 hn).1] at hr
  refine ⟨sec, hr, ext_getElem ?_ ?_⟩
  · simp only [bytesAt_length, length_take, length_drop]
    omega
  intro c h1 h2
  rw [bytesAt_length] at h1
  obtain ⟨sec', hr', hc⟩ := serves_sector hs (p := 512 * lba + a + c) (by omega)
  rw [(hlba c h1).1, hr, Except.ok.injEq] at hr'
  rw [(hlba c h1).2] at hc
  simp [bytesAt_getElem, hr', hc]

theorem readLoop_serves (hs : Serves rd img) (hsize : img.length ≤ 2 ^ 64) (pos left : Nat)
    (hend : pos + left ≤ img.length) : readLoop rd pos left = .ok ((img.drop pos).take left) := by
  induction left using Nat.strongRecOn generalizing pos with
  | ind left ih =>
    rw [readLoop]
    by_cases h0 : left = 0
    · simp [h0]
    have hpos := Nat.div_add_mod pos 512
    obtain ⟨chunk, hchunk⟩ : ∃ c, c = min (512 - pos % 512) left := ⟨_, rfl⟩
    obtain ⟨sec, hr, hb⟩ := serves_bytes hs (pos / 512) (pos % 512) chunk
      (by omega) (by omega) (by omega)
    rw [hpos] at hb
    simp only [h0, if_false, ← hchunk, hr, hb]
    by_cases hlast : left - chunk = 0
    · have heq : left = chunk := by omega
      rw [hlast, readLoop, heq]
      simp [Except.map]
    rw [Nat.mod_eq_of_lt (by omega : pos + chunk < 2 ^ 64),
      ih (left - chunk) (by omega) (pos + chunk) (by omega)]
    simp only [Except.map, Except.ok.injEq]
    rw [← drop_drop, ← take_add]
    congr 1
    omega

/-- **A read returns the bytes of the extent.** `offset + len` must not wrap. -/
theorem coreRead_serves (hs : Serves rd img) (hsize : img.length < 2 ^ 64) {node : CoreNode}
    (htype : node.type = typeReg)
    (hin : node.dataOffset.toNat + node.dataLength.toNat ≤ img.length) (offset len : UInt64)
    (hsum : offset.toNat + len.toNat < 2 ^ 64) :
    coreRead rd node offset len = .ok
      ((((img.drop node.dataOffset.toNat).take node.dataLength.toNat).drop offset.toNat).take
        len.toNat) := by
  have hzero : len = 0 ↔ len.toNat = 0 := by rw [← UInt64.toNat_inj]; rfl
  simp only [coreRead, htype, ne_eq, not_true_eq_false, if_false, ge_iff_le, gt_iff_lt, hzero,
    UInt64.le_iff_toNat_le, UInt64.lt_iff_toNat_lt, UInt64.toNat_add, Nat.mod_eq_of_lt hsum]
  split
  · congr 1
    apply Eq.symm
    apply eq_nil_of_length_eq_zero
    simp only [length_take, length_drop]
    omega
  · rw [Nat.mod_eq_of_lt (by omega)]
    rw [drop_take, drop_drop, take_take]
    split
    · rw [UInt64.toNat_sub_of_le _ _ (by rw [UInt64.le_iff_toNat_le]; omega),
        readLoop_serves hs (by omega) _ _ (by omega)]
      congr 2
      omega
    · rw [readLoop_serves hs (by omega) _ _ (by omega)]
      congr 2
      omega

end XnuXzs.Xzsfs
