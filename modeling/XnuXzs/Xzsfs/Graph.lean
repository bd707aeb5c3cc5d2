import Mathlib
import XnuXzs.Xzsfs.Core

/-!
# The object graph check and the image layout

`xzsfs_core_validate_graph`, and where things lie in an accepted image. The check compares sums
without looking for overflow, so it ensures the layout exactly when no sum wraps (`layout_iff`).
-/

namespace XnuXzs.Xzsfs

open XnuXzs.Lib

/-- The tables as the check indexes them. -/
abbrev Objects := Nat → DiskObject
abbrev Strtab := Nat → UInt8

def slash : UInt8 := 0x2f

def memEq (m : Nat → UInt8) (a b n : Nat) : Prop := ∀ c, c < n → m (a + c) = m (b + c)

instance (m : Nat → UInt8) (a b n : Nat) : Decidable (memEq m a b n) :=
  inferInstanceAs (Decidable (∀ c, c < n → m (a + c) = m (b + c)))

/-- Part 2 of the check: object 0 is the root directory, named by the empty
string at offset 0. -/
def checkRoot (objs : Objects) (strtab : Strtab) : Except Err Unit := do
  rejectIf .inval ((objs 0).objectId ≠ 1 ∨ (objs 0).parentId ≠ 1 ∨ (objs 0).type ≠ typeDir)
  rejectIf .inval ((objs 0).nameOffset ≠ 0 ∨ (objs 0).nameLength ≠ 0)
  rejectIf .inval (strtab 0 ≠ 0)

/-- The `i > 0` branch: parent link, name, and no earlier sibling of that name. -/
def checkChild (sb : Superblock) (objs : Objects) (strtab : Strtab) (i : Nat) :
    Except Err Unit := do
  let obj := objs i
  rejectIf .inval (obj.parentId = 0 ∨ obj.parentId ≥ obj.objectId)
  rejectIf .inval ((objs (obj.parentId - 1).toNat).type ≠ typeDir)
  rejectIf .inval (obj.nameLength = 0 ∨
    obj.nameOffset.toUInt64 + obj.nameLength.toUInt64 ≥ sb.stringTableSize)
  rejectIf .inval (strtab (obj.nameOffset + obj.nameLength).toNat ≠ 0)
  forUpTo obj.nameLength.toNat fun c =>
    rejectIf .inval (strtab (obj.nameOffset.toNat + c) = slash ∨
      strtab (obj.nameOffset.toNat + c) = 0)
  forUpTo i fun j =>
    rejectIf .inval ((objs j).parentId = obj.parentId ∧ (objs j).nameLength = obj.nameLength ∧
      memEq strtab (objs j).nameOffset.toNat obj.nameOffset.toNat obj.nameLength.toNat)

/-- The payload of object `i`: none for a directory, for a file a sector-aligned extent in the
image that meets no earlier one. -/
def checkPayload (sb : Superblock) (objs : Objects) (i : Nat) : Except Err Unit :=
  let obj := objs i
  if obj.type = typeDir then
    rejectIf .inval (obj.dataOffset ≠ 0 ∨ obj.dataLength ≠ 0)
  else do
    rejectIf .inval (obj.dataOffset < sb.dataOffset)
    rejectIf .inval (obj.dataOffset % 512 ≠ 0)
    rejectIf .inval (obj.dataOffset + obj.dataLength > sb.imageSizeBytes)
    forUpTo i fun j =>
      rejectIf .inval ((objs j).type = typeReg ∧
        obj.dataOffset < (objs j).dataOffset + (objs j).dataLength ∧
        (objs j).dataOffset < obj.dataOffset + obj.dataLength)

def checkObject (sb : Superblock) (objs : Objects) (strtab : Strtab) (i : Nat) :
    Except Err Unit := do
  rejectIf .inval ((objs i).objectId ≠ UInt32.ofNat i + 1)
  rejectIf .inval ((objs i).type ≠ typeDir ∧ (objs i).type ≠ typeReg)
  (if i > 0 then checkChild sb objs strtab i else .ok ())
  checkPayload sb objs i

def validateGraph (sb : Superblock) (objs : Objects) (strtab : Strtab) : Except Err Unit := do
  checkRoot objs strtab
  forUpTo sb.objectCount.toNat (checkObject sb objs strtab)

structure ValidChild (sb : Superblock) (objs : Objects) (strtab : Strtab) (i : Nat) : Prop where
  parent_pos : 0 < (objs i).parentId.toNat
  parent_lt : (objs i).parentId.toNat < (objs i).objectId.toNat
  parent_dir : (objs ((objs i).parentId.toNat - 1)).type = typeDir
  name_pos : 0 < (objs i).nameLength.toNat
  name_in : (objs i).nameOffset.toNat + (objs i).nameLength.toNat < sb.stringTableSize.toNat
  name_nul : strtab ((objs i).nameOffset + (objs i).nameLength).toNat = 0
  name_chars : ∀ c, c < (objs i).nameLength.toNat →
    strtab ((objs i).nameOffset.toNat + c) ≠ slash ∧ strtab ((objs i).nameOffset.toNat + c) ≠ 0
  name_fresh : ∀ j, j < i → (objs j).parentId = (objs i).parentId →
    (objs j).nameLength = (objs i).nameLength →
    ¬ memEq strtab (objs j).nameOffset.toNat (objs i).nameOffset.toNat (objs i).nameLength.toNat

/-- An accepted payload, with the wrap of the 64-bit ends written out. -/
structure ValidPayload (sb : Superblock) (objs : Objects) (i : Nat) : Prop where
  dir : (objs i).type = typeDir → (objs i).dataOffset = 0 ∧ (objs i).dataLength = 0
  after : (objs i).type ≠ typeDir → sb.dataOffset.toNat ≤ (objs i).dataOffset.toNat
  aligned : (objs i).type ≠ typeDir → (objs i).dataOffset.toNat % 512 = 0
  inside : (objs i).type ≠ typeDir →
    ((objs i).dataOffset.toNat + (objs i).dataLength.toNat) % 2 ^ 64 ≤ sb.imageSizeBytes.toNat
  apart : (objs i).type ≠ typeDir → ∀ j, j < i → (objs j).type = typeReg →
    ((objs j).dataOffset.toNat + (objs j).dataLength.toNat) % 2 ^ 64 ≤ (objs i).dataOffset.toNat ∨
    ((objs i).dataOffset.toNat + (objs i).dataLength.toNat) % 2 ^ 64 ≤ (objs j).dataOffset.toNat

structure ValidObject (sb : Superblock) (objs : Objects) (strtab : Strtab) (i : Nat) : Prop where
  id : (objs i).objectId = UInt32.ofNat i + 1
  type : (objs i).type = typeDir ∨ (objs i).type = typeReg
  child : 0 < i → ValidChild sb objs strtab i
  payload : ValidPayload sb objs i

structure ValidGraph (sb : Superblock) (objs : Objects) (strtab : Strtab) : Prop where
  root_id : (objs 0).objectId = 1
  root_parent : (objs 0).parentId = 1
  root_type : (objs 0).type = typeDir
  root_nameOffset : (objs 0).nameOffset = 0
  root_nameLength : (objs 0).nameLength = 0
  root_nul : strtab 0 = 0
  object : ∀ i, i < sb.objectCount.toNat → ValidObject sb objs strtab i

variable {sb : Superblock} {objs : Objects} {strtab : Strtab} {i : Nat}

theorem uint32_eq_zero (x : UInt32) : x = 0 ↔ x.toNat = 0 := by
  rw [← UInt32.toNat_inj]
  rfl

theorem uint32_pred {x : UInt32} (h : 0 < x.toNat) : (x - 1).toNat = x.toNat - 1 :=
  UInt32.toNat_sub_of_le _ _ (UInt32.le_iff_toNat_le.mpr h)

theorem checkChild_ok : checkChild sb objs strtab i = .ok () ↔ ValidChild sb objs strtab i := by
  simp only [checkChild, seq_ok, rejectIf_ok, forUpTo_ok, not_or, not_and, ne_eq, not_not,
    uint32_eq_zero, UInt32.le_iff_toNat_le, UInt64.le_iff_toNat_le, UInt64.toNat_add,
    UInt32.toNat_toUInt64, ge_iff_le]
  have hoff := (objs i).nameOffset.toNat_lt
  have hlen := (objs i).nameLength.toNat_lt
  constructor
  · rintro ⟨⟨h1, h2⟩, h3, ⟨h4, h5⟩, h6, h7, h8⟩
    exact ⟨by omega, by omega, uint32_pred (pos_of_ne_zero h1) ▸ h3, by omega, by omega, h6, h7, h8⟩
  · rintro ⟨h1, h2, h3, h4, h5, h6, h7, h8⟩
    exact ⟨⟨by omega, by omega⟩, (uint32_pred h1).symm ▸ h3, ⟨by omega, by omega⟩, h6, h7, h8⟩

theorem checkPayload_ok : checkPayload sb objs i = .ok () ↔ ValidPayload sb objs i := by
  unfold checkPayload
  by_cases hd : (objs i).type = typeDir
  · simp only [hd, if_true, rejectIf_ok, not_or, ne_eq, not_not]
    exact ⟨fun h => ⟨fun _ => h, absurd hd, absurd hd, absurd hd,
      fun n => absurd hd n⟩, fun h => h.dir hd⟩
  simp only [hd, if_false, seq_ok, rejectIf_ok, forUpTo_ok, not_and, not_lt, ne_eq, not_not,
    gt_iff_lt, UInt64.lt_iff_toNat_lt, ← UInt64.toNat_inj, UInt64.toNat_add,
    UInt64.toNat_mod, UInt64.reduceToNat]
  constructor
  · rintro ⟨h1, h2, h3, h4⟩
    refine ⟨fun h => absurd h hd, fun _ => h1, fun _ => h2, fun _ => h3, fun _ j hj hr => ?_⟩
    have := h4 j hj hr
    omega
  intro h
  refine ⟨h.after hd, h.aligned hd, h.inside hd, fun j hj hr hlt => ?_⟩
  have := h.apart hd j hj hr
  omega

theorem checkObject_ok : checkObject sb objs strtab i = .ok () ↔ ValidObject sb objs strtab i := by
  have hif : (if i > 0 then checkChild sb objs strtab i else .ok ()) = .ok () ↔
      (0 < i → ValidChild sb objs strtab i) := by
    by_cases hi : i > 0
    · simp [hi, checkChild_ok]
    · simp [hi]
  simp only [checkObject, seq_ok, rejectIf_ok, hif, checkPayload_ok, ne_eq, not_not, not_and_or]
  constructor
  · rintro ⟨a, b, c, d⟩
    exact ⟨a, b, c, d⟩
  · rintro ⟨a, b, c, d⟩
    exact ⟨a, b, c, d⟩

theorem validateGraph_ok : validateGraph sb objs strtab = .ok () ↔ ValidGraph sb objs strtab := by
  simp only [validateGraph, checkRoot, seq_ok, rejectIf_ok, forUpTo_ok, checkObject_ok, not_or,
    ne_eq, not_not]
  constructor
  · rintro ⟨⟨⟨a, b, c⟩, ⟨d, e⟩, f⟩, g⟩
    exact ⟨a, b, c, d, e, f, g⟩
  · rintro ⟨a, b, c, d, e, f, g⟩
    exact ⟨⟨⟨a, b, c⟩, ⟨d, e⟩, f⟩, g⟩

/-- The byte ranges of the image, over unbounded numbers. -/
def objectTable (sb : Superblock) : Set Nat :=
  Set.Ico sb.objectTableOffset.toNat (sb.objectTableOffset.toNat + sb.objectTableSize.toNat)

def stringTable (sb : Superblock) : Set Nat :=
  Set.Ico sb.stringTableOffset.toNat (sb.stringTableOffset.toNat + sb.stringTableSize.toNat)

def dataArea (sb : Superblock) : Set Nat :=
  Set.Ico sb.dataOffset.toNat (sb.dataOffset.toNat + sb.dataSize.toNat)

def extent (o : DiskObject) : Set Nat :=
  Set.Ico o.dataOffset.toNat (o.dataOffset.toNat + o.dataLength.toNat)

/-- The tables and the data area are apart and inside the image, every regular
file's extent is between `data_offset` and the image's end, and no two
non-empty files share a byte. -/
structure Layout (sb : Superblock) (objs : Objects) : Prop where
  tables_apart : Disjoint (objectTable sb) (stringTable sb)
  objects_data_apart : Disjoint (objectTable sb) (dataArea sb)
  strings_data_apart : Disjoint (stringTable sb) (dataArea sb)
  objects_inside : sb.objectTableOffset.toNat + sb.objectTableSize.toNat ≤ sb.imageSizeBytes.toNat
  strings_inside : sb.stringTableOffset.toNat + sb.stringTableSize.toNat ≤ sb.imageSizeBytes.toNat
  data_inside : sb.dataOffset.toNat + sb.dataSize.toNat ≤ sb.imageSizeBytes.toNat
  file_inside : ∀ i, i < sb.objectCount.toNat → (objs i).type = typeReg →
    sb.dataOffset.toNat ≤ (objs i).dataOffset.toNat ∧
    (objs i).dataOffset.toNat + (objs i).dataLength.toNat ≤ sb.imageSizeBytes.toNat
  files_apart : ∀ i j, i < sb.objectCount.toNat → j < sb.objectCount.toNat → i ≠ j →
    (objs i).type = typeReg → (objs j).type = typeReg → (extent (objs i)).Nonempty →
    (extent (objs j)).Nonempty → Disjoint (extent (objs i)) (extent (objs j))

/-- None of the three kinds of end offset overflows 64 bits. -/
structure NoWrap (sb : Superblock) (objs : Objects) : Prop where
  strings : sb.stringTableOffset.toNat + sb.stringTableSize.toNat < 2 ^ 64
  data : sb.dataOffset.toNat + sb.dataSize.toNat < 2 ^ 64
  file : ∀ i, i < sb.objectCount.toNat → (objs i).type = typeReg →
    (objs i).dataOffset.toNat + (objs i).dataLength.toNat < 2 ^ 64

theorem ico_disjoint_of_le {a b c d : Nat} (h : b ≤ c ∨ d ≤ a) :
    Disjoint (Set.Ico a b) (Set.Ico c d) := by
  rw [Set.Ico_disjoint_Ico]
  omega

theorem files_apart_of_lt (hg : ValidGraph sb objs strtab) (hw : NoWrap sb objs) {j : Nat}
    (hi : i < sb.objectCount.toNat) (hji : j < i) (ti : (objs i).type = typeReg)
    (tj : (objs j).type = typeReg) : Disjoint (extent (objs i)) (extent (objs j)) := by
  have hne : (objs i).type ≠ typeDir := by rw [ti]; decide
  have happ := (hg.object i hi).payload.apart hne j hji tj
  have hwi := hw.file i hi ti
  have hwj := hw.file j (by omega) tj
  rw [Nat.mod_eq_of_lt hwi, Nat.mod_eq_of_lt hwj] at happ
  exact ico_disjoint_of_le happ.symm

/-- **Acceptance ensures the layout exactly when no end offset wraps.** -/
theorem layout_iff (hsb : validateSuperblock sb = .ok ())
    (hgraph : validateGraph sb objs strtab = .ok ()) : Layout sb objs ↔ NoWrap sb objs := by
  have hv := validateSuperblock_ok.mp hsb
  have hg := validateGraph_ok.mp hgraph
  have himage := sb.imageSizeBytes.toNat_lt
  constructor
  · intro h
    have hs := h.strings_inside
    have hd := h.data_inside
    exact ⟨by omega, by omega, fun i hi ti => by have := (h.file_inside i hi ti).2; omega⟩
  intro h
  have hobj := hv.objectTableOffset
  have hsize := hv.objectTableSize
  have hafter := hv.stringTable_after
  have hdata := hv.data_after
  have hend := hv.data_end
  rw [Nat.mod_eq_of_lt h.strings] at hdata
  rw [Nat.mod_eq_of_lt h.data] at hend
  refine ⟨ico_disjoint_of_le (by omega), ico_disjoint_of_le (by omega),
    ico_disjoint_of_le (by omega), by omega, by omega, hend, fun i hi ti => ?_, ?_⟩
  · have hne : (objs i).type ≠ typeDir := by rw [ti]; decide
    have hp := (hg.object i hi).payload
    have hin := hp.inside hne
    rw [Nat.mod_eq_of_lt (h.file i hi ti)] at hin
    exact ⟨hp.after hne, hin⟩
  · intro i j hi hj hij ti tj _ _
    -- the check looks back from the later object only
    rcases lt_or_gt_of_ne hij with hlt | hlt
    · exact (files_apart_of_lt hg h hj hlt tj ti).symm
    · exact files_apart_of_lt hg h hi hlt ti tj

/-- A root with one regular file of the given extent, named at offset 1. -/
def rootAndFile (offset length : UInt64) : Objects := fun i =>
  if i = 0 then ⟨1, 1, typeDir, 0o755, 0, 0, 0, 0, 0, 0, 0, 0⟩
  else ⟨2, 1, typeReg, 0o644, 0, 0, 1, 1, offset, length, 0, 0⟩

/-- A string table with one name of one character, at offset 1. -/
def oneName (c : UInt8) : Strtab := fun i => if i = 1 then c else 0

/-- Two objects, strings at 1024, one sector of data at 1536. -/
def twoObjects : Superblock where
  magic := magicXzsf
  formatVersion := 1
  headerSize := 512
  sectorSize := 512
  imageSizeBytes := 2048
  objectCount := 2
  rootObjectId := 1
  objectTableOffset := 512
  objectTableSize := 128
  stringTableOffset := 1024
  stringTableSize := 512
  dataOffset := 1536
  dataSize := 512
  metadataCrc32 := 0
  reserved := 0
  padding := List.replicate 424 0
  padding_length := zeros_length

theorem layout_of_sound_file : validateSuperblock twoObjects = .ok () ∧
    validateGraph twoObjects (rootAndFile 1536 100) (oneName 0x61) = .ok () ∧
    Layout twoObjects (rootAndFile 1536 100) := by
  have hgraph : validateGraph twoObjects (rootAndFile 1536 100) (oneName 0x61) = .ok () := by decide
  refine ⟨by decide, hgraph, (layout_iff (by decide) hgraph).mpr ⟨by decide, by decide, ?_⟩⟩
  decide

/-- A file at 1536 of length 2^64 - 1024 ends, modulo 2^64, at 512. -/
theorem layout_wrapping_file : validateSuperblock twoObjects = .ok () ∧
    validateGraph twoObjects (rootAndFile 1536 (0 - 1024)) (oneName 0x61) = .ok () ∧
    ¬ Layout twoObjects (rootAndFile 1536 (0 - 1024)) := by
  refine ⟨by decide, by decide, fun h => ?_⟩
  exact absurd (h.file_inside 1 (by decide) (by decide)).2 (by decide)

end XnuXzs.Xzsfs
