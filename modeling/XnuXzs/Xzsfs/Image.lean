import XnuXzs.Xzsfs.Mkfs
import XnuXzs.Xzsfs.Mount

/-!
# The image of a tree, in the driver's structures

The generator and the driver were written apart. `buildImage_eq` says that for a tree that fits
the format `mkxzsfs.py` writes `imageOf`, stated with the driver's structures.
-/

namespace XnuXzs.Mkfs

open XnuXzs.Lib XnuXzs.Xzsfs List

/-- The index of an object's parent directory, the root's being its own. -/
def parentIdx (objects : List HostEntry) (k : Nat) : Nat :=
  objects.findIdx fun d => d.path = (objects.getD k root).path.dropLast

def nameOffset (objects : List HostEntry) (k : Nat) : Nat :=
  if k = 0 then 0 else (strTable (objects.take k)).length

def fileOffset (objects : List HostEntry) (k : Nat) : Nat :=
  if (objects.getD k root).isDir then 0
  else dataOffset objects + (payloads (objects.take k)).length

def diskObject (objects : List HostEntry) (k : Nat) : DiskObject :=
  let e := objects.getD k root
  { objectId := UInt32.ofNat (k + 1)
    parentId := UInt32.ofNat (parentIdx objects k + 1)
    type := if e.isDir then typeDir else typeReg
    mode := UInt32.ofNat e.mode
    uid := 0
    gid := 0
    nameOffset := UInt32.ofNat (nameOffset objects k)
    nameLength := UInt32.ofNat e.name.length
    dataOffset := UInt64.ofNat (fileOffset objects k)
    dataLength := UInt64.ofNat e.payload.length
    reserved1 := 0
    reserved2 := 0 }

def superblock (objects : List HostEntry) (crc : UInt32) : Superblock where
  magic := magicXzsf
  formatVersion := 1
  headerSize := 512
  sectorSize := 512
  imageSizeBytes := UInt64.ofNat (imageSize objects)
  objectCount := UInt32.ofNat objects.length
  rootObjectId := 1
  objectTableOffset := 512
  objectTableSize := UInt64.ofNat (objectTableSize objects)
  stringTableOffset := UInt64.ofNat (stringTableOffset objects)
  stringTableSize := UInt64.ofNat (stringTableSize objects)
  dataOffset := UInt64.ofNat (dataOffset objects)
  dataSize := UInt64.ofNat (imageSize objects - dataOffset objects)
  metadataCrc32 := crc
  reserved := 0
  padding := List.replicate 424 0
  padding_length := zeros_length

def objTable (objects : List HostEntry) : List UInt8 :=
  (List.range objects.length).flatMap fun k => objectBytes (diskObject objects k)

def imageCrc (objects : List HostEntry) : UInt32 :=
  metadataCrc (superblockBytes (superblock objects 0)) (objTable objects)
    (padTo (strTable objects))

def imageOf (objects : List HostEntry) : List UInt8 :=
  superblockBytes (superblock objects (imageCrc objects)) ++ padTo (objTable objects) ++
    padTo (strTable objects) ++ payloads objects

/-- The limits of the driver, and sizes that fit the fields. -/
structure Fits (objects : List HostEntry) : Prop where
  count : objects.length ≤ 32
  strtab : stringTableSize objects ≤ 2048
  image : imageSize objects < 2 ^ 64

variable {objects : List HostEntry} {k j : Nat}

theorem alignTo_le (n : Nat) : n ≤ alignTo n 512 := by
  unfold alignTo
  omega

theorem alignTo_mod (n : Nat) : alignTo n 512 % 512 = 0 := by
  unfold alignTo
  omega

theorem alignTo_lt (n : Nat) : alignTo n 512 < n + 512 := by
  unfold alignTo
  omega

theorem padTo_length (bytes : List UInt8) : (padTo bytes).length = alignTo bytes.length 512 := by
  have := alignTo_le bytes.length
  rw [padTo, length_append, length_replicate]
  omega

theorem padTo_segment (bytes : List UInt8) : SegmentAt (padTo bytes) 0 bytes :=
  segmentAt_append_left _ _

theorem payloadEntry_length (e : HostEntry) :
    (payloadEntry e).length = alignTo e.payload.length 512 :=
  padTo_length e.payload

theorem parentIdx_spec (hl : ObjectList objects) (h0 : 0 < k) (hk : k < objects.length) :
    parentIdx objects k < k ∧
    (objects.getD (parentIdx objects k) root).path = (objects.getD k root).path.dropLast ∧
    (objects.getD (parentIdx objects k) root).isDir = true := by
  obtain ⟨j, hj, hpath, hdir⟩ := hl.parent k h0 hk
  have hjn : j < objects.length := by omega
  have hfound : parentIdx objects k < objects.length := by
    apply findIdx_lt_length_of_exists
    exact ⟨objects.getD j root, getD_mem hjn, by simpa using hpath⟩
  have hsame : (objects.getD (parentIdx objects k) root).path =
      (objects.getD k root).path.dropLast := by
    rw [getD_eq_getElem _ _ hfound]
    exact of_decide_eq_true (findIdx_getElem (w := hfound))
  have : parentIdx objects k = j := hl.distinct _ _ hfound hjn (hsame.trans hpath.symm)
  rw [this] at hsame ⊢
  exact ⟨hj, hsame, hdir⟩

theorem parentIdx_root (hl : ObjectList objects) : parentIdx objects 0 = 0 := by
  cases objects with
  | nil => exact absurd hl.pos (lt_irrefl 0)
  | cons e es =>
    have he : e = root := hl.root_first
    simp [parentIdx, findIdx_cons, he, root]

theorem parentId_eq (hl : ObjectList objects) (hk : k < objects.length) :
    parentId objects (objects.getD k root) = .ok (parentIdx objects k + 1) := by
  by_cases h0 : k = 0
  · subst h0
    rw [parentIdx_root hl, hl.root_first]
    rfl
  have hlt := (parentIdx_spec hl (by omega) hk).1
  have hfind : objects.findIdx? (fun d => d.path = (objects.getD k root).path.dropLast) =
      some (parentIdx objects k) :=
    findIdx?_eq_some_iff_findIdx_eq.mpr ⟨by omega, rfl⟩
  rw [parentId, if_neg (hl.below_root k (by omega) hk), hfind]

theorem name_segment (hl : ObjectList objects) (h0 : 0 < k) (hk : k < objects.length) :
    SegmentAt (strTable objects) (nameOffset objects k) ((objects.getD k root).name ++ [0]) := by
  have hseg := segmentAt_flatMap nameEntry objects hk
  have hentry : nameEntry objects[k] = (objects.getD k root).name ++ [0] := by
    have hne := hl.below_root k h0 hk
    rw [getD_eq_getElem _ _ hk] at hne ⊢
    exact if_neg hne
  have hoff : nameOffset objects k = 1 + ((objects.take k).flatMap nameEntry).length := by
    rw [nameOffset, if_neg (by omega), strTable, length_cons, add_comm]
  rw [hentry] at hseg
  rw [hoff]
  exact (segmentAt_append_right [0] _).trans hseg

theorem payload_segment (hk : k < objects.length) :
    SegmentAt (payloads objects) (payloads (objects.take k)).length
      (objects.getD k root).payload := by
  have hseg := segmentAt_flatMap payloadEntry objects hk
  rw [getD_eq_getElem _ _ hk]
  exact hseg.trans (segmentAt_append_left _ _)

theorem name_end (hl : ObjectList objects) (h0 : 0 < k) (hk : k < objects.length) :
    nameOffset objects k + (objects.getD k root).name.length < stringTableSize objects := by
  have hend := (name_segment hl h0 hk).length_le
  have hpad := alignTo_le (strTable objects).length
  rw [length_append, length_singleton] at hend
  rw [stringTableSize]
  omega

theorem file_end (hk : k < objects.length) :
    fileOffset objects k + (objects.getD k root).payload.length ≤ imageSize objects := by
  have hend := (payload_segment hk).length_le
  rw [fileOffset, imageSize]
  split <;> omega

theorem fileOffset_file (h : (objects.getD k root).isDir = false) :
    fileOffset objects k = dataOffset objects + (payloads (objects.take k)).length := by
  simp only [fileOffset, h, Bool.false_eq_true, if_false]

theorem diskObject_type_dir :
    (diskObject objects k).type = typeDir ↔ (objects.getD k root).isDir = true := by
  simp only [diskObject]
  cases (objects.getD k root).isDir <;> decide

theorem diskObject_type_reg :
    (diskObject objects k).type = typeReg ↔ (objects.getD k root).isDir = false := by
  simp only [diskObject]
  cases (objects.getD k root).isDir <;> decide

theorem payload_dir (h : (objects.getD k root).isDir = true) :
    (objects.getD k root).payload = [] := by
  unfold HostEntry.isDir at h
  unfold HostEntry.payload
  split at h
  · rfl
  · cases h

theorem files_in_order {i : Nat} (hj : j < objects.length) (hji : j < i)
    (hfj : (objects.getD j root).isDir = false) (hfi : (objects.getD i root).isDir = false) :
    fileOffset objects j + (objects.getD j root).payload.length ≤ fileOffset objects i := by
  have hle := flatMap_take_length_le payloadEntry objects hj hji
  have hpad := alignTo_le (objects.getD j root).payload.length
  rw [← payloadEntry_length] at hpad
  rw [← getD_eq_getElem _ root hj] at hle
  rw [fileOffset_file hfj, fileOffset_file hfi, payloads, payloads]
  omega

/-- The numbers in an entry of the table, all of which fit their fields. -/
structure EntryFields (objects : List HostEntry) (k : Nat) : Prop where
  objectId : (diskObject objects k).objectId.toNat = k + 1
  parentId : (diskObject objects k).parentId.toNat = parentIdx objects k + 1
  mode : (diskObject objects k).mode.toNat = (objects.getD k root).mode
  nameOffset : (diskObject objects k).nameOffset.toNat = nameOffset objects k
  nameLength : (diskObject objects k).nameLength.toNat = (objects.getD k root).name.length
  dataOffset : (diskObject objects k).dataOffset.toNat = fileOffset objects k
  dataLength : (diskObject objects k).dataLength.toNat = (objects.getD k root).payload.length

theorem entry_fields (hl : ObjectList objects) (hf : Fits objects) (hk : k < objects.length) :
    EntryFields objects k := by
  have hcount := hf.count
  have hstr := hf.strtab
  have himg := hf.image
  have hfile := file_end hk
  have hparent : parentIdx objects k ≤ k := by
    by_cases h0 : k = 0
    · subst h0
      exact le_of_eq (parentIdx_root hl)
    · exact le_of_lt (parentIdx_spec hl (by omega) hk).1
  have hname : nameOffset objects k + (objects.getD k root).name.length < 2048 := by
    by_cases h0 : k = 0
    · subst h0
      rw [hl.root_first]
      exact Nat.zero_lt_succ _
    · exact lt_of_lt_of_le (name_end hl (by omega) hk) hstr
  have hmode : (objects.getD k root).mode < 2 ^ 32 := by
    unfold HostEntry.mode
    split <;> decide
  exact ⟨toNat_ofNat32 (by omega), toNat_ofNat32 (by omega), toNat_ofNat32 hmode,
    toNat_ofNat32 (by omega), toNat_ofNat32 (by omega), toNat_ofNat64 (by omega),
    toNat_ofNat64 (by omega)⟩

/-- The same for the superblock. -/
structure HeaderFields (objects : List HostEntry) (sb : Superblock) : Prop where
  imageSizeBytes : sb.imageSizeBytes.toNat = imageSize objects
  objectCount : sb.objectCount.toNat = objects.length
  objectTableSize : sb.objectTableSize.toNat = 64 * objects.length
  stringTableOffset : sb.stringTableOffset.toNat = stringTableOffset objects
  stringTableSize : sb.stringTableSize.toNat = stringTableSize objects
  dataOffset : sb.dataOffset.toNat = dataOffset objects
  dataSize : sb.dataSize.toNat = (payloads objects).length

theorem header_fields (hf : Fits objects) (crc : UInt32) :
    HeaderFields objects (superblock objects crc) := by
  have hcount := hf.count
  have himg := hf.image
  have hdata : dataOffset objects ≤ imageSize objects := Nat.le_add_right _ _
  have hstr : stringTableOffset objects ≤ dataOffset objects := Nat.le_add_right _ _
  have hsize : stringTableSize objects ≤ dataOffset objects := Nat.le_add_left _ _
  refine ⟨toNat_ofNat64 himg, toNat_ofNat32 (by omega),
    toNat_ofNat64 (by rw [objectTableSize]; omega), toNat_ofNat64 (by omega),
    toNat_ofNat64 (by omega), toNat_ofNat64 (by omega), ?_⟩
  exact (toNat_ofNat64 (by omega)).trans (Nat.add_sub_cancel_left ..)

theorem structPack_ok {fields : List (Nat × Nat)} (h : ∀ f ∈ fields, f.2 < 256 ^ f.1) :
    structPack fields = .ok (fields.flatMap fun f => leBytes f.1 f.2) := by
  have : ¬ ¬ ∀ f ∈ fields, f.2 < 256 ^ f.1 := not_not.mpr h
  simp only [structPack, rejectIf, this, if_false]
  rfl

/-- The arguments of the two formats, from structure values. -/
def entryArgs (o : DiskObject) : List (Nat × Nat) :=
  [(4, o.objectId.toNat), (4, o.parentId.toNat), (4, o.type.toNat), (4, o.mode.toNat),
   (4, o.uid.toNat), (4, o.gid.toNat), (4, o.nameOffset.toNat), (4, o.nameLength.toNat),
   (8, o.dataOffset.toNat), (8, o.dataLength.toNat), (8, o.reserved1.toNat), (8, o.reserved2.toNat)]

def headerArgs (sb : Superblock) : List (Nat × Nat) :=
  [(4, sb.magic.toNat), (4, sb.formatVersion.toNat), (4, sb.headerSize.toNat),
   (4, sb.sectorSize.toNat), (8, sb.imageSizeBytes.toNat), (4, sb.objectCount.toNat),
   (4, sb.rootObjectId.toNat), (8, sb.objectTableOffset.toNat), (8, sb.objectTableSize.toNat),
   (8, sb.stringTableOffset.toNat), (8, sb.stringTableSize.toNat), (8, sb.dataOffset.toNat),
   (8, sb.dataSize.toNat), (4, sb.metadataCrc32.toNat), (4, sb.reserved.toNat)]

theorem structPack_entry (o : DiskObject) : structPack (entryArgs o) = .ok (objectBytes o) := by
  rw [structPack_ok]
  · simp [entryArgs, objectBytes]
  simp only [entryArgs, forall_mem_cons]
  exact ⟨o.objectId.toNat_lt, o.parentId.toNat_lt, o.type.toNat_lt, o.mode.toNat_lt,
    o.uid.toNat_lt, o.gid.toNat_lt, o.nameOffset.toNat_lt, o.nameLength.toNat_lt,
    o.dataOffset.toNat_lt, o.dataLength.toNat_lt, o.reserved1.toNat_lt, o.reserved2.toNat_lt,
    forall_mem_nil _⟩

theorem structPack_header (sb : Superblock) :
    (structPack (headerArgs sb)).map (· ++ sb.padding) = .ok (superblockBytes sb) := by
  rw [structPack_ok]
  · simp [headerArgs, superblockBytes, Except.map]
  simp only [headerArgs, forall_mem_cons]
  exact ⟨sb.magic.toNat_lt, sb.formatVersion.toNat_lt, sb.headerSize.toNat_lt,
    sb.sectorSize.toNat_lt, sb.imageSizeBytes.toNat_lt, sb.objectCount.toNat_lt,
    sb.rootObjectId.toNat_lt, sb.objectTableOffset.toNat_lt, sb.objectTableSize.toNat_lt,
    sb.stringTableOffset.toNat_lt, sb.stringTableSize.toNat_lt, sb.dataOffset.toNat_lt,
    sb.dataSize.toNat_lt, sb.metadataCrc32.toNat_lt, sb.reserved.toNat_lt,
    forall_mem_nil _⟩

theorem pack_object (hl : ObjectList objects) (hf : Fits objects) (hk : k < objects.length)
    {parents : List Nat} (hp : parents.getD k 0 = parentIdx objects k + 1) :
    structPack (objectFields objects parents k) = .ok (objectBytes (diskObject objects k)) := by
  have he := entry_fields hl hf hk
  have htype : (diskObject objects k).type.toNat =
      if (objects.getD k root).isDir then 1 else 2 := by
    simp only [diskObject]
    split <;> rfl
  have hargs : objectFields objects parents k = entryArgs (diskObject objects k) := by
    simp only [objectFields, entryArgs, he.objectId, he.parentId, he.mode, he.nameOffset,
      he.nameLength, he.dataOffset, he.dataLength, hp, htype]
    rfl
  rw [hargs, structPack_entry]

theorem pack_superblock (hf : Fits objects) (crc : UInt32) :
    packSuperblock objects crc.toNat = .ok (superblockBytes (superblock objects crc)) := by
  have hh := header_fields hf crc
  have hargs : superblockFields objects crc.toNat = headerArgs (superblock objects crc) := by
    simp only [superblockFields, headerArgs, hh.imageSizeBytes, hh.objectCount, hh.objectTableSize,
      hh.stringTableOffset, hh.stringTableSize, hh.dataOffset, hh.dataSize]
    simp only [imageSize, Nat.add_sub_cancel_left]
    rfl
  rw [packSuperblock, hargs, ← structPack_header]
  rfl

theorem sibling_inj (hl : ObjectList objects) (hj0 : 0 < j) (hj : j < objects.length)
    (hk0 : 0 < k) (hk : k < objects.length) (hparent : parentIdx objects j = parentIdx objects k)
    (hname : (objects.getD j root).name = (objects.getD k root).name) : j = k := by
  apply hl.distinct j k hj hk
  rw [path_eq_snoc (hl.below_root j hj0 hj), path_eq_snoc (hl.below_root k hk0 hk),
    ← (parentIdx_spec hl hj0 hj).2.1, ← (parentIdx_spec hl hk0 hk).2.1, hparent, hname]

/-- The ids that the second pass of the script assigns. -/
def parentIds (objects : List HostEntry) : List Nat :=
  (List.range objects.length).map fun k => parentIdx objects k + 1

theorem parents_eq (hl : ObjectList objects) :
    objects.mapM (parentId objects) = .ok (parentIds objects) := by
  have hlist : objects = (List.range objects.length).map fun k => objects.getD k root := by
    apply ext_getElem (by simp)
    intro k h1 h2
    rw [getElem_map, getElem_range, getD_eq_getElem _ _ h1]
  nth_rewrite 2 [hlist]
  rw [mapM_map]
  apply mapM_ok_of_forall
  intro k hk
  exact parentId_eq hl (mem_range.mp hk)

/-- Siblings have different names, so the script's test for duplicates passes. -/
theorem siblings_distinct (hl : ObjectList objects) :
    (((parentIds objects).zip (objects.map HostEntry.name)).tail).Nodup := by
  rw [List.Nodup, pairwise_iff_getElem]
  intro i j hi hj hij heq
  simp only [length_tail, length_zip, parentIds, length_map, length_range, Nat.min_self] at hi hj
  simp only [getElem_tail, getElem_zip, parentIds, getElem_map, getElem_range,
    Prod.mk.injEq, Nat.add_right_cancel_iff] at heq
  obtain ⟨hparent, hname⟩ := heq
  have hname' : (objects.getD (i + 1) root).name = (objects.getD (j + 1) root).name := by
    rwa [getD_eq_getElem _ _ (by omega), getD_eq_getElem _ _ (by omega)]
  have := sibling_inj hl (Nat.succ_pos i) (by omega) (Nat.succ_pos j) (by omega) hparent hname'
  omega

theorem objectBytes_length (o : DiskObject) : (objectBytes o).length = 64 := by
  simp [objectBytes, leBytes_length]

theorem superblockBytes_length (sb : Superblock) : (superblockBytes sb).length = 512 := by
  simp [superblockBytes, leBytes_length, sb.padding_length]

theorem objTable_length (objects : List HostEntry) :
    (objTable objects).length = 64 * objects.length := by
  rw [objTable, flatMap_length_const fun k => objectBytes_length _, length_range]

theorem imageOf_length (objects : List HostEntry) :
    (imageOf objects).length = imageSize objects := by
  simp only [imageOf, length_append, superblockBytes_length, padTo_length, objTable_length,
    imageSize, dataOffset, stringTableOffset, stringTableSize, objectTableSize]

/-- **What the generator writes.** For a tree whose names pass the filter and
which fits, the script succeeds. -/
theorem buildImage_eq {t : HostTree} (hf : Fits (objectsOf t))
    (hnames : ∀ e ∈ t.entries, nameOk e.name = true) :
    buildImage t = .ok (imageOf (objectsOf t)) := by
  have hl := objectsOf_list t
  have hfilter : forUpTo (objectsOf t).length (fun k => rejectIf BuildErr.invalidFilename
      (k > 0 ∧ nameOk ((objectsOf t).getD k root).name = false)) = .ok () := by
    rw [forUpTo_ok]
    intro k hk
    rw [rejectIf_ok]
    rintro ⟨h0, hbad⟩
    obtain ⟨k, rfl⟩ : ∃ j, k = j + 1 := ⟨k - 1, by omega⟩
    have hmem : (sortEntries t.entries).getD k root ∈ t.entries :=
      (sortEntries_perm _).mem_iff.mp (getD_mem (by simpa [objectsOf] using hk))
    rw [show (objectsOf t).getD (k + 1) root = (sortEntries t.entries).getD k root from rfl,
      hnames _ hmem] at hbad
    cases hbad
  have hdup := rejectIf_ok (e := BuildErr.duplicateFilename) (u := ()) |>.mpr
    (not_not.mpr (siblings_distinct hl))
  have hrows : (List.range (objectsOf t).length).mapM
      (fun k => structPack (objectFields (objectsOf t) (parentIds (objectsOf t)) k)) =
      .ok ((List.range (objectsOf t).length).map
        fun k => objectBytes (diskObject (objectsOf t) k)) := by
    apply mapM_ok_of_forall
    intro k hk
    have hk' := mem_range.mp hk
    apply pack_object hl hf hk'
    rw [getD_eq_getElem _ _ (by simpa [parentIds] using hk')]
    simp [parentIds]
  have hsb0 := pack_superblock hf 0
  have hsb := pack_superblock hf (imageCrc (objectsOf t))
  have hsize := rejectIf_ok (e := BuildErr.sizeMismatch) (u := ()) |>.mpr
    (not_not.mpr (imageOf_length (objectsOf t)))
  simp only [buildImage, hfilter, parents_eq hl, hdup, hrows, ok_bind]
  rw [show (0 : Nat) = (0 : UInt32).toNat from rfl, hsb0, ok_bind]
  have hflat : ((List.range (objectsOf t).length).map
      fun k => objectBytes (diskObject (objectsOf t) k)).flatten = objTable (objectsOf t) :=
    flatMap_def.symm
  simp only [hflat]
  rw [← imageCrc, hsb, ok_bind, ← imageOf, hsize, ok_bind]
  rfl

end XnuXzs.Mkfs
