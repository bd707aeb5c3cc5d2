import XnuXzs.Xzsfs.Image

/-!
# From the generator to the mounted filesystem

An image written by `mkxzsfs.py`, mounted and read by the driver.
-/

namespace XnuXzs.Mkfs

open XnuXzs.Lib XnuXzs.Xzsfs List

section
variable {objects : List HostEntry} {rd : BlockRead} {img : List UInt8}

theorem superblock_segment (objects : List HostEntry) : SegmentAt (imageOf objects) 0
    (superblockBytes (superblock objects (imageCrc objects))) := by
  simp only [imageOf, append_assoc]
  exact segmentAt_append_left _ _

theorem objTable_segment (objects : List HostEntry) :
    SegmentAt (imageOf objects) 512 (objTable objects) := by
  have h := segmentAt_append_right (superblockBytes (superblock objects (imageCrc objects)))
    (padTo (objTable objects) ++ padTo (strTable objects) ++ payloads objects)
  rw [superblockBytes_length] at h
  simp only [imageOf, padTo, append_assoc] at h ⊢
  exact h.trans (segmentAt_append_left _ _)

theorem strtab_segment (objects : List HostEntry) :
    SegmentAt (imageOf objects) (stringTableOffset objects) (padTo (strTable objects)) := by
  have h := segmentAt_append_right (superblockBytes (superblock objects (imageCrc objects)) ++
    padTo (objTable objects)) (padTo (strTable objects) ++ payloads objects)
  rw [length_append, superblockBytes_length, padTo_length, objTable_length] at h
  rw [imageOf, append_assoc]
  exact h.trans (segmentAt_append_left _ _)

theorem payloads_segment (objects : List HostEntry) :
    SegmentAt (imageOf objects) (dataOffset objects) (payloads objects) := by
  have h := segmentAt_append_right (superblockBytes (superblock objects (imageCrc objects)) ++
    padTo (objTable objects) ++ padTo (strTable objects)) (payloads objects)
  rwa [length_append, length_append, superblockBytes_length, padTo_length,
    padTo_length, objTable_length] at h

theorem object_segment {k : Nat} (hk : k < objects.length) :
    SegmentAt (objTable objects) (64 * k) (objectBytes (diskObject objects k)) := by
  have h := segmentAt_flatMap (fun k => objectBytes (diskObject objects k))
    (List.range objects.length) (k := k) (by simpa using hk)
  rw [getElem_range, flatMap_length_const (fun k => objectBytes_length _), length_take,
    length_range, min_eq_left (le_of_lt hk)] at h
  exact h

theorem read_superblock (hs : Serves rd (imageOf objects)) :
    readSuperblock rd = .ok (superblock objects (imageCrc objects)) := by
  have hseg := superblock_segment objects
  have hlen := hseg.length_le
  rw [superblockBytes_length] at hlen
  obtain ⟨sec, hr, hb⟩ := serves_bytes hs 0 0 512 (by decide) (by decide) (by omega)
  have htake := hseg.take_drop
  rw [superblockBytes_length] at htake
  rw [htake] at hb
  rw [readSuperblock, hr]
  exact congrArg Except.ok (superblockAt_bytes hb)

theorem payloads_aligned (es : List HostEntry) : (payloads es).length % 512 = 0 := by
  induction es with
  | nil => rfl
  | cons e es ih =>
    have he := alignTo_mod e.payload.length
    rw [← payloadEntry_length] at he
    rw [payloads, flatMap_cons, length_append, Nat.add_mod, he]
    rw [payloads] at ih
    rw [ih]

/-- How the parts of the image follow each other. -/
structure LayoutFacts (objects : List HostEntry) : Prop where
  strtab_aligned : stringTableOffset objects % 512 = 0
  strtab_after : 512 + 64 * objects.length ≤ stringTableOffset objects
  strtab_near : stringTableOffset objects < 512 + 64 * objects.length + 512
  strtab_pos : 0 < stringTableSize objects
  strtab_sectors : stringTableSize objects % 512 = 0
  data_after : dataOffset objects = stringTableOffset objects + stringTableSize objects
  image_end : imageSize objects = dataOffset objects + (payloads objects).length
  payload_sectors : (payloads objects).length % 512 = 0

theorem layout_facts (objects : List HostEntry) : LayoutFacts objects := by
  have hmod := alignTo_mod (64 * objects.length)
  have hle := alignTo_le (64 * objects.length)
  have hlt := alignTo_lt (64 * objects.length)
  have hoff : stringTableOffset objects = 512 + alignTo (64 * objects.length) 512 := rfl
  refine ⟨by omega, by omega, by omega, ?_, alignTo_mod _, rfl, rfl, payloads_aligned objects⟩
  exact lt_of_lt_of_le (Nat.succ_pos _) (alignTo_le (strTable objects).length)

theorem superblock_valid_iff (hl : ObjectList objects) (hf : Fits objects) (crc : UInt32) :
    ValidSuperblock (superblock objects crc) ↔ 2048 ≤ imageSize objects := by
  have hh := header_fields hf crc
  constructor
  · intro hv
    have := hv.image_min
    rwa [hh.imageSizeBytes] at this
  intro hmin
  obtain ⟨hal, hafter, hnear, hpos, hsec, hdata, himg, hpay⟩ := layout_facts objects
  have hcount := hh.objectCount
  refine ⟨rfl, rfl, rfl, rfl, ?_, ?_, hcount ▸ hl.pos, hcount ▸ hf.count, rfl, rfl, ?_, ?_, ?_,
    ?_, ?_, ?_, ?_, ?_, ?_⟩ <;>
  simp only [hh.imageSizeBytes, hh.objectTableSize, hh.stringTableOffset, hh.stringTableSize,
    hh.dataOffset, hh.dataSize, hcount]
  · omega
  · exact hmin
  · exact hafter
  · exact hal
  · exact hpos
  · exact hf.strtab
  · exact hsec
  · omega
  · omega
  · omega

theorem loaded_bytes {seg : List UInt8} {off : Nat} {b : Buf} (hs : Serves rd img)
    (hseg : SegmentAt img off seg) (hb : HoldsImage rd off seg.length b) :
    bytesAt b.byte 0 seg.length = seg := by
  apply bytesAt_eq_of_getElem
  intro i hi
  have hlen := hseg.length_le
  have hbyte := hb i hi
  rw [hs (off + i) (by omega), Option.some.injEq] at hbyte
  rw [zero_add, ← hbyte]
  obtain ⟨pre, post, rfl, rfl⟩ := hseg
  simp [getElem_append_right, getElem_append_left, hi]

theorem not_failsWithin_image (hs : Serves rd img) {lba n : Nat}
    (hend : 512 * (lba + n) ≤ img.length) : ¬ FailsWithin rd lba n := by
  rintro ⟨s, e, hlt, he⟩
  obtain ⟨sec, hr, -⟩ := serves_sector hs (p := 512 * (lba + s)) (by omega)
  rw [Nat.mul_div_cancel_left _ (by decide), he] at hr
  cases hr

/-- The memory begins with these bytes. -/
def Begins (m : Nat → UInt8) (bytes : List UInt8) : Prop := bytesAt m 0 bytes.length = bytes

theorem load_image (hl : ObjectList objects) (hf : Fits objects) (hmin : 2048 ≤ imageSize objects)
    (hs : Serves rd (imageOf objects)) (ob sb : Nat → UInt8) :
    let r := mountLoad rd (superblock objects (imageCrc objects)) ob sb
    r.result = .ok () ∧ Begins r.objects.byte (objTable objects) ∧
      Begins r.strtab.byte (padTo (strTable objects)) := by
  have hv := (superblock_valid_iff hl hf (imageCrc objects)).mpr hmin
  have hh := header_fields hf (imageCrc objects)
  have hlen := imageOf_length objects
  obtain ⟨hal, hafter, hnear, hpos, hsec, hdata, himg, hpay⟩ := layout_facts objects
  have hcount := hf.count
  have hgap : objSecCount (superblock objects (imageCrc objects)) =
      (stringTableOffset objects - 512) / 512 := by
    have hle : (superblock objects (imageCrc objects)).objectTableOffset ≤
        (superblock objects (imageCrc objects)).stringTableOffset := by
      rw [UInt64.le_iff_toNat_le, hh.stringTableOffset, hv.objectTableOffset]
      omega
    rw [objSecCount, UInt64.toNat_sub_of_le _ _ hle, hh.stringTableOffset, hv.objectTableOffset]
    omega
  have hok : (mountLoad rd (superblock objects (imageCrc objects)) ob sb).result = .ok () :=
    (mountLoad_ok ob sb hv).mpr ⟨not_failsWithin_image hs (by rw [hgap]; omega),
      not_failsWithin_image hs (by rw [hh.stringTableOffset, hh.stringTableSize]; omega)⟩
  refine ⟨hok, loaded_bytes hs (objTable_segment objects) ?_,
    loaded_bytes hs (strtab_segment objects) ?_⟩
  · have := mountLoad_objects_holds ob sb hv (by rw [hgap, hh.objectCount]; omega)
      (by rw [hgap, hh.objectCount]; omega) hok
    rwa [hh.objectCount, ← objTable_length] at this
  · have := mountLoad_strtab_holds ob sb hv hok
    rwa [hh.stringTableOffset, hh.stringTableSize, stringTableSize, ← padTo_length] at this

variable {ob m : Nat → UInt8} {i k : Nat}

theorem objectAt_eq (hob : Begins ob (objTable objects)) (hk : k < objects.length) :
    objectAt ob k = diskObject objects k := by
  have h := (object_segment hk).bytesAt hob
  rw [objectBytes_length, zero_add] at h
  exact objectAt_bytes h

theorem name_bytes (hm : Begins m (padTo (strTable objects))) (hl : ObjectList objects)
    (h0 : 0 < k) (hk : k < objects.length) :
    bytesAt m (nameOffset objects k) (objects.getD k root).name.length =
      (objects.getD k root).name ∧
    m (nameOffset objects k + (objects.getD k root).name.length) = 0 := by
  have h := ((padTo_segment (strTable objects)).trans (name_segment hl h0 hk)).bytesAt hm
  rw [length_append, bytesAt_append] at h
  obtain ⟨hname, hnul⟩ := append_inj h (bytesAt_length ..)
  simp only [zero_add] at hname hnul
  refine ⟨hname, ?_⟩
  simpa [bytesAt] using hnul

theorem strtab_starts_nul (hm : Begins m (padTo (strTable objects))) : m 0 = 0 := by
  have hseg : SegmentAt (padTo (strTable objects)) 0 [0] :=
    (padTo_segment (strTable objects)).trans (segmentAt_append_left [0] (objects.flatMap nameEntry))
  simpa [bytesAt] using hseg.bytesAt hm

theorem crc_passes (hob : Begins ob (objTable objects)) (hm : Begins m (padTo (strTable objects)))
    (hf : Fits objects) :
    validateMetadataCrc (superblock objects (imageCrc objects)) ob m = .ok () := by
  have hh := header_fields hf (imageCrc objects)
  rw [Begins, objTable_length] at hob
  rw [Begins, padTo_length] at hm
  simp only [validateMetadataCrc, rejectIf_ok, not_not, ne_eq, xzsfsCrc32_eq, hh.objectTableSize,
    hh.stringTableSize, stringTableSize, hob, hm]
  rfl

theorem child_valid (hob : Begins ob (objTable objects))
    (hm : Begins m (padTo (strTable objects))) (hl : ObjectList objects) (hf : Fits objects)
    (crc : UInt32) (h0 : 0 < i) (hi : i < objects.length) :
    ValidChild (superblock objects crc) (objectAt ob) m i := by
  have he := entry_fields hl hf hi
  obtain ⟨hlt, hpath, hdir⟩ := parentIdx_spec hl h0 hi
  obtain ⟨hne, -, -, hslash, hnul⟩ := hl.names i h0 hi
  obtain ⟨hname, hend⟩ := name_bytes hm hl h0 hi
  have hin := name_end hl h0 hi
  have hstr := hf.strtab
  have hobj := objectAt_eq hob hi
  have hchar : ∀ c, c < (objects.getD i root).name.length →
      m (nameOffset objects i + c) ∈ (objects.getD i root).name := by
    intro c hc
    rw [← hname]
    exact mem_map.mpr ⟨c, mem_range.mpr hc, rfl⟩
  constructor
  · rw [hobj, he.parentId]
    exact Nat.succ_pos _
  · rw [hobj, he.parentId, he.objectId]
    omega
  · rw [hobj, he.parentId, Nat.add_sub_cancel, objectAt_eq hob (by omega)]
    simp only [diskObject, hdir, if_true]
  · rw [hobj, he.nameLength]
    exact length_pos_iff.mpr hne
  · rw [hobj, he.nameLength, he.nameOffset, (header_fields hf crc).stringTableSize]
    exact hin
  · rw [hobj, UInt32.toNat_add, he.nameLength, he.nameOffset, Nat.mod_eq_of_lt (by omega)]
    exact hend
  · intro c hc
    rw [hobj, he.nameLength] at hc
    rw [hobj, he.nameOffset]
    have := hchar c hc
    exact ⟨fun h => hslash (show slash ∈ _ from h ▸ this), fun h => hnul (h ▸ this)⟩
  · intro j hj hparent hlen heq
    have hj' : j < objects.length := by omega
    have hej := entry_fields hl hf hj'
    rw [objectAt_eq hob hj', hobj] at hparent hlen heq
    have hlen' := congrArg UInt32.toNat hlen
    have hparent' := congrArg UInt32.toNat hparent
    rw [hej.nameLength, he.nameLength] at hlen'
    rw [hej.parentId, he.parentId, Nat.add_right_cancel_iff] at hparent'
    rw [hej.nameOffset, he.nameOffset, he.nameLength] at heq
    by_cases hj0 : j = 0
    · subst hj0
      rw [hl.root_first] at hlen'
      exact hne (length_eq_zero_iff.mp hlen'.symm)
    have hnamej := (name_bytes hm hl (pos_of_ne_zero hj0) hj').1
    rw [hlen', bytesAt_congr heq, hname] at hnamej
    have := sibling_inj hl (pos_of_ne_zero hj0) hj' h0 hi hparent' hnamej.symm
    omega

theorem payload_valid (hob : Begins ob (objTable objects)) (hl : ObjectList objects)
    (hf : Fits objects) (crc : UInt32) (hi : i < objects.length) :
    ValidPayload (superblock objects crc) (objectAt ob) i := by
  have he := entry_fields hl hf hi
  have hh := header_fields hf crc
  have hobj := objectAt_eq hob hi
  have hend := file_end hi
  have hlt := hf.image
  have hfile : (objectAt ob i).type ≠ typeDir → (objects.getD i root).isDir = false := by
    rw [hobj, Ne, diskObject_type_dir]
    exact Bool.eq_false_of_not_eq_true
  constructor
  · intro hdir
    rw [hobj, diskObject_type_dir] at hdir
    rw [hobj, ← UInt64.toNat_inj, ← UInt64.toNat_inj, he.dataOffset, he.dataLength,
      payload_dir hdir, fileOffset, hdir]
    exact ⟨rfl, rfl⟩
  · intro hreg
    rw [hobj, he.dataOffset, hh.dataOffset, fileOffset_file (hfile hreg)]
    exact Nat.le_add_right _ _
  · intro hreg
    rw [hobj, he.dataOffset, fileOffset_file (hfile hreg)]
    have hpay := payloads_aligned (objects.take i)
    obtain ⟨hal, -, -, -, hsec, hdata, -, -⟩ := layout_facts objects
    omega
  · intro hreg
    rw [hobj, he.dataOffset, he.dataLength, hh.imageSizeBytes, Nat.mod_eq_of_lt (by omega)]
    exact hend
  · intro hreg j hj hregj
    have hj' : j < objects.length := by omega
    have hej := entry_fields hl hf hj'
    have hendj := file_end hj'
    rw [objectAt_eq hob hj', diskObject_type_reg] at hregj
    rw [objectAt_eq hob hj', hobj, hej.dataOffset, hej.dataLength, he.dataOffset,
      Nat.mod_eq_of_lt (by omega)]
    exact .inl (files_in_order hj' hj hregj (hfile hreg))

theorem graph_valid (hob : Begins ob (objTable objects))
    (hm : Begins m (padTo (strTable objects))) (hl : ObjectList objects) (hf : Fits objects)
    (crc : UInt32) :
    ValidGraph (superblock objects crc) (objectAt ob) m := by
  have hroot := objectAt_eq hob hl.pos
  have he := entry_fields hl hf hl.pos
  have hfirst := hl.root_first
  constructor
  · rw [hroot]
    rfl
  · rw [hroot, ← UInt32.toNat_inj, he.parentId, parentIdx_root hl]
    rfl
  · rw [hroot, diskObject_type_dir, hfirst]
    rfl
  · rw [hroot]
    rfl
  · rw [hroot, ← UInt32.toNat_inj, he.nameLength, hfirst]
    rfl
  · exact strtab_starts_nul hm
  intro i hi
  rw [(header_fields hf crc).objectCount] at hi
  refine ⟨?_, ?_, fun h0 => child_valid hob hm hl hf crc h0 hi, payload_valid hob hl hf crc hi⟩
  · rw [objectAt_eq hob hi]
    exact UInt32.ofNat_add i 1
  · rw [objectAt_eq hob hi, diskObject_type_dir, diskObject_type_reg]
    cases (objects.getD i root).isDir <;> simp

theorem objName_eq (hob : Begins ob (objTable objects)) (hm : Begins m (padTo (strTable objects)))
    (hl : ObjectList objects) (hf : Fits objects) (h0 : 0 < i) (hi : i < objects.length) :
    objName (objectAt ob) m i = (objects.getD i root).name := by
  have he := entry_fields hl hf hi
  rw [objName, objectAt_eq hob hi, he.nameOffset, he.nameLength]
  exact (name_bytes hm hl h0 hi).1

theorem pathOf_eq (hob : Begins ob (objTable objects)) (hm : Begins m (padTo (strTable objects)))
    (hl : ObjectList objects) (hf : Fits objects) (fs : CoreFs) (crc : UInt32) (fuel i : Nat)
    (hfuel : i ≤ fuel) (hi : i < objects.length) :
    pathFrom (parentIndex (initFs fs (superblock objects crc) (objectAt ob) m))
      (nodeName (initFs fs (superblock objects crc) (objectAt ob) m)) fuel i =
      (objects.getD i root).path := by
  have hcount := (header_fields hf crc).objectCount
  have hg := graph_valid hob hm hl hf crc
  induction fuel generalizing i with
  | zero =>
    rw [show i = 0 by omega, hl.root_first]
    rfl
  | succ fuel ih =>
    unfold pathFrom
    by_cases h0 : i = 0
    · rw [h0, hl.root_first]
      rfl
    have hpos := pos_of_ne_zero h0
    obtain ⟨hlt, hpath, -⟩ := parentIdx_spec hl hpos hi
    rw [if_neg h0, parentIndex_initFs (by omega), initFs_name hg (by omega),
      objName_eq hob hm hl hf hpos hi, objectAt_eq hob hi, (entry_fields hl hf hi).parentId,
      Nat.add_sub_cancel, ih _ (by omega) (by omega), hpath,
      ← path_eq_snoc (hl.below_root i hpos hi)]

/-- An entry of the host tree is found under its path, with its type, and reads at any offset
return its bytes. -/
def Resolved (rd : BlockRead) (fs : CoreFs) (e : HostEntry) : Prop :=
  ∃ i, walk fs e.path = .ok i ∧
    match e.node with
    | .dir => (fs.nodes i).type = typeDir
    | .file _ content => (fs.nodes i).type = typeReg ∧
      ∀ offset len : UInt64, offset.toNat + len.toNat < 2 ^ 64 →
        coreRead rd (fs.nodes i) offset len = .ok ((content.drop offset.toNat).take len.toNat)

/-- The mount succeeds, whatever its memory held, and finds every entry. -/
def Mounts (rd : BlockRead) (entries : List HostEntry) : Prop :=
  ∀ ob sb fs, ∃ fs', mount rd ob sb fs = .ok fs' ∧ ∀ e ∈ entries, Resolved rd fs' e

theorem mount_image (hl : ObjectList objects) (hf : Fits objects)
    (hmin : 2048 ≤ imageSize objects) (hs : Serves rd (imageOf objects)) (ob sb : Nat → UInt8)
    (fs : CoreFs) :
    ∃ ob' m, Begins ob' (objTable objects) ∧
      Begins m (padTo (strTable objects)) ∧
      mount rd ob sb fs =
        .ok (initFs fs (superblock objects (imageCrc objects)) (objectAt ob') m) := by
  obtain ⟨hok, hob, hm⟩ := load_image hl hf hmin hs ob sb
  refine ⟨_, _, hob, hm, ?_⟩
  have hvalid := validateSuperblock_ok.mpr
    ((superblock_valid_iff hl hf (imageCrc objects)).mpr hmin)
  have hgraph := validateGraph_ok.mpr (graph_valid hob hm hl hf (imageCrc objects))
  simp only [mount, read_superblock hs, ok_bind, hvalid, hok, validateMetadata,
    crc_passes hob hm hf, hgraph]
  rfl

theorem file_segment (hi : i < objects.length) (hfile : (objects.getD i root).isDir = false) :
    SegmentAt (imageOf objects) (fileOffset objects i) (objects.getD i root).payload := by
  rw [fileOffset_file hfile]
  exact (payloads_segment objects).trans (payload_segment hi)

theorem read_file (hl : ObjectList objects) (hf : Fits objects) (hs : Serves rd (imageOf objects))
    (hi : i < objects.length) (hfile : (objects.getD i root).isDir = false) (offset len : UInt64)
    (hsum : offset.toNat + len.toNat < 2 ^ 64) :
    coreRead rd (nodeOf (diskObject objects i)) offset len =
      .ok (((objects.getD i root).payload.drop offset.toNat).take len.toNat) := by
  have he := entry_fields hl hf hi
  have hseg := file_segment hi hfile
  have hlen := imageOf_length objects
  have himg := hf.image
  have hend : (diskObject objects i).dataOffset.toNat + (diskObject objects i).dataLength.toNat ≤
      (imageOf objects).length := by
    rw [he.dataOffset, he.dataLength]
    exact hseg.length_le
  rw [coreRead_serves hs (by omega) (diskObject_type_reg.mpr hfile) hend offset len hsum]
  simp only [nodeOf, he.dataOffset, he.dataLength, hseg.take_drop]

theorem imageOf_mounts (hl : ObjectList objects) (hf : Fits objects)
    (hmin : 2048 ≤ imageSize objects) (hs : Serves rd (imageOf objects)) : Mounts rd objects := by
  intro ob sb fs
  obtain ⟨ob', m, hob, hm, hmount⟩ := mount_image hl hf hmin hs ob sb fs
  refine ⟨_, hmount, ?_⟩
  intro e he
  obtain ⟨i, hi, hget⟩ := getElem_of_mem he
  rw [← getD_eq_getElem _ root hi] at hget
  have hcount := (header_fields hf (imageCrc objects)).objectCount
  have hi' : i < (superblock objects (imageCrc objects)).objectCount.toNat := by omega
  have hdots : NoDotNames (superblock objects (imageCrc objects)) (objectAt ob') m := by
    intro k hk h0
    rw [objName_eq hob hm hl hf h0 (by omega)]
    exact ⟨(hl.names k h0 (by omega)).2.1, (hl.names k h0 (by omega)).2.2.1⟩
  refine ⟨i, ?_, ?_⟩
  · rw [← hget, ← pathOf_eq hob hm hl hf fs (imageCrc objects) i i (le_refl i) hi]
    exact walk_pathOf ((superblock_valid_iff hl hf _).mpr hmin) (graph_valid hob hm hl hf _) hdots
      hi'
  rw [initFs_node hi', objectAt_eq hob hi]
  cases hnode : e.node with
  | dir =>
    apply diskObject_type_dir.mpr
    rw [hget, HostEntry.isDir, hnode]
  | file x content =>
    have hfile : (objects.getD i root).isDir = false := by
      rw [hget, HostEntry.isDir, hnode]
    have hpay : (objects.getD i root).payload = content := by
      rw [hget, HostEntry.payload, hnode]
    refine ⟨diskObject_type_reg.mpr hfile, fun offset len hsum => ?_⟩
    rw [read_file hl hf hs hi hfile offset len hsum, hpay]

/-- More than one sector of objects or of names, or a file with contents. -/
def EnoughSectors (t : HostTree) : Prop :=
  8 < t.entries.length + 1 ∨ 512 < (strTable (objectsOf t)).length ∨
  ∃ e ∈ t.entries, e.payload ≠ []

theorem payloads_pos (es : List HostEntry) :
    0 < (payloads es).length ↔ ∃ e ∈ es, e.payload ≠ [] := by
  induction es with
  | nil => simp [payloads]
  | cons e es ih =>
    have he : 0 < (payloadEntry e).length ↔ e.payload ≠ [] := by
      rw [payloadEntry_length, ← length_pos_iff, alignTo]
      omega
    rw [payloads] at ih
    rw [payloads, flatMap_cons, length_append, exists_mem_cons_iff, ← he, ← ih]
    omega

theorem objectsOf_length (t : HostTree) : (objectsOf t).length = t.entries.length + 1 := by
  rw [objectsOf, length_cons, (sortEntries_perm t.entries).length_eq]

theorem objectsOf_payloads (t : HostTree) :
    (∃ e ∈ objectsOf t, e.payload ≠ []) ↔ ∃ e ∈ t.entries, e.payload ≠ [] := by
  rw [objectsOf, exists_mem_cons_iff]
  simp only [(sortEntries_perm t.entries).mem_iff]
  exact ⟨fun h => h.resolve_left (fun hroot => hroot rfl), Or.inr⟩

theorem enoughSectors_iff (t : HostTree) : 2048 ≤ imageSize (objectsOf t) ↔ EnoughSectors t := by
  have hlen := objectsOf_length t
  have hstr : 0 < (strTable (objectsOf t)).length := Nat.succ_pos _
  have hpay := payloads_aligned (objectsOf t)
  rw [EnoughSectors, ← objectsOf_payloads, ← payloads_pos]
  simp only [imageSize, dataOffset, stringTableOffset, stringTableSize, objectTableSize, alignTo,
    hlen]
  omega

/-- A disk that holds the image and nothing else. -/
def imageDevice (img : List UInt8) : BlockRead := fun lba =>
  if 512 * (lba + 1) ≤ img.length then .ok fun i => img.getD (512 * lba + i) 0
  else .error (.dev 5)

theorem imageDevice_serves (hsec : img.length % 512 = 0) : Serves (imageDevice img) img := by
  intro p hp
  have hin : 512 * (p / 512 + 1) ≤ img.length := by omega
  have hpos := Nat.div_add_mod p 512
  simp only [imageByte, imageDevice, hin, if_true, hpos]
  rw [getD_eq_getElem _ _ hp]

/-- A mount that succeeds has seen an image of four sectors. -/
theorem mount_image_large (hl : ObjectList objects) (hf : Fits objects)
    (hs : Serves rd (imageOf objects)) {ob sb : Nat → UInt8} {fs fs' : CoreFs}
    (hm : mount rd ob sb fs = .ok fs') : 2048 ≤ imageSize objects := by
  rw [mount, read_superblock hs, ok_bind, seq_ok] at hm
  exact (superblock_valid_iff hl hf _).mp (validateSuperblock_ok.mp hm.1)

theorem imageOf_sectors (objects : List HostEntry) : (imageOf objects).length % 512 = 0 := by
  obtain ⟨hal, -, -, -, hsec, hdata, hend, hpay⟩ := layout_facts objects
  rw [imageOf_length]
  omega

/-- **A tree round-trips exactly when its image has four sectors.** For every tree whose names
pass the filter, with at most 32 objects and 2048 bytes of names, the script writes an image;
and from a disk that holds it the mount succeeds and every path leads to an object of its type
with its bytes, if and only if the tree needs a second sector of objects or names or has a file
that is not empty. -/
theorem roundTrip_iff (t : HostTree) (hnames : ∀ e ∈ t.entries, nameOk e.name = true)
    (hcount : t.entries.length + 1 ≤ 32) (hstr : stringTableSize (objectsOf t) ≤ 2048)
    (himg : imageSize (objectsOf t) < 2 ^ 64) :
    ∃ img, buildImage t = .ok img ∧
      ((∀ rd, Serves rd img → Mounts rd t.entries) ↔ EnoughSectors t) := by
  have hl := objectsOf_list t
  have hf : Fits (objectsOf t) := ⟨by rw [objectsOf_length]; exact hcount, hstr, himg⟩
  refine ⟨_, buildImage_eq hf hnames, ?_⟩
  rw [← enoughSectors_iff]
  constructor
  · intro h
    have hs := imageDevice_serves (imageOf_sectors (objectsOf t))
    obtain ⟨fs', hmount, -⟩ := h _ hs (fun _ => 0) (fun _ => 0) emptyFs
    exact mount_image_large hl hf hs hmount
  intro hmin rd hs ob sb fs
  obtain ⟨fs', hmount, hres⟩ := imageOf_mounts hl hf hmin hs ob sb fs
  refine ⟨fs', hmount, fun e he => hres e ?_⟩
  exact mem_cons_of_mem _ ((sortEntries_perm t.entries).mem_iff.mpr he)

end

def fileTree (content : List UInt8) : HostTree where
  entries := [⟨[[0x61]], .file false content⟩]
  distinct := nodup_singleton _
  below_root := by simp
  parents := by simp
  names := by simp

theorem objectsOf_fileTree (content : List UInt8) :
    objectsOf (fileTree content) = [root, ⟨[[0x61]], .file false content⟩] := by
  simp [objectsOf, sortEntries, fileTree]

theorem imageSize_fileTree (content : List UInt8) :
    imageSize (objectsOf (fileTree content)) = 1536 + alignTo content.length 512 := by
  rw [objectsOf_fileTree, imageSize, payloads, flatMap_cons, flatMap_singleton,
    length_append, payloadEntry_length, payloadEntry_length]
  have hdata : dataOffset [root, ⟨[[0x61]], .file false content⟩] = 1536 := by
    simp [dataOffset, stringTableOffset, objectTableSize, stringTableSize, strTable, nameEntry,
      HostEntry.name, root, alignTo]
  have hroot : alignTo root.payload.length 512 = 0 := rfl
  rw [hdata, hroot, zero_add]
  rfl

theorem roundTrip_one_byte : ∃ img, buildImage (fileTree [0x68]) = .ok img ∧
    ∀ rd, Serves rd img → Mounts rd (fileTree [0x68]).entries := by
  obtain ⟨img, hbuild, hiff⟩ := roundTrip_iff (fileTree [0x68]) (by decide) (by decide)
    (by rw [objectsOf_fileTree]; decide) (by rw [imageSize_fileTree]; decide)
  exact ⟨img, hbuild, hiff.mpr (.inr (.inr ⟨_, mem_cons_self, by decide⟩))⟩

/-- A tree whose only file is empty gives an image of three sectors, which the
mount refuses. -/
theorem roundTrip_empty_file : ∃ img, buildImage (fileTree []) = .ok img ∧ img.length = 1536 ∧
    Serves (imageDevice img) img ∧
    ∀ ob sb fs fs', mount (imageDevice img) ob sb fs ≠ .ok fs' := by
  have hobjects := objectsOf_fileTree []
  have hsize : imageSize (objectsOf (fileTree [])) = 1536 := imageSize_fileTree []
  have hf : Fits (objectsOf (fileTree [])) :=
    ⟨by rw [hobjects]; decide, by rw [hobjects]; decide, by omega⟩
  have hs := imageDevice_serves (imageOf_sectors (objectsOf (fileTree [])))
  refine ⟨_, buildImage_eq hf (by decide), (imageOf_length _).trans hsize, hs, ?_⟩
  intro ob sb fs fs' hm
  have := mount_image_large (objectsOf_list _) hf hs hm
  omega

end XnuXzs.Mkfs
