import Mathlib.Data.List.GetD
import XnuXzs.Lib.Bytes
import XnuXzs.Lib.Crc32
import XnuXzs.Lib.Guard

/-!
# The image generator

`build_image` of `scripts/mkxzsfs.py`, from a directory tree to bytes. Only the sort compares
whole paths. Numbers are unbounded until `struct.pack` refuses one. Manifest and digests are
left out.
-/

namespace XnuXzs.Mkfs

open XnuXzs.Lib List

abbrev Name := List UInt8

/-- A directory, or a file with `os.access(path, os.X_OK)` and its bytes. -/
inductive HostNode where
  | dir
  | file (executable : Bool) (content : List UInt8)
  deriving DecidableEq, Repr

structure HostEntry where
  path : List Name
  node : HostNode
  deriving DecidableEq, Repr

/-- What lies below `root_dir`, in the order of `os.walk`. Host names are not empty, not `.` or
`..`, and hold no separator and no NUL. -/
structure HostTree where
  entries : List HostEntry
  distinct : (entries.map HostEntry.path).Nodup
  below_root : ∀ e ∈ entries, e.path ≠ []
  parents : ∀ e ∈ entries, e.path.dropLast ≠ [] →
    ∃ d ∈ entries, d.path = e.path.dropLast ∧ d.node = .dir
  names : ∀ e ∈ entries, ∀ n ∈ e.path, n ≠ [] ∧ n ≠ [0x2e] ∧ n ≠ [0x2e, 0x2e] ∧ 0x2f ∉ n ∧ 0 ∉ n

/-- The exceptions that end the script without an image. -/
inductive BuildErr where
  | invalidFilename
  | parentNotFound
  | duplicateFilename
  | structError
  | sizeMismatch
  deriving DecidableEq, Repr

/-- `align_to`: clearing the low bits of `val + alignment - 1`, the alignment
being a power of two. -/
def alignTo (val alignment : Nat) : Nat := alignment * ((val + alignment - 1) / alignment)

namespace HostEntry

def name (e : HostEntry) : Name := e.path.getLastD []

def isDir (e : HostEntry) : Bool :=
  match e.node with
  | .dir => true
  | .file .. => false

/-- `payload`, empty for a directory. -/
def payload (e : HostEntry) : List UInt8 :=
  match e.node with
  | .dir => []
  | .file _ content => content

/-- 0o755 for directories and executables, 0o644 for other files. -/
def mode (e : HostEntry) : Nat :=
  match e.node with
  | .dir => 0o755
  | .file true _ => 0o755
  | .file false _ => 0o644

def relPath (e : HostEntry) : List UInt8 := [0x2f].intercalate e.path

end HostEntry

def root : HostEntry := ⟨[], .dir⟩

/-- `discovered.sort(key=lambda x: x[0])`. -/
def sortEntries (discovered : List HostEntry) : List HostEntry :=
  discovered.mergeSort fun a b => decide (a.relPath ≤ b.relPath)

def objectsOf (t : HostTree) : List HostEntry := root :: sortEntries t.entries

def nameChar (c : UInt8) : Bool :=
  (0x61 ≤ c && c ≤ 0x7a) || (0x41 ≤ c && c ≤ 0x5a) || (0x30 ≤ c && c ≤ 0x39) ||
  c == 0x2e || c == 0x5f || c == 0x2d

/-- `NAME_REGEX.match`. `$` also matches before a final newline, so such a name passes. The test
for a separator or a NUL that follows has nothing left to find. -/
def nameOk (name : Name) : Bool :=
  let body := if name.getLast? = some 0x0a then name.dropLast else name
  !body.isEmpty && body.all nameChar

/-- The id of `os.path.dirname(obj.rel_path)` in `path_to_id`; the root is its
own parent. -/
def parentId (objects : List HostEntry) (e : HostEntry) : Except BuildErr Nat :=
  if e.path = [] then .ok 1
  else match objects.findIdx? (fun d => d.path = e.path.dropLast) with
    | none => .error .parentNotFound
    | some k => .ok (k + 1)

def nameEntry (e : HostEntry) : List UInt8 := if e.path = [] then [] else e.name ++ [0]

/-- The unpadded string table after these objects. `name_offset` of the next
object is its length. -/
def strTable (objects : List HostEntry) : List UInt8 := 0 :: objects.flatMap nameEntry

/-- A payload as it is written, padded to whole sectors. -/
def payloadEntry (e : HostEntry) : List UInt8 :=
  e.payload ++ List.replicate (alignTo e.payload.length 512 - e.payload.length) 0

def payloads (objects : List HostEntry) : List UInt8 := objects.flatMap payloadEntry

/-- The layout offsets, from the objects. -/
def objectTableSize (objects : List HostEntry) : Nat := 64 * objects.length
def stringTableOffset (objects : List HostEntry) : Nat :=
  512 + alignTo (objectTableSize objects) 512
def stringTableSize (objects : List HostEntry) : Nat := alignTo (strTable objects).length 512
def dataOffset (objects : List HostEntry) : Nat :=
  stringTableOffset objects + stringTableSize objects
def imageSize (objects : List HostEntry) : Nat := dataOffset objects + (payloads objects).length

/-- `struct.pack` with a little-endian format of unsigned fields, by their widths and values. -/
def structPack (fields : List (Nat × Nat)) : Except BuildErr (List UInt8) := do
  rejectIf .structError (¬ ∀ f ∈ fields, f.2 < 256 ^ f.1)
  pure (fields.flatMap fun f => leBytes f.1 f.2)

/-- The arguments of "<IIIIIIIIQQQQ" for object `k`. -/
def objectFields (objects : List HostEntry) (parents : List Nat) (k : Nat) : List (Nat × Nat) :=
  let e := objects.getD k root
  [(4, k + 1), (4, parents.getD k 0), (4, if e.isDir then 1 else 2), (4, e.mode), (4, 0), (4, 0),
   (4, if k = 0 then 0 else (strTable (objects.take k)).length), (4, e.name.length),
   (8, if e.isDir then 0 else dataOffset objects + (payloads (objects.take k)).length),
   (8, e.payload.length), (8, 0), (8, 0)]

/-- The arguments of "<IIIIQIIQQQQQQII" for a given checksum; the format ends in
424 zero bytes. -/
def superblockFields (objects : List HostEntry) (crc : Nat) : List (Nat × Nat) :=
  [(4, 0x5346535A), (4, 1), (4, 512), (4, 512), (8, imageSize objects), (4, objects.length), (4, 1),
   (8, 512), (8, objectTableSize objects), (8, stringTableOffset objects),
   (8, stringTableSize objects), (8, dataOffset objects),
   (8, imageSize objects - dataOffset objects), (4, crc), (4, 0)]

def packSuperblock (objects : List HostEntry) (crc : Nat) : Except BuildErr (List UInt8) := do
  pure ((← structPack (superblockFields objects crc)) ++ List.replicate 424 0)

/-- `zlib.crc32` over the superblock, the object table and the string table. -/
def metadataCrc (sb objTable strtab : List UInt8) : UInt32 :=
  crc32 strtab (crc32 objTable (crc32 sb 0))

def padTo (bytes : List UInt8) : List UInt8 :=
  bytes ++ List.replicate (alignTo bytes.length 512 - bytes.length) 0

def buildImage (t : HostTree) : Except BuildErr (List UInt8) := do
  let objects := objectsOf t
  forUpTo objects.length fun k =>
    rejectIf .invalidFilename (k > 0 ∧ nameOk (objects.getD k root).name = false)
  let parents ← objects.mapM (parentId objects)
  rejectIf .duplicateFilename (¬ ((parents.zip (objects.map HostEntry.name)).tail).Nodup)
  let strtab := padTo (strTable objects)
  let rows ← (List.range objects.length).mapM fun k => structPack (objectFields objects parents k)
  let objTable := rows.flatten
  let sb ← packSuperblock objects 0
  let crc := metadataCrc sb objTable strtab
  let sbFinal ← packSuperblock objects crc.toNat
  let image := sbFinal ++ padTo objTable ++ strtab ++ payloads objects
  rejectIf .sizeMismatch (image.length ≠ imageSize objects)
  pure image

/-- The objects in the order of their ids: the root first, every other one
after its parent directory. -/
structure ObjectList (objects : List HostEntry) : Prop where
  pos : 0 < objects.length
  root_first : objects.getD 0 root = root
  below_root : ∀ k, 0 < k → k < objects.length → (objects.getD k root).path ≠ []
  distinct : ∀ j k, j < objects.length → k < objects.length →
    (objects.getD j root).path = (objects.getD k root).path → j = k
  parent : ∀ k, 0 < k → k < objects.length → ∃ j < k,
    (objects.getD j root).path = (objects.getD k root).path.dropLast ∧
    (objects.getD j root).isDir = true
  names : ∀ k, 0 < k → k < objects.length → (objects.getD k root).name ≠ [] ∧
    (objects.getD k root).name ≠ [0x2e] ∧ (objects.getD k root).name ≠ [0x2e, 0x2e] ∧
    0x2f ∉ (objects.getD k root).name ∧ 0 ∉ (objects.getD k root).name

theorem path_eq_snoc {e : HostEntry} (h : e.path ≠ []) : e.path = e.path.dropLast ++ [e.name] := by
  rw [HostEntry.name, getLastD_eq_getLast?, getLast?_eq_some_getLast h, Option.getD_some,
    dropLast_append_getLast h]

theorem relPath_snoc (p : List Name) (n : Name) (hp : p ≠ []) :
    [0x2f].intercalate (p ++ [n]) = [0x2f].intercalate p ++ 0x2f :: n := by
  induction p with
  | nil => exact absurd rfl hp
  | cons a p ih =>
    cases p with
    | nil => simp [List.intercalate, List.intersperse]
    | cons b p =>
      have := ih (by simp)
      simp only [List.intercalate, cons_append, intersperse_cons_cons, flatten_cons,
        append_assoc] at this ⊢
      rw [this]

/-- A directory's path string sorts strictly before those of its entries. -/
theorem relPath_parent_lt {d e : HostEntry} (hd : d.path = e.path.dropLast)
    (he : e.path.dropLast ≠ []) : d.relPath < e.relPath := by
  have hne : e.path ≠ [] := by
    intro h
    exact he (by simp [h])
  have hsplit := dropLast_append_getLast hne
  rw [HostEntry.relPath, HostEntry.relPath, hd, ← hsplit, dropLast_concat, relPath_snoc _ _ he]
  nth_rewrite 1 [← append_nil ([0x2f].intercalate e.path.dropLast)]
  exact append_left_lt (nil_lt_cons _ _)

def pathLe (a b : HostEntry) : Bool := decide (a.relPath ≤ b.relPath)

theorem sortEntries_sorted (es : List HostEntry) :
    (sortEntries es).Pairwise fun a b => a.relPath ≤ b.relPath := by
  have htrans : ∀ a b c, pathLe a b = true → pathLe b c = true → pathLe a c = true := by
    intro a b c h1 h2
    simp only [pathLe, decide_eq_true_eq] at h1 h2 ⊢
    exact List.le_trans h1 h2
  have htotal : ∀ a b, (pathLe a b || pathLe b a) = true := by
    intro a b
    simp only [pathLe, Bool.or_eq_true, decide_eq_true_eq]
    exact List.le_total _ _
  apply (pairwise_mergeSort htrans htotal es).imp
  intro a b h
  simpa [pathLe] using h

theorem sortEntries_perm (es : List HostEntry) : (sortEntries es).Perm es :=
  mergeSort_perm _ _

theorem getD_mem {es : List HostEntry} {k : Nat} (hk : k < es.length) : es.getD k root ∈ es := by
  rw [getD_eq_getElem _ _ hk]
  exact getElem_mem hk

theorem sorted_parent_lt {es : List HostEntry} {j k : Nat} (hj : j < es.length)
    (hk : k < es.length) (hs : es.Pairwise fun a b => a.relPath ≤ b.relPath)
    (hlt : es[j].relPath < es[k].relPath) : j < k := by
  by_contra hge
  rcases lt_or_eq_of_le (not_lt.mp hge) with h | h
  · exact pairwise_iff_getElem.mp hs k j hk hj h hlt
  · subst h
    exact List.lt_irrefl _ hlt

theorem objectsOf_list (t : HostTree) : ObjectList (objectsOf t) := by
  have hperm := sortEntries_perm t.entries
  have hmem : ∀ k, k < (sortEntries t.entries).length →
      (sortEntries t.entries).getD k root ∈ t.entries :=
    fun k hk => hperm.mem_iff.mp (getD_mem hk)
  have hnodup : ((objectsOf t).map HostEntry.path).Nodup := by
    rw [objectsOf, map_cons, nodup_cons]
    refine ⟨?_, (hperm.map HostEntry.path).nodup_iff.mpr t.distinct⟩
    rintro hroot
    obtain ⟨e, he, hp⟩ := mem_map.mp hroot
    exact t.below_root e (hperm.mem_iff.mp he) hp
  refine ⟨by simp [objectsOf], rfl, ?_, ?_, ?_, ?_⟩
  · intro k h0 hk
    obtain ⟨k, rfl⟩ : ∃ j, k = j + 1 := ⟨k - 1, by omega⟩
    exact t.below_root _ (hmem k (by simpa [objectsOf] using hk))
  · intro j k hj hk he
    rw [getD_eq_getElem _ _ hj, getD_eq_getElem _ _ hk] at he
    have heq := inj_on_of_nodup_map hnodup (getElem_mem hj) (getElem_mem hk) he
    exact hnodup.of_map.getElem_inj_iff.mp heq
  · intro k h0 hk
    obtain ⟨k, rfl⟩ : ∃ j, k = j + 1 := ⟨k - 1, by omega⟩
    have hk' : k < (sortEntries t.entries).length := by simpa [objectsOf] using hk
    have hget : (objectsOf t).getD (k + 1) root = (sortEntries t.entries)[k] :=
      getD_eq_getElem _ _ hk'
    rw [hget]
    by_cases htop : (sortEntries t.entries)[k].path.dropLast = []
    · exact ⟨0, by omega, htop.symm, rfl⟩
    obtain ⟨d, hd, hp, hdir⟩ := t.parents _ (hperm.mem_iff.mp (getElem_mem hk')) htop
    obtain ⟨j, hj, hget'⟩ := getElem_of_mem (hperm.mem_iff.mpr hd)
    have hlt := relPath_parent_lt hp htop
    rw [← hget'] at hlt
    refine ⟨j + 1, Nat.succ_lt_succ (sorted_parent_lt hj hk' (sortEntries_sorted _) hlt), ?_⟩
    have hj' : (objectsOf t).getD (j + 1) root = d := by
      rw [← hget']
      exact getD_eq_getElem _ _ hj
    rw [hj']
    exact ⟨hp, by simp [HostEntry.isDir, hdir]⟩
  · intro k h0 hk
    obtain ⟨k, rfl⟩ : ∃ j, k = j + 1 := ⟨k - 1, by omega⟩
    have he := hmem k (by simpa [objectsOf] using hk)
    apply t.names _ he
    rw [path_eq_snoc (t.below_root _ he)]
    exact mem_append_right _ mem_cons_self

end XnuXzs.Mkfs
