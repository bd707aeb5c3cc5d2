import XnuXzs.Lib.Bytes
import XnuXzs.Lib.Path
import XnuXzs.Xzsfs.Graph

/-!
# The mounted filesystem and lookup

`xzsfs_core_init_fs` and `xzsfs_core_lookup`. Node pointers are indices into
`nodes`, name pointers are indices into the filesystem's own string table.
-/

namespace XnuXzs.Xzsfs

open XnuXzs.Lib

structure CoreNode where
  objectId : UInt32
  parentId : UInt32
  type : UInt32
  mode : UInt32
  uid : UInt32
  gid : UInt32
  dataOffset : UInt64
  dataLength : UInt64
  name : Nat
  nameLength : UInt32

structure CoreFs where
  sb : Superblock
  nodeCount : UInt32
  nodes : Nat → CoreNode
  strtab : Nat → UInt8

def nodeOf (o : DiskObject) : CoreNode where
  objectId := o.objectId
  parentId := o.parentId
  type := o.type
  mode := o.mode
  uid := o.uid
  gid := o.gid
  dataOffset := o.dataOffset
  dataLength := o.dataLength
  name := o.nameOffset.toNat
  nameLength := o.nameLength

/-- `xzsfs_core_init_fs` over the earlier contents of `fs`. -/
def initFs (fs : CoreFs) (sb : Superblock) (objs : Objects) (strtab : Strtab) : CoreFs where
  sb := sb
  nodeCount := sb.objectCount
  nodes i := if i < sb.objectCount.toNat then nodeOf (objs i) else fs.nodes i
  strtab i := if i < sb.stringTableSize.toNat then strtab i else fs.strtab i

def nodeName (fs : CoreFs) (i : Nat) : List UInt8 :=
  bytesAt fs.strtab (fs.nodes i).name (fs.nodes i).nameLength.toNat

def dot : UInt8 := 0x2e

/-- The test of the lookup loop: `name_length == namelen` and a zero `memcmp` say that the name
is the wanted one. -/
def isEntry (fs : CoreFs) (parentId : UInt32) (name : List UInt8) (i : Nat) : Bool :=
  decide ((fs.nodes i).parentId = parentId ∧ i ≠ 0) && decide (nodeName fs i = name)

/-- `xzsfs_core_lookup`; the result is the index of the node returned. -/
def lookup (fs : CoreFs) (parentId : UInt32) (name : List UInt8) : Except Err Nat :=
  if parentId = 0 ∨ parentId > fs.nodeCount then .error .inval
  else if (fs.nodes (parentId - 1).toNat).type ≠ typeDir then .error .notdir
  else if name = [dot] then .ok (parentId - 1).toNat
  else if name = [dot, dot] then
    .ok ((fs.nodes (parentId - 1).toNat).parentId - 1).toNat
  else match (List.range fs.nodeCount.toNat).find? (isEntry fs parentId name) with
    | some i => .ok i
    | none => .error .noent

def parentIndex (fs : CoreFs) (i : Nat) : Nat := (fs.nodes i).parentId.toNat - 1

def pathOf (fs : CoreFs) (i : Nat) : List (List UInt8) :=
  pathFrom (parentIndex fs) (nodeName fs) i i

def lookupAt (fs : CoreFs) (i : Nat) (name : List UInt8) : Except Err Nat :=
  lookup fs (fs.nodes i).objectId name

/-- Look the names of a path up one after the other, from the root. -/
def walk (fs : CoreFs) (path : List (List UInt8)) : Except Err Nat :=
  walkFrom (lookupAt fs) path

/-- The parent links are a tree of directories rooted at object 1, and names
find nodes in it. -/
structure Resolves (fs : CoreFs) : Prop where
  root : (fs.nodes 0).objectId = 1 ∧ (fs.nodes 0).parentId = 1 ∧ (fs.nodes 0).type = typeDir
  id : ∀ i, i < fs.nodeCount.toNat → (fs.nodes i).objectId.toNat = i + 1
  parent_is_dir : ∀ i, 0 < i → i < fs.nodeCount.toNat → (fs.nodes i).parentId.toNat ≠ 0 ∧
    parentIndex fs i < i ∧ (fs.nodes (parentIndex fs i)).type = typeDir
  reaches_root : ∀ i, i < fs.nodeCount.toNat → ∃ k, (parentIndex fs)^[k] i = 0
  lookup_self : ∀ i, 0 < i → i < fs.nodeCount.toNat →
    lookup fs (fs.nodes i).parentId (nodeName fs i) = .ok i
  walk_path : ∀ i, i < fs.nodeCount.toNat → walk fs (pathOf fs i) = .ok i
  path_injective : ∀ i j, i < fs.nodeCount.toNat → j < fs.nodeCount.toNat →
    pathOf fs i = pathOf fs j → i = j

def objName (objs : Objects) (strtab : Strtab) (i : Nat) : List UInt8 :=
  bytesAt strtab (objs i).nameOffset.toNat (objs i).nameLength.toNat

/-- No object below the root is called `.` or `..`. -/
def NoDotNames (sb : Superblock) (objs : Objects) (strtab : Strtab) : Prop :=
  ∀ i, i < sb.objectCount.toNat → 0 < i →
    objName objs strtab i ≠ [dot] ∧ objName objs strtab i ≠ [dot, dot]

instance (sb : Superblock) (objs : Objects) (strtab : Strtab) :
    Decidable (NoDotNames sb objs strtab) :=
  inferInstanceAs (Decidable (∀ i, i < sb.objectCount.toNat → 0 < i →
    objName objs strtab i ≠ [dot] ∧ objName objs strtab i ≠ [dot, dot]))

theorem bytesAt_eq {m : Nat → UInt8} {a b k n : Nat} (h : bytesAt m a k = bytesAt m b n) :
    k = n ∧ memEq m a b n := by
  have hlen : k = n := by simpa [bytesAt_length] using congrArg List.length h
  subst hlen
  refine ⟨rfl, fun c hc => ?_⟩
  have := List.map_inj_left.mp h c (List.mem_range.mpr hc)
  exact this

variable {sb : Superblock} {objs : Objects} {strtab : Strtab} {fs : CoreFs} {i : Nat}

theorem initFs_node (hi : i < sb.objectCount.toNat) :
    (initFs fs sb objs strtab).nodes i = nodeOf (objs i) := by
  simp [initFs, hi]

/-- The names of accepted objects lie inside the copied string table. -/
theorem initFs_name (hg : ValidGraph sb objs strtab) (hi : i < sb.objectCount.toNat) :
    nodeName (initFs fs sb objs strtab) i = objName objs strtab i := by
  unfold nodeName objName
  rw [initFs_node hi]
  apply bytesAt_congr
  intro c hc
  have hin : (objs i).nameOffset.toNat + c < sb.stringTableSize.toNat := by
    by_cases h0 : i = 0
    · subst h0
      simp [nodeOf, hg.root_nameLength] at hc
    · have := ((hg.object i hi).child (by omega)).name_in
      simp only [nodeOf] at hc
      omega
  simp [initFs, nodeOf, hin]

theorem object_id (hv : ValidSuperblock sb) (hg : ValidGraph sb objs strtab)
    (hi : i < sb.objectCount.toNat) : (objs i).objectId.toNat = i + 1 := by
  have hle := hv.count_le
  rw [(hg.object i hi).id, UInt32.toNat_add, UInt32.toNat_ofNat']
  simp only [UInt32.reduceToNat]
  omega

theorem parentIndex_lt (hv : ValidSuperblock sb) (hg : ValidGraph sb objs strtab) (h0 : 0 < i)
    (hi : i < sb.objectCount.toNat) :
    0 < (objs i).parentId.toNat ∧ (objs i).parentId.toNat - 1 < i := by
  have hc := (hg.object i hi).child h0
  have hlt := hc.parent_lt
  rw [object_id hv hg hi] at hlt
  exact ⟨hc.parent_pos, by omega⟩

theorem parentId_range (hv : ValidSuperblock sb) (hg : ValidGraph sb objs strtab)
    (hi : i < sb.objectCount.toNat) :
    0 < (objs i).parentId.toNat ∧ (objs i).parentId.toNat ≤ i + 1 := by
  by_cases h0 : i = 0
  · subst h0
    rw [hg.root_parent]
    decide
  · have := parentIndex_lt hv hg (by omega) hi
    omega

theorem find_self (hg : ValidGraph sb objs strtab) (h0 : 0 < i) (hi : i < sb.objectCount.toNat) :
    (List.range sb.objectCount.toNat).find? (isEntry (initFs fs sb objs strtab)
      (objs i).parentId (objName objs strtab i)) = some i := by
  rw [List.find?_range_eq_some]
  refine ⟨?_, List.mem_range.mpr hi, fun j hj => ?_⟩
  · simp [isEntry, initFs_name hg hi, initFs_node hi, nodeOf, pos_iff_ne_zero.mp h0]
  by_contra hbad
  have hj' : j < sb.objectCount.toNat := by omega
  have hentry : (objs j).parentId = (objs i).parentId ∧
      objName objs strtab j = objName objs strtab i := by
    simp only [isEntry, initFs_name hg hj', initFs_node hj', nodeOf, Bool.not_eq_true',
      Bool.not_eq_false, Bool.and_eq_true, decide_eq_true_eq] at hbad
    exact ⟨hbad.1.1, hbad.2⟩
  obtain ⟨hlen, heq⟩ := bytesAt_eq hentry.2
  exact ((hg.object i hi).child h0).name_fresh j hj hentry.1 (UInt32.toNat_inj.mp hlen) heq

/-- Lookup of an object's own name passes the directory tests and then goes by
the name alone. -/
theorem lookup_own_name (hv : ValidSuperblock sb) (hg : ValidGraph sb objs strtab) (h0 : 0 < i)
    (hi : i < sb.objectCount.toNat) :
    lookup (initFs fs sb objs strtab) (objs i).parentId (objName objs strtab i) =
      if objName objs strtab i = [dot] then .ok ((objs i).parentId.toNat - 1)
      else if objName objs strtab i = [dot, dot] then
        .ok (((initFs fs sb objs strtab).nodes ((objs i).parentId.toNat - 1)).parentId - 1).toNat
      else .ok i := by
  obtain ⟨hpos, hlt⟩ := parentIndex_lt hv hg h0 hi
  have hsub := uint32_pred hpos
  have hrange : ¬ ((objs i).parentId = 0 ∨ (objs i).parentId > sb.objectCount) := by
    rw [uint32_eq_zero, gt_iff_lt, UInt32.lt_iff_toNat_lt]
    omega
  have hdir : ((initFs fs sb objs strtab).nodes ((objs i).parentId.toNat - 1)).type = typeDir := by
    rw [initFs_node (by omega)]
    exact ((hg.object i hi).child h0).parent_dir
  have hcount : (initFs fs sb objs strtab).nodeCount = sb.objectCount := rfl
  simp [lookup, hrange, hsub, hdir, hcount, find_self hg h0 hi]

theorem parentIndex_initFs (hi : i < sb.objectCount.toNat) :
    parentIndex (initFs fs sb objs strtab) i = (objs i).parentId.toNat - 1 := by
  rw [parentIndex, initFs_node hi]
  rfl

theorem initFs_linksDown (hv : ValidSuperblock sb) (hg : ValidGraph sb objs strtab) :
    LinksDown sb.objectCount.toNat (parentIndex (initFs fs sb objs strtab)) := by
  intro i h0 hi
  rw [parentIndex_initFs hi]
  exact (parentIndex_lt hv hg h0 hi).2

theorem lookup_self (hv : ValidSuperblock sb) (hg : ValidGraph sb objs strtab)
    (hdots : NoDotNames sb objs strtab) (h0 : 0 < i) (hi : i < sb.objectCount.toNat) :
    lookup (initFs fs sb objs strtab) (objs i).parentId (objName objs strtab i) = .ok i := by
  rw [lookup_own_name hv hg h0 hi, if_neg (hdots i hi h0).1, if_neg (hdots i hi h0).2]

theorem lookupAt_self (hv : ValidSuperblock sb) (hg : ValidGraph sb objs strtab)
    (hdots : NoDotNames sb objs strtab) (i : Nat) (h0 : 0 < i) (hi : i < sb.objectCount.toNat) :
    lookupAt (initFs fs sb objs strtab) (parentIndex (initFs fs sb objs strtab) i)
      (nodeName (initFs fs sb objs strtab) i) = .ok i := by
  obtain ⟨hpos, hlt⟩ := parentIndex_lt hv hg h0 hi
  have hid : (objs ((objs i).parentId.toNat - 1)).objectId = (objs i).parentId := by
    rw [← UInt32.toNat_inj, object_id hv hg (by omega)]
    omega
  rw [lookupAt, parentIndex_initFs hi, initFs_node (by omega), initFs_name hg hi]
  simp only [nodeOf, hid]
  exact lookup_self hv hg hdots h0 hi

theorem walk_pathOf (hv : ValidSuperblock sb) (hg : ValidGraph sb objs strtab)
    (hdots : NoDotNames sb objs strtab) (hi : i < sb.objectCount.toNat) :
    walk (initFs fs sb objs strtab) (pathOf (initFs fs sb objs strtab) i) = .ok i :=
  walk_pathFrom (initFs_linksDown hv hg) (lookupAt_self hv hg hdots) i i le_rfl hi

/-- **Names resolve exactly when none is `.` or `..`.** For every accepted superblock and table,
`xzsfs_core_init_fs` builds a tree of directories in which lookup of a node's name in its parent,
and a walk along its path, return exactly that node, if and only if no object below the root has a
name that lookup answers without searching. -/
theorem resolves_iff (hsb : validateSuperblock sb = .ok ())
    (hgraph : validateGraph sb objs strtab = .ok ()) (fs : CoreFs) :
    Resolves (initFs fs sb objs strtab) ↔ NoDotNames sb objs strtab := by
  have hv := validateSuperblock_ok.mp hsb
  have hg := validateGraph_ok.mp hgraph
  have hcount : (initFs fs sb objs strtab).nodeCount = sb.objectCount := rfl
  constructor
  · intro h i hi h0
    obtain ⟨hpos, hlt⟩ := parentIndex_lt hv hg h0 hi
    have hself := h.lookup_self i h0 hi
    rw [initFs_node hi, initFs_name hg hi] at hself
    change lookup _ (objs i).parentId _ = _ at hself
    rw [lookup_own_name hv hg h0 hi] at hself
    constructor
    · -- `.` is the parent itself
      intro hdot
      simp only [hdot, if_true, Except.ok.injEq] at hself
      omega
    -- `..` is the parent's parent, which is no later than the parent
    intro hdots
    have hne : ¬ ([dot, dot] : List UInt8) = [dot] := by decide
    have hp : (objs i).parentId.toNat - 1 < sb.objectCount.toNat := by omega
    obtain ⟨hpos', hle⟩ := parentId_range hv hg hp
    simp only [hdots, hne, if_false, if_true, Except.ok.injEq, initFs_node hp, nodeOf] at hself
    rw [uint32_pred hpos'] at hself
    omega
  · intro hdots
    refine ⟨?_, ?_, ?_, ?_, ?_, ?_, ?_⟩
    · rw [initFs_node hv.count_pos]
      exact ⟨hg.root_id, hg.root_parent, hg.root_type⟩
    · intro i hi
      rw [initFs_node hi]
      exact object_id hv hg hi
    · intro i h0 hi
      rw [hcount] at hi
      obtain ⟨hpos, hlt⟩ := parentIndex_lt hv hg h0 hi
      have hp : (objs i).parentId.toNat - 1 < sb.objectCount.toNat := by omega
      rw [parentIndex_initFs hi, initFs_node hi, initFs_node hp]
      exact ⟨by simp only [nodeOf]; omega, hlt, ((hg.object i hi).child h0).parent_dir⟩
    · exact fun i hi => linksDown_reach_root (initFs_linksDown hv hg) i hi
    · intro i h0 hi
      rw [initFs_node hi, initFs_name hg hi]
      exact lookup_self hv hg hdots h0 hi
    · exact fun i hi => walk_pathOf hv hg hdots hi
    · exact fun i j hi hj he =>
        pathFrom_injective (initFs_linksDown hv hg) (lookupAt_self hv hg hdots) hi hj he

/-- A zeroed `struct xzsfs_core_fs`, as the mount allocates it. -/
def emptyFs : CoreFs where
  sb := twoObjects
  nodeCount := 0
  nodes _ := ⟨0, 0, 0, 0, 0, 0, 0, 0, 0, 0⟩
  strtab _ := 0

theorem resolves_named_a : validateSuperblock twoObjects = .ok () ∧
    validateGraph twoObjects (rootAndFile 1536 100) (oneName 0x61) = .ok () ∧
    Resolves (initFs emptyFs twoObjects (rootAndFile 1536 100) (oneName 0x61)) := by
  have hgraph : validateGraph twoObjects (rootAndFile 1536 100) (oneName 0x61) = .ok () := by
    decide
  exact ⟨by decide, hgraph, (resolves_iff (by decide) hgraph emptyFs).mpr (by decide)⟩

/-- A file called `.` in the root passes both checks, and looking it up returns
the root. -/
theorem resolves_named_dot : validateSuperblock twoObjects = .ok () ∧
    validateGraph twoObjects (rootAndFile 1536 100) (oneName dot) = .ok () ∧
    ¬ Resolves (initFs emptyFs twoObjects (rootAndFile 1536 100) (oneName dot)) := by
  refine ⟨by decide, by decide, fun h => ?_⟩
  exact absurd (h.lookup_self 1 (by decide) (by decide)) (by decide)

end XnuXzs.Xzsfs
