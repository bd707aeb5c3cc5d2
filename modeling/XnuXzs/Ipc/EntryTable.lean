import XnuXzs.Ipc.HashTable
import XnuXzs.Lib.FreeList

/-!
# Growing an entry table

`ipc_entry_grow_table` copies a space's table into a larger one without the space lock, by
single loads and stores. What is changed meanwhile is marked and copied again.
-/

namespace XnuXzs.Ipc

open Lib Function

/-- An entry without its hash fields. `next` is `ie_next` if it is free, else `ie_request`. -/
@[ext] structure Entry (α : Type*) where
  object : Option α
  bits : UInt32
  next : Nat

/-- `IE_BITS_TYPE` -/
def typeOf (bits : UInt32) : UInt32 := bits &&& 0x001f0000

/-- `MACH_PORT_TYPE_SEND` -/
def typeSend : UInt32 := 0x00010000

/-- `IE_BITS_GEN_MASK` -/
def genMask : UInt32 := 0xfc000000

/-- `IE_BITS_ROLL_MASK` -/
def rollMask : UInt32 := 0x03000000

/-- `IE_BITS_GEN` -/
def genOf (bits : UInt32) : UInt32 := bits &&& genMask ||| rollMask

/-- `ipc_entry_make_gen`, with the two random bits `roll`. -/
def makeGen (bits roll : UInt32) : UInt32 := bits &&& genMask ||| roll <<< 24 &&& rollMask

def nextGen (oldgen roll : UInt32) : UInt32 :=
  let delta := (0x04000000 : UInt32) + (oldgen &&& rollMask) <<< 2
  if 2 ^ 32 ≤ oldgen.toNat + delta.toNat then makeGen 0 roll else oldgen + delta

/-- `MACH_PORT_VALID` of `MACH_PORT_MAKE` -/
def validName (index : Nat) (gen : UInt32) : Bool :=
  let name := index % 2 ^ 24 * 2 ^ 8 ||| (gen >>> 24).toNat
  name ≠ 0 && name ≠ 2 ^ 32 - 1

/-- The table that is in use, and the fields of the space that the lock protects. -/
structure Space (α : Type*) where
  entry : Nat → Entry α
  tableFree : Nat
  lowMod : Nat
  highMod : Nat

inductive Store (α : Type*) where
  | object (index : Nat) (value : Option α)
  | bits (index : Nat) (value : UInt32)
  | next (index value : Nat)
  | tableFree (value : Nat)
  /-- `ipc_entry_modified`, whose fields only the holder of the lock reads. -/
  | modified (index : Nat)

section Code

variable {α : Type*} (count : Nat)

def Store.apply (s : Space α) : Store α → Space α
  | .object i value => { s with entry := update s.entry i { s.entry i with object := value } }
  | .bits i value => { s with entry := update s.entry i { s.entry i with bits := value } }
  | .next i value => { s with entry := update s.entry i { s.entry i with next := value } }
  | .tableFree value => { s with tableFree := value }
  | .modified i => { s with lowMod := min i s.lowMod, highMod := max i s.highMod }

/-- The assertions of `ipc_entry_modified`. -/
def Store.asserts (s : Space α) : Store α → Prop
  | .modified i => i < count ∧ s.lowMod ≤ count ∧ s.highMod < count
  | _ => True

def runStores (s : Space α) (stores : List (Store α)) : Space α := stores.foldl Store.apply s

/-- The first free entry is taken off the list and initialized. -/
def claimStores (s : Space α) (firstFree : Nat) (obj : Option α) (roll : UInt32) : List (Store α) :=
  [.next 0 (s.entry firstFree).next, .tableFree (s.tableFree - 1),
    .bits firstFree (nextGen (s.entry firstFree).bits roll),
      .next firstFree 0, .object firstFree obj]

/-- `ipc_entry_claim`: the stores and the index of the entry. -/
def claim (s : Space α) (obj : Option α) (roll : UInt32) : Option (List (Store α) × Nat) :=
  let firstFree := (s.entry 0).next
  if firstFree = 0 ∨ count ≤ firstFree ∨ count ≤ (s.entry firstFree).next ∨
      (s.entry firstFree).object.isSome ∨
      ¬ validName firstFree (genOf (nextGen (s.entry firstFree).bits roll)) then none
  else some (claimStores s firstFree obj roll, firstFree)

/-- The search of `ipc_entry_alloc_name` for the entry before a free one. -/
def findPrev (s : Space α) (index : Nat) : Nat → Nat → Option Nat
  | 0, _ => none
  | fuel + 1, prev =>
    if (s.entry prev).next = index then some prev
    else if count ≤ (s.entry prev).next then none
    else findPrev s index fuel (s.entry prev).next

/-- A free entry is taken from behind the one before it, which is marked unless it is the head. -/
def unlinkStores (s : Space α) (prev index : Nat) (gen roll : UInt32) : List (Store α) :=
  [.next prev (s.entry index).next, .tableFree (s.tableFree - 1)] ++
    (if 0 < prev then [.modified prev] else []) ++ [.bits index (makeGen gen roll), .next index 0]

/-- `ipc_entry_alloc_name` for an index in the table: the stores, and the entry if it was free;
otherwise the name is in use, or taken. -/
def allocName (s : Space α) (index : Nat) (gen roll : UInt32) :
    Option (List (Store α) × Option Nat) :=
  if typeOf (s.entry index).bits = 0 then
    (findPrev count s index count 0).bind fun prev =>
      if (s.entry index).object.isSome then none
      else some (unlinkStores s prev index gen roll, some index)
  else some ([], none)

/-- The entry becomes the first of the list. -/
def deallocStores (s : Space α) (index : Nat) : List (Store α) :=
  [.bits index ((s.entry index).bits &&& (genMask ||| rollMask)), .next index (s.entry 0).next,
    .object index none, .next 0 index, .tableFree (s.tableFree + 1), .modified index]

def dealloc [DecidableEq α] (s : Space α) (obj : Option α) (index : Nat) (gen : UInt32) :
    Option (List (Store α)) :=
  let e := s.entry index
  if e.object ≠ obj ∨ e.next ≠ 0 ∨ index = 0 ∨ count ≤ index ∨ genOf e.bits ≠ gen then none
  else some (deallocStores s index)

/-- What a caller stores into an entry that it was given. -/
inductive Edit (α : Type*) where
  | object (value : Option α)
  | bits (value : UInt32)
  | request (value : Nat)

def Edit.store (index : Nat) : Edit α → Store α
  | .object value => .object index value
  | .bits value => .bits index value
  | .request value => .next index value

/-- The edits of a caller, and its mark. -/
def edited (index : Nat) (edits : List (Edit α)) : List (Store α) :=
  edits.map (Edit.store index) ++ [.modified index]

structure Copy (α : Type*) where
  entry : Nat → Entry α
  slot : Nat → Slot

variable (ncount : Nat)

def Copy.table (c : Copy α) : HashTable α := ⟨ncount, fun i => (c.entry i).object, c.slot⟩

/-- The loop of `ipc_space_rand_freelist`, with a random bit for each round. -/
def randFreelistFrom (which : Nat → Bool) :
    Nat → (Nat → Entry α) → Nat → Nat → Nat → Nat → Entry α
  | 0, table, curr, _, _ => update table curr { table curr with bits := genMask }
  | rounds + 1, table, curr, bottom, top =>
    if bottom ≤ top then
      let next := if which rounds then top else bottom
      randFreelistFrom which rounds
        (update table curr { table curr with bits := genMask, next := next })
        next (if which rounds then bottom else bottom + 1) (if which rounds then top - 1 else top)
    else update table curr { table curr with bits := genMask }

/-- The new table as `ipc_space_rand_freelist` leaves it. -/
def freshCopy (which : Nat → Bool) : Copy α where
  entry := randFreelistFrom which (ncount - count) (fun _ =>
    ⟨none, 0, 0⟩) count (count + 1) (ncount - 1)
  slot _ := ⟨0, 0⟩

variable [DecidableEq α] (hash : Option α → Nat)

/-- The round of the copying loop for one snapshot. -/
def copyEntry (c : Copy α) (i : Nat) (object : Option α) (bits : UInt32) (next : Nat) :
    Option (Copy α) :=
  let e := c.entry i
  if e.object ≠ object ∨ typeOf e.bits ≠ typeOf bits then
    (if e.object.isSome ∧ typeOf e.bits = typeSend then delete hash (c.table ncount) e.object i
      else some (c.table ncount)).bind fun deleted =>
    let c' : Copy α := ⟨update c.entry i ⟨object, bits, next⟩, deleted.slot⟩
    if object.isSome ∧ typeOf bits = typeSend then
      (insert hash (c'.table ncount) object i).map fun inserted => { c' with slot := inserted.slot }
    else some c'
  else some { c with entry := update c.entry i { e with bits := bits, next := next } }

def freeEnd (c : Copy α) : Nat → Nat → Nat
  | 0, freeIndex => freeIndex
  | sanity + 1, freeIndex =>
    if (c.entry freeIndex).object.isSome then freeIndex
    else if (c.entry freeIndex).next = 0 ∨ count ≤ (c.entry freeIndex).next then freeIndex
    else freeEnd c sanity (c.entry freeIndex).next

inductive Pc (α : Type*) where
  | scan (i hi : Nat)
  | loadBits (i hi : Nat) (object : Option α)
  | loadNext (i hi : Nat) (object : Option α) (bits : UInt32)
  /-- It waits for the lock. -/
  | walked (freeIndex : Nat)
  | installed

structure Growth (α : Type*) where
  space : Space α
  pending : List (Store α)
  /-- The entry that the holder of the lock was given and has not marked yet. -/
  taken : Option Nat
  copy : Copy α
  pc : Pc α

/-- With the lock and the end of the free list: another pass, or the new table is installed. -/
def finish (s : Growth α) (freeIndex : Nat) : Option (Growth α) :=
  if s.space.lowMod < count then
    if 0 < s.space.highMod ∧ 0 < s.space.lowMod ∧ s.space.highMod < count then
      some { s with
        space := { s.space with lowMod := count, highMod := 0 }
        pc := .scan (max 1 s.space.lowMod) s.space.highMod }
    else none
  else
    let e := s.copy.entry freeIndex
    if e.next = 0 ∧ e.object = none then
      some { s with
        space := { s.space with tableFree := s.space.tableFree + (ncount - count) }
        copy := { s.copy with entry := update s.copy.entry freeIndex { e with next := count } }
        pc := .installed }
    else none

/-- A step of the copying thread. There is none after an assertion has failed. -/
def growStep (s : Growth α) : Option (Growth α) :=
  match s.pc with
  | .scan i hi =>
    if i ≤ hi then some { s with pc := .loadBits i hi (s.space.entry i).object }
    else
      let copy := { s.copy with
        entry := update s.copy.entry 0 { s.copy.entry 0 with next := (s.space.entry 0).next } }
      some { s with copy := copy, pc := .walked (freeEnd count copy count 0) }
  | .loadBits i hi object => some { s with pc := .loadNext i hi object (s.space.entry i).bits }
  | .loadNext i hi object bits =>
    (copyEntry ncount hash s.copy i object bits (s.space.entry i).next).map fun copy =>
      { s with copy := copy, pc := .scan (i + 1) hi }
  | .walked freeIndex => finish count ncount s freeIndex
  | .installed => some s

end Code

variable {α : Type*} (count : Nat)

/-- The most entries that a table may have, `CONFIG_IPC_TABLE_ENTRIES_SIZE_MAX`. -/
def countMax : Nat := 7340032 / 24

/-- Nobody but the copying thread is busy. -/
def Growth.Idle (s : Growth α) : Prop := s.pending = [] ∧ s.taken = none

def InTable (i : Nat) : Prop := 0 < i ∧ i < count

/-- An entry that its caller has made a right of. -/
def InUse (e : Entry α) : Prop := typeOf e.bits ≠ 0 ∧ (typeOf e.bits = typeSend → e.object ≠ none)

/-- The holder of the lock may change the entry: it was given it, or it is in use. -/
def Growth.MayChange (s : Growth α) (i : Nat) : Prop :=
  s.pending = [] ∧ (s.taken = some i ∨ s.taken = none ∧ InTable count i ∧ InUse (s.space.entry i))

/-- What other threads do with the lock. An entry given to its caller is made a right and
marked, or given back, first. -/
inductive LockedStep [DecidableEq α] (s : Growth α) : Growth α → Prop
  | claim (obj : Option α) (roll : UInt32) (stores : List (Store α)) (i : Nat) (hidle : s.Idle)
      (hheld : (s.space.entry 0).next ≠ 0) (h : claim count s.space obj roll = some (stores, i)) :
      LockedStep s { s with pending := stores, taken := some i }
  | allocName (index : Nat) (gen roll : UInt32) (stores : List (Store α)) (i : Option Nat)
      (hidle : s.Idle) (hindex : InTable count index)
      (h : allocName count s.space index gen roll = some (stores, i)) :
      LockedStep s { s with pending := stores, taken := i }
  | edit (i : Nat) (edits : List (Edit α)) (hi : s.MayChange count i)
      (hdone : InUse ((runStores s.space (edited i edits)).entry i)) :
      LockedStep s { s with pending := edited i edits, taken := none }
  | dealloc (i : Nat) (obj : Option α) (gen : UInt32) (stores : List (Store α))
      (hi : s.MayChange count i)
      (h : dealloc count s.space obj i gen = some stores) :
      LockedStep s { s with pending := stores, taken := none }
  | store (st : Store α) (rest : List (Store α)) (hpending : s.pending = st :: rest) :
      LockedStep s { s with space := st.apply s.space, pending := rest }

/-- The lock is free, or the copying thread does not need it. -/
def Growth.MayGrow (s : Growth α) : Prop := (∃ freeIndex, s.pc = .walked freeIndex) → s.Idle

inductive GrowthStep [DecidableEq α] (ncount : Nat) (hash : Option α → Nat) (s : Growth α) :
    Growth α → Prop
  | grow (t : Growth α) (hmay : s.MayGrow) (hpc : s.pc ≠ .installed)
      (h : growStep count ncount hash s = some t) : GrowthStep ncount hash s t
  | locked (t : Growth α) (hpc : s.pc ≠ .installed) (h : LockedStep count s t) :
      GrowthStep ncount hash s t

/-- A space in order: its free list has the entries of no type, and no others. -/
structure SpaceInv (sp : Space α) (taken : Option Nat) (free : List Nat) : Prop where
  list : FreeList (fun i => (sp.entry i).next) free
  range : ∀ i ∈ free, i < count
  objects : ∀ i ∈ 0 :: free, (sp.entry i).object = none
  taken_range : ∀ i, taken = some i → InTable count i ∧ i ∉ free
  exact : ∀ i, InTable count i → taken ≠ some i → (i ∈ free ↔ typeOf (sp.entry i).bits = 0)
  send : ∀ i, InTable count i → taken ≠ some i → typeOf (sp.entry i).bits = typeSend →
    (sp.entry i).object ≠ none
  tableFree : sp.tableFree = free.length

/-- The space when the table starts to be grown and the lock has been dropped. -/
def growth [DecidableEq α] (ncount : Nat) (which : Nat → Bool) (hash : Option α → Nat) :
    System (Growth α) where
  init s := 0 < count ∧ count < ncount ∧ ncount ≤ countMax ∧ s.Idle ∧
    (∃ free, SpaceInv count s.space none free) ∧ s.space.lowMod = count ∧ s.space.highMod = 0 ∧
    s.copy = freshCopy count ncount which ∧ s.pc = .scan 1 (count - 1)
  step := GrowthStep count ncount hash

end XnuXzs.Ipc
