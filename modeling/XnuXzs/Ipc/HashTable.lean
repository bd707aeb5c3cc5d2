import XnuXzs.Lib.RobinHood
import XnuXzs.Lib.Runs

/-!
# The reverse hash of an entry table

`ipc_hash_table_lookup`, `ipc_hash_table_insert` and `ipc_hash_table_delete`: open addressing in
two fields of the entries, an index and a distance pegged at a maximum. A loop of more than one
round has no result.
-/

namespace XnuXzs.Ipc

open Lib Function

/-- The hash fields of an entry, `ie_index` and `ie_dist`. -/
@[ext] structure Slot where
  index : Nat
  dist : Nat
  deriving DecidableEq

/-- `IPC_ENTRY_DIST_MAX` -/
def distMax : Nat := 2 ^ 12 - 1

/-- What the hash uses of an entry table: `ie_object` and the slots. A null object is `none`. -/
structure HashTable (α : Type*) where
  size : Nat
  object : Nat → Option α
  slot : Nat → Slot

/-- The displacement is pegged at its maximum. -/
def peg (hdist : Nat) : Nat := if hdist < distMax then hdist + 1 else hdist

inductive Lookup where
  | found (index : Nat)
  | absent
  /-- An assertion fails, or a null entry is followed. -/
  | faults
  deriving DecidableEq

variable {α : Type*} (hash : Option α → Nat)

/-- `IH_TABLE_HASH` -/
def tableHash (obj : Option α) (size : Nat) : Nat := hash obj % size

def lookupFrom [DecidableEq α] (t : HashTable α) (obj : α) : Nat → Nat → Nat → Option Lookup
  | 0, _, _ => none
  | fuel + 1, hindex, hdist =>
    let index := (t.slot hindex).index
    if index = 0 then some .absent
    else if (t.slot hindex).dist < hdist then some .absent
    else if t.size ≤ index then some .faults
    else if t.object index = some obj then
      if hdist = (t.slot hindex).dist then some (.found index) else some .faults
    else lookupFrom t obj fuel (cycNext t.size hindex) (peg hdist)

def lookup [DecidableEq α] (t : HashTable α) : Option α → Option Lookup
  | none => some .absent
  | some obj => lookupFrom t obj t.size (tableHash hash (some obj) t.size) 0

/-- The loop carries an entry until it finds an empty slot, and takes the slot of one that is
displaced less. -/
def insertFrom (size : Nat) : Nat → (Nat → Slot) → Nat → Slot → Option (Nat → Slot)
  | 0, _, _, _ => none
  | fuel + 1, slot, hindex, carried =>
    if (slot hindex).index = 0 then some (update slot hindex carried)
    else if (slot hindex).dist < carried.dist then
      insertFrom size fuel (update slot hindex carried) (cycNext size hindex)
        ⟨(slot hindex).index, peg (slot hindex).dist⟩
    else insertFrom size fuel slot (cycNext size hindex) ⟨carried.index, peg carried.dist⟩

def insert [DecidableEq α] (t : HashTable α) (obj : Option α) (index : Nat) :
    Option (HashTable α) :=
  if index = 0 ∨ obj = none ∨ t.object index ≠ obj then none
  else (insertFrom t.size t.size t.slot (tableHash hash obj t.size) ⟨index, 0⟩).map
    fun slot => { t with slot := slot }

def findFrom (t : HashTable α) (index : Nat) : Nat → Nat → Option Nat
  | 0, _ => none
  | fuel + 1, hindex =>
    if (t.slot hindex).index = index then some hindex
    else findFrom t index fuel (cycNext t.size hindex)

/-- The displacement one slot closer to home; one that was pegged is computed anew. -/
def closer (t : HashTable α) (hindex : Nat) (moved : Slot) : Nat :=
  if moved.dist = distMax then
    min (cycDist t.size (tableHash hash (t.object moved.index) t.size) hindex) distMax
  else moved.dist - 1

/-- The loop of the deletion moves displaced entries into the hole before them. -/
def shiftFrom (t : HashTable α) : Nat → (Nat → Slot) → Nat → Option (Nat → Slot)
  | 0, _, _ => none
  | fuel + 1, slot, hindex =>
    let moved := slot (cycNext t.size hindex)
    if moved.index = 0 ∨ moved.dist = 0 then some (update slot hindex ⟨0, 0⟩)
    else shiftFrom t fuel (update slot hindex ⟨moved.index, closer hash t hindex moved⟩)
      (cycNext t.size hindex)

def delete [DecidableEq α] (t : HashTable α) (obj : Option α) (index : Nat) :
    Option (HashTable α) :=
  if index = 0 ∨ obj = none ∨ t.object index ≠ obj then none
  else (findFrom t index t.size (tableHash hash obj t.size)).bind fun hindex =>
    (shiftFrom hash t t.size t.slot hindex).map fun slot => { t with slot := slot }

def occupant (slot : Nat → Slot) (s : Nat) : Option Nat :=
  if (slot s).index = 0 then none else some (slot s).index

/-- A table, and what has been inserted and not deleted: the object of each index. -/
structure Hashed (α : Type*) where
  table : HashTable α
  present : Nat → Option α

/-- A new object may be inserted under a new index, if a slot is still empty afterwards. -/
structure Insertable (s : Hashed α) (obj : α) (index : Nat) : Prop where
  positive : 0 < index
  inside : index < s.table.size
  object : s.table.object index = some obj
  indexFree : s.present index = none
  objectFree : ∀ i, s.present i ≠ some obj
  room : ∃ e < s.table.size, ∃ f < s.table.size, e ≠ f ∧
    occupant s.table.slot e = none ∧ occupant s.table.slot f = none

variable [DecidableEq α] (admissible : HashTable α → Prop)

/-- Callers give objects to entries that are not hashed, insert and delete. -/
inductive HashStep (s : Hashed α) : Hashed α → Prop
  | setObject (index : Nat) (obj : Option α) (hfree : s.present index = none) :
      HashStep s { s with
        table := { s.table with object := update s.table.object index obj } }
  | insert (obj : α) (index : Nat) (t : HashTable α) (hok : Insertable s obj index)
      (hadmissible : admissible s.table) (ht : insert hash s.table (some obj) index = some t) :
      HashStep s ⟨t, update s.present index (some obj)⟩
  | delete (obj : α) (index : Nat) (t : HashTable α) (hpresent : s.present index = some obj)
      (ht : delete hash s.table (some obj) index = some t) :
      HashStep s ⟨t, update s.present index none⟩

/-- A table of at least two slots, empty at first. Insertions need an admissible table. -/
def hashSystem : System (Hashed α) where
  init s := 2 ≤ s.table.size ∧ (∀ i, s.table.slot i = ⟨0, 0⟩) ∧ ∀ i, s.present i = none
  step := HashStep hash admissible

end XnuXzs.Ipc
