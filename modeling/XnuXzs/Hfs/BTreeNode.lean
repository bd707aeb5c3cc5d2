import XnuXzs.Lib.Machine
import XnuXzs.Lib.Memory

/-!
# Records in a B-tree node

A node is the descriptor, the records, and at its end a table of 16-bit offsets that grows
downwards, the last one that of the free space. The byte order is that of the host.
-/

namespace XnuXzs.Hfs

open Lib

/-- What the node routines read of the control block. Nodes have at most 32768 bytes. -/
structure BTree where
  nodeSize : Nat
  bigKeys : Bool
  size_le : nodeSize ≤ 32768
  size_even : nodeSize % 2 = 0

abbrev Node := Nat → UInt8

def descriptorSize : Nat := 14

def numRecordsAddress : Nat := 10

def kOffsetSize : Nat := 2

def load16 (m : Node) (a : Nat) : Nat := leValue (bytesAt m a 2)

def store16 (m : Node) (a : Nat) (v : Int) : Node := storeBytes m a (leBytes 2 (u16 v).toNat)

def numRecords (m : Node) : Nat := load16 m numRecordsAddress

variable (t : BTree)

def offsetAddress (index : Nat) : Nat := t.nodeSize - index * 2 - kOffsetSize

/-- `GetRecordOffset` reads a `short`. -/
def recordOffset (m : Node) (index : Nat) : Int := i16 (load16 m (offsetAddress t index))

def nodeFreeSize (m : Node) : Int :=
  u16 (t.nodeSize - u16 (recordOffset t m (numRecords m)) - numRecords m * 2 - kOffsetSize)

/-- The loop of `InsertOffset`, which runs once more than it counts. -/
def shiftOffsetsUp (delta : Int) : Nat → Node → Nat → Nat → Node
  | 0, m, src, dst => store16 m dst (load16 m src + delta)
  | k + 1, m, src, dst =>
      shiftOffsetsUp delta k (store16 m dst (load16 m src + delta)) (src + 2) (dst + 2)

def insertOffset (m : Node) (index : Nat) (delta : Int) : Node :=
  let src := offsetAddress t (numRecords m)
  let numOffsets := u16 (numRecords m - index)
  let counted := store16 m numRecordsAddress (numRecords m + 1)
  shiftOffsetsUp delta numOffsets.toNat counted src (src - 2)

/-- The loop of `DeleteOffset`. -/
def shiftOffsetsDown (delta : Int) : Nat → Node → Nat → Nat → Node
  | 0, m, _, _ => m
  | k + 1, m, src, dst =>
    shiftOffsetsDown delta k (store16 m (dst - 2) (load16 m (src - 2) - delta)) (src - 2) (dst - 2)

def deleteOffset (m : Node) (index : Nat) : Node :=
  let dst := offsetAddress t index
  let src := dst - 2
  let delta := u16 (load16 m src - load16 m dst)
  let counted := store16 m numRecordsAddress (numRecords m - 1)
  let numOffsets := u16 (numRecords counted - index)
  shiftOffsetsDown delta numOffsets.toNat counted src dst

/-- The hole for a new record, and its offset. -/
def makeHole (m : Node) (index size : Nat) : Node :=
  let indexOffset := u16 (recordOffset t m index)
  let freeOffset := u16 (recordOffset t m (numRecords m))
  let bytesToMove := u16 (freeOffset - indexOffset)
  let moved := if bytesToMove = 0 then m
    else moveBytes m indexOffset.toNat (indexOffset.toNat + size) bytesToMove.toNat
  insertOffset t moved index (u16 size)

def insertRecord (m : Node) (index : Nat) (record : List UInt8) : Bool × Node :=
  if nodeFreeSize t m < record.length + 2 then (false, m)
  else
    let indexOffset := (u16 (recordOffset t m index)).toNat
    (true, storeBytes (makeHole t m index record.length) indexOffset record)

def sizeOfLength : Nat := if t.bigKeys then 2 else 1

/-- The key with its length, padded to an even size. -/
def keySize (keyLength : Nat) : Int :=
  let size := u16 (keyLength + sizeOfLength t)
  if size % 2 = 1 then u16 (size + 1) else size

/-- `keyLength` is stored as the length; `key` are the key's own bytes. The clearing of the pad
bytes goes on for the size of the length field, and the record is copied over them. -/
def insertKeyRecord (m : Node) (index keyLength : Nat) (key record : List UInt8) : Bool × Node :=
  let keySize := keySize t keyLength
  if nodeFreeSize t m < keySize + record.length + 2 then (false, m)
  else
    let indexOffset := (u16 (recordOffset t m index)).toNat
    let holed := makeHole t m index (keySize.toNat + record.length)
    let dst := indexOffset + sizeOfLength t
    let counted := storeBytes holed indexOffset (leBytes (sizeOfLength t) keyLength)
    let keyed := storeBytes counted dst key
    let bytesToMove := u16 (keySize - key.length)
    let padded := if bytesToMove = 0 then keyed
      else clearBytes keyed (dst + key.length) bytesToMove.toNat
    (true, storeBytes padded (indexOffset + keySize.toNat) record)

def deleteRecord (m : Node) (index : Nat) : Node :=
  let indexOffset := i16 (recordOffset t m index)
  let nextOffset := i16 (recordOffset t m (index + 1))
  let freeOffset := i16 (recordOffset t m (numRecords m))
  let bytesToMove := i16 (freeOffset - nextOffset)
  let moved := if bytesToMove = 0 then m
    else moveBytes m nextOffset.toNat indexOffset.toNat (u64 bytesToMove).toNat
  let deleted := deleteOffset t moved index
  clearBytes deleted (recordOffset t deleted (numRecords deleted)).toNat
    (u64 (i16 (nextOffset - indexOffset))).toNat

end XnuXzs.Hfs
