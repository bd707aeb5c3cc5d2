import XnuXzs.Lib.Machine

/-!
# The table of blocks to replay

`lookup_bucket`, `insert_block`, `do_overlap` and `add_block` on the array: the live buckets,
then the free ones, with block number -1. A panic and a return of -1 are faults. Allocation
succeeds.
-/

namespace XnuXzs.Journal

open Lib

/-- The fields of the journal header that the table depends on. -/
structure Geometry where
  size : Int
  jhdrSize : Int
  deriving DecidableEq, Repr

structure Bucket where
  blockNum : Int
  jnlOffset : Int
  blockSize : Int
  cksum : Int
  deriving DecidableEq, Repr

/-- `*buf_ptr`, whose length is `num_buckets`, and `num_full`. -/
structure Table where
  buf : List Bucket
  numFull : Nat
  deriving DecidableEq, Repr

inductive Fault where
  | panic
  | error
  deriving DecidableEq, Repr

def startingBuckets : Nat := 256

def freeBucket : Bucket := ⟨-1, 0, 0, 0⟩

def Table.empty : Table := ⟨List.replicate startingBuckets freeBucket, 0⟩

def bucketAt (buf : List Bucket) (i : Nat) : Bucket := buf.getD i freeBucket

/-- `bcopy` of `n` elements inside the array. -/
def bcopy (buf : List Bucket) (src dst n : Nat) : List Bucket :=
  buf.take dst ++ (buf.drop src).take n ++ buf.drop (dst + n)

/-- The binary search: the final `hi`, and `index` if it hit. Rounds halve the interval, so
`num_full` are enough. -/
def searchLoop (buf : List Bucket) (blockNum : Int) : Nat → Nat → Nat → Nat × Option Nat
  | 0, _, hi => (hi, none)
  | fuel + 1, lo, hi =>
    let mid := (hi - lo) / 2 + lo
    let thisNum := (bucketAt buf mid).blockNum
    if blockNum = thisNum then (hi, some mid)
    else
      let lo' := if blockNum < thisNum then lo else mid + 1
      let hi' := if blockNum < thisNum then mid else hi
      if lo' < hi' then searchLoop buf blockNum fuel lo' hi' else (hi', none)

/-- How many entries from `i` on have the number, at most `n`. -/
def countMatches (buf : List Bucket) (blockNum : Int) : Nat → Nat → Nat
  | 0, _ => 0
  | n + 1, i =>
    if blockNum = (bucketAt buf i).blockNum then countMatches buf blockNum n (i + 1) + 1 else 0

def lookupBucket (buf : List Bucket) (blockNum : Int) (numFull : Nat) : Nat :=
  if numFull = 0 then 0
  else
    let r := searchLoop buf blockNum numFull 0 (numFull - 1)
    let hi := r.1
    let index := if blockNum = (bucketAt buf hi).blockNum then some hi else r.2
    match index with
    | none => if blockNum < (bucketAt buf hi).blockNum then hi else hi + 1
    | some i => i + countMatches buf blockNum (numFull - (i + 1)) (i + 1)

def growTable (buf : List Bucket) (newSize : Int) : List Bucket :=
  if newSize < buf.length then buf
  else buf ++ List.replicate (newSize - buf.length).toNat freeBucket

/-- `insert_block` grows the table when only one free bucket is left. -/
def ensureRoom (t : Table) : Except Fault (List Bucket) :=
  if t.numFull + 1 ≥ t.buf.length then
    let newSize := i32 (t.buf.length * 2)
    let buf := growTable t.buf newSize
    if buf.length < newSize then .error .error else .ok buf
  else .ok t.buf

/-- The part of `insert_block` for a new entry: room, then the entries from
`blkIndex` on move up. -/
def makeRoom (t : Table) (blkIndex : Nat) : Except Fault Table := do
  let buf ← ensureRoom t
  .ok ⟨if blkIndex ≠ t.numFull then bcopy buf blkIndex (blkIndex + 1) (t.numFull - blkIndex)
    else buf, t.numFull + 1⟩

/-- A journal offset past the end, taken around once. -/
def wrapOnce (g : Geometry) (offset : Int) : Int :=
  if i64 offset ≥ g.size then u64 (g.jhdrSize + (offset - g.size)) else offset

def insertBlock (g : Geometry) (t : Table) (blkIndex : Nat) (num size offset cksum : Int)
    (overwriting : Bool) : Except Fault Table := do
  let t ← if overwriting then .ok t else makeRoom t blkIndex
  if size ≤ 0 then .error .panic
  else .ok { t with
    buf := t.buf.set blkIndex ⟨num, u32 (wrapOnce g offset), u32 size, cksum⟩ }

/-- A previous entry that goes on after the new block: its tail becomes an entry
of its own. -/
def splitPrevious (g : Geometry) (t : Table) (blkIndex : Nat) (prev : Bucket)
    (prevStart prevEnd blockEnd cksum : Int) : Except Fault Table :=
  if prevEnd > blockEnd then
    insertBlock g t blkIndex (i64 (u64 blockEnd / u64 g.jhdrSize)) (u64 (prevEnd - blockEnd))
      (u64 (prev.jnlOffset + (blockEnd - prevStart))) cksum false
  else .ok t

/-- The first part of `do_overlap`: the previous entry gives up what the new
block covers. -/
def cutPrevious (g : Geometry) (t : Table) (blkIndex : Nat) (blockStart blockEnd cksum : Int) :
    Except Fault Table :=
  let jhdrSize := u64 g.jhdrSize
  let prev := bucketAt t.buf (blkIndex - 1)
  let prevStart := i64 (prev.blockNum * jhdrSize)
  let prevEnd := i64 (prevStart + prev.blockSize)
  let overlap := i64 (prevEnd - blockStart)
  if overlap > 0 then
    if overlap % jhdrSize ≠ 0 then .error .panic
    else do
      let t ← splitPrevious g t blkIndex prev prevStart prevEnd blockEnd cksum
      let kept := { prev with blockSize := u32 (blockStart - prevStart), cksum := 0 }
      .ok ⟨t.buf.set (blkIndex - 1) kept, t.numFull⟩
  else .ok t

/-- An entry that begins before the end of the new block: marked with -2 if covered whole, else
moved up to that end. -/
def trimBucket (g : Geometry) (blockEnd : Int) (b : Bucket) : Except Fault Bucket :=
  let jhdrSize := u64 g.jhdrSize
  if blockEnd ≥ i64 (b.blockNum * jhdrSize + b.blockSize) then .ok { b with blockNum := -2 }
  else
    let overlap := i64 (blockEnd - b.blockNum * jhdrSize)
    if overlap > 0 then
      if overlap % jhdrSize ≠ 0 then .error .panic
      else if u32 (b.blockSize - overlap) ≤ 0 then .error .panic
      else .ok
        { blockNum := i64 (b.blockNum + overlap / jhdrSize)
          jnlOffset := u32 (wrapOnce g (u64 (b.jnlOffset + overlap)))
          blockSize := u32 (b.blockSize - overlap)
          cksum := 0 }
    else .ok b

/-- The loop over the following entries: the buckets, where it stops, and how many are marked. -/
def overlapLoop (g : Geometry) (blockEnd : Int) (numFull : Nat) :
    Nat → List Bucket → Nat → Nat → Except Fault (List Bucket × Nat × Nat)
  | 0, buf, index, numToRemove => .ok (buf, index, numToRemove)
  | fuel + 1, buf, index, numToRemove =>
    let b := bucketAt buf index
    if index < numFull ∧ blockEnd > i64 (b.blockNum * u64 g.jhdrSize) then do
      let b' ← trimBucket g blockEnd b
      overlapLoop g blockEnd numFull fuel (buf.set index b') (index + 1)
        (if b'.blockNum = -2 then numToRemove + 1 else numToRemove)
    else .ok (buf, index, numToRemove)

def removeAt (t : Table) (index : Nat) : Table :=
  if index = t.numFull - 1 then
    ⟨t.buf.set index { bucketAt t.buf index with blockNum := -1 }, t.numFull - 1⟩
  else ⟨bcopy t.buf (index + 1) index (t.numFull - (index + 1)), t.numFull - 1⟩

/-- The loop that removes marked entries, from `blkIndex + n - 1` down. -/
def deleteMarked (blkIndex : Nat) : Nat → Table → Table
  | 0, t => t
  | n + 1, t =>
    deleteMarked blkIndex n
      (if (bucketAt t.buf (blkIndex + n)).blockNum = -2 then removeAt t (blkIndex + n) else t)

/-- The last loop: `n` stale entries from `i` on become free. -/
def clearStale (buf : List Bucket) : Nat → Nat → List Bucket
  | _, 0 => buf
  | i, n + 1 => clearStale (buf.set i { bucketAt buf i with blockNum := -1 }) (i + 1) n

/-- The second part of `do_overlap`: return if the new block leaves the following entries alone,
otherwise cut them. -/
def cutFollowing (g : Geometry) (t : Table) (blkIndex : Nat) (blockEnd cksum : Int)
    (overwrite : Bool) : Except Fault (Table × Bool) :=
  let jhdrSize := u64 g.jhdrSize
  if !overwrite ∧ blockEnd ≤ i64 ((bucketAt t.buf blkIndex).blockNum * jhdrSize) then
    .ok (t, false)
  else if overwrite ∧ (blkIndex + 1 ≥ t.numFull ∨
      blockEnd ≤ i64 ((bucketAt t.buf (blkIndex + 1)).blockNum * jhdrSize)) then
    .ok (⟨t.buf.set blkIndex { bucketAt t.buf blkIndex with cksum := cksum }, t.numFull⟩, true)
  else do
    let (buf, index, numToRemove) ←
      overlapLoop g blockEnd t.numFull (t.numFull - blkIndex) t.buf blkIndex 0
    let t := deleteMarked blkIndex (index - blkIndex) ⟨buf, t.numFull⟩
    .ok (⟨clearStale t.buf t.numFull numToRemove, t.numFull⟩, false)

/-- The new block begins where an entry begins and is no smaller. -/
def overwrites (t : Table) (blkIndex : Nat) (blockNum size : Int) : Bool :=
  blockNum = (bucketAt t.buf blkIndex).blockNum && size ≥ (bucketAt t.buf blkIndex).blockSize

/-- `do_overlap`; the second component is its return value 0 or 1. -/
def doOverlap (g : Geometry) (t : Table) (blkIndex : Nat) (blockNum size cksum : Int) :
    Except Fault (Table × Bool) :=
  let blockStart := i64 (blockNum * u64 g.jhdrSize)
  let blockEnd := i64 (blockStart + size)
  let overwrite := overwrites t blkIndex blockNum size
  if blkIndex ≠ 0 ∧ !overwrite then do
    let t ← cutPrevious g t blkIndex blockStart blockEnd cksum
    cutFollowing g t blkIndex blockEnd cksum overwrite
  else cutFollowing g t blkIndex blockEnd cksum overwrite

structure Call where
  blockNum : Int
  size : Int
  offset : Int
  cksum : Int
  deriving DecidableEq, Repr

def addBlock (g : Geometry) (t : Table) (c : Call) : Except Fault Table := do
  let blkIndex := lookupBucket t.buf c.blockNum t.numFull
  if blkIndex > t.numFull then .error .error
  else do
    let (t, overwriting) ← doOverlap g t blkIndex c.blockNum c.size c.cksum
    insertBlock g t blkIndex c.blockNum c.size c.offset c.cksum overwriting

def addBlocks (g : Geometry) (t : Table) (calls : List Call) : Except Fault Table :=
  calls.foldlM (addBlock g) t

end XnuXzs.Journal
