import XnuXzs.Lib.Bytes
import XnuXzs.Journal.Buckets

/-!
# Block lists on the disk

Reading from the journal as `do_journal_io` does it, and the block list header
in the buffer it is read into: its checksum, its byte order and its entries.
-/

namespace XnuXzs.Journal

open Lib

/-- A journal that `journal_open` is about to replay: the checked header fields, and the device,
which answers every transfer the same way each time; `none` is an error. `behind` is what lies
in memory after a block list header. -/
structure Disk where
  geometry : Geometry
  start : Int
  jnlEnd : Int
  blhdrSize : Int
  needSwap : Bool
  jdevOffset : Int
  maxReadSize : Int
  strategy : Int → Int → Option (Nat → UInt8)
  behind : Nat → UInt8
  size_looks_good : 256 * 1024 ≤ geometry.size ∧ geometry.size ≤ 1024 * 1024 * 1024
  start_looks_good : 0 < start ∧ start ≤ geometry.size ∧ start % 512 = 0
  end_looks_good : 0 < jnlEnd ∧ jnlEnd ≤ geometry.size ∧ jnlEnd % 512 = 0
  jhdr_size_nonzero : geometry.jhdrSize ≠ 0
  blhdr_size_int : 0 ≤ blhdrSize ∧ blhdrSize < 2 ^ 31

/-- How a transfer ends: a panic, a return of 0, or the bytes and the offset behind them. -/
inductive Transfer where
  | panic
  | failed
  | done (data : List UInt8) (offset : Int)
  deriving DecidableEq, Repr

/-- Where the next part of a transfer of `left` bytes lies and how long it is. -/
def nextPart (d : Disk) (offset left : Int) : Int × Int :=
  let size := d.geometry.size
  if offset + left > size ∧ offset ≠ 0 ∧ size ≠ 0 then
    if offset = size then (d.geometry.jhdrSize, min left d.maxReadSize)
    else (offset, min (size - offset) d.maxReadSize)
  else (offset, min left d.maxReadSize)

/-- The loop of `do_journal_io` for a read. Every part has a byte, so a round more than there
are bytes is enough. -/
def transferLoop (d : Disk) : Nat → Int → Int → List UInt8 → Transfer
  | 0, _, _, _ => .panic
  | fuel + 1, offset, left, data =>
    let (offset, curlen) := nextPart d offset left
    if curlen ≤ 0 then .panic
    else if offset = 0 then .panic
    else
      match d.strategy ((d.jdevOffset + offset).tdiv d.geometry.jhdrSize) curlen with
      | none => .failed
      | some bytes =>
        let data := data ++ bytesAt bytes 0 curlen.toNat
        let offset := offset + curlen
        if left - curlen = 0 then .done data offset
        else
          transferLoop d fuel (if offset ≥ d.geometry.size then d.geometry.jhdrSize else offset)
            (left - curlen) data

def readJournalData (d : Disk) (offset len : Int) : Transfer :=
  if offset < 0 ∨ offset > d.geometry.size then .panic
  else transferLoop d (len.toNat + 1) offset len []

def calcChecksum (bytes : List UInt8) : UInt32 :=
  ~~~ bytes.foldl (fun cksum b => (cksum <<< 8) ^^^ (cksum + b.toUInt32)) 0

/-- `block_info`; the word after the size is a checksum, or the sequence number
in the first entry. -/
structure BlockInfo where
  bnum : Int
  bsize : Int
  cksum : UInt32
  deriving DecidableEq, Repr

/-- `block_list_header` as read and swapped. `computed` is the checksum of its first 32 bytes
with the checksum field cleared. -/
structure BlockList where
  maxBlocks : Nat
  numBlocks : Nat
  bytesUsed : Int
  checksum : UInt32
  computed : UInt32
  flags : UInt32
  binfo : Nat → BlockInfo

def BlockList.sequenceNum (h : BlockList) : UInt32 := (h.binfo 0).cksum

def BlockList.checkChecksums (h : BlockList) : Bool := h.flags &&& 1 != 0
def BlockList.firstHeader (h : BlockList) : Bool := h.flags &&& 2 != 0

/-- A field of `k` bytes, its bytes turned round if it is swapped. -/
def fieldAt (swap : Bool) (m : Nat → UInt8) (p k : Nat) : Nat :=
  leValue (if swap then (bytesAt m p k).reverse else bytesAt m p k)

def blockInfoAt (swap : Bool) (m : Nat → UInt8) (i : Nat) : BlockInfo where
  bnum := i64 (fieldAt swap m (16 + 16 * i) 8)
  bsize := i32 (fieldAt swap m (24 + 16 * i) 4)
  cksum := UInt32.ofNat (fieldAt swap m (28 + 16 * i) 4)

/-- `journal_max_blocks`. The division is one of unsigned longs. -/
def journalMaxBlocks (d : Disk) : Int := i32 (u64 d.blhdrSize / 16 - 1)

/-- `swap_block_list_header` leaves the entries alone if there are suspiciously many. -/
def swapsEntries (d : Disk) (numBlocks : Nat) : Bool :=
  d.needSwap && decide ((numBlocks : Int) < journalMaxBlocks d)

/-- The buffer after a read. Behind the bytes that were read lies other memory. -/
def bufferAfter (d : Disk) (data : List UInt8) (i : Nat) : UInt8 := data.getD i (d.behind i)

def readBlockList (d : Disk) (data : List UInt8) : BlockList :=
  let m := bufferAfter d data
  let numBlocks := fieldAt d.needSwap m 2 2
  { maxBlocks := fieldAt d.needSwap m 0 2
    numBlocks
    bytesUsed := i32 (fieldAt d.needSwap m 4 4)
    checksum := UInt32.ofNat (fieldAt d.needSwap m 8 4)
    computed := calcChecksum (bytesAt m 0 8 ++ [0, 0, 0, 0] ++ bytesAt m 12 20)
    flags := UInt32.ofNat (fieldAt d.needSwap m 12 4)
    binfo := fun i => blockInfoAt (swapsEntries d numBlocks && decide (i < numBlocks)) m i }

/-- How many entries fit in the bytes of a block list header. -/
def entriesRead (d : Disk) : Int := (d.blhdrSize - 16) / 16

theorem journalMaxBlocks_eq (d : Disk) : journalMaxBlocks d = entriesRead d := by
  obtain ⟨hlo, hhi⟩ := d.blhdr_size_int
  rw [journalMaxBlocks, entriesRead, u64_eq hlo (by omega), i32_eq (by omega) (by omega)]
  omega

/-- A journal of 256 KiB from 512 to 1536, with the given bytes at its start, then zeros. -/
def sampleDisk (header : List UInt8) : Disk where
  geometry := ⟨256 * 1024, 512⟩
  start := 512
  jnlEnd := 1536
  blhdrSize := 512
  needSwap := false
  jdevOffset := 0
  maxReadSize := 128 * 1024
  strategy := fun blkno _ => some fun i => if blkno = 1 then header.getD i 0 else 0
  behind := fun _ => 0
  size_looks_good := by decide
  start_looks_good := by decide
  end_looks_good := by decide
  jhdr_size_nonzero := by decide
  blhdr_size_int := by decide

end XnuXzs.Journal
