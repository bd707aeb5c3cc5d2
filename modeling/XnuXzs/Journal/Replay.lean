import XnuXzs.Journal.BlockList

/-!
# The loop of replay_journal

One round reads a block list header, checks it, and puts its blocks in the table. A bad
transaction starts the replay again with the end before it, three times at most.
-/

namespace XnuXzs.Journal

open Lib

/-- The variables that live across rounds. -/
structure Replay where
  start : Int
  jnlEnd : Int
  txnStartOffset : Int
  checkPastJnlEnd : Bool
  inUnchartedTerritory : Bool
  checkBlockChecksums : Bool
  lastSequenceNum : UInt32
  retryCount : Nat
  table : Table
  deriving DecidableEq, Repr

/-- What a round touches: an entry of the header, a size passed to `read_journal_data` with that
of its buffer, one passed to `add_block` with the list's largest. -/
inductive Access where
  | entry (i : Nat)
  | read (size : Int) (buffer : Option Int)
  | add (size maxBsize : Int)
  deriving DecidableEq, Repr

inductive Outcome where
  | next (s : Replay)
  | badTxn (s : Replay)
  | badReplay
  | panic
  | addFault (f : Fault)
  deriving DecidableEq, Repr

def accessing {α : Type} (before : List Access) (r : List Access × α) : List Access × α :=
  (before ++ r.1, r.2)

/-- The first pass: the largest size, as a `size_t`, or `none` at a bogus block number. -/
def scanBlocks (h : BlockList) : Nat → Nat → Int → List Access × Option Int
  | 0, _, maxBsize => ([], some maxBsize)
  | n + 1, i, maxBsize =>
    let b := h.binfo i
    if b.bnum < 0 ∧ b.bnum ≠ -1 then ([.entry i], none)
    else accessing [.entry i] (scanBlocks h n (i + 1) (max maxBsize (u64 b.bsize)))

/-- `hfs_malloc_data`. `kalloc_large` returns `NULL` for a size beyond the address space of 38
bits; other requests are met. -/
def hfsMallocData (size : Int) : Option Int := if size / 2 ^ 38 = 0 then some size else none

/-- What the checksum test of a block finds. -/
inductive Verdict where
  | pass
  | bad
  | panic
  deriving DecidableEq, Repr

/-- The test of one block. The checksum goes through the buffer, so without one a read that
succeeds is followed by a fault. -/
def checkBlock (d : Disk) (b : BlockInfo) (blockPtr : Option Int) (offset : Int) : Verdict :=
  match readJournalData d offset b.bsize with
  | .panic => .panic
  | .failed => .bad
  | .done data _ =>
    if blockPtr = none then .panic
    else if b.cksum ≠ 0 ∧ calcChecksum data ≠ b.cksum then .bad
    else .pass

/-- Where the block after one of `size` bytes lies. -/
def nextBlock (d : Disk) (offset size : Int) : Int :=
  if offset + size ≥ d.geometry.size then d.geometry.jhdrSize + (offset + size - d.geometry.size)
  else offset + size

/-- Why the second pass over the entries stops. -/
inductive Stop where
  | badTxn (t : Table)
  | panic
  | addFault (f : Fault)
  deriving DecidableEq, Repr

/-- What the second pass does for all the blocks of a list alike. -/
structure Pass where
  checkBlockChecksums : Bool
  blockPtr : Option Int
  maxBsize : Int
  deriving DecidableEq, Repr

def Pass.check (d : Disk) (q : Pass) (b : BlockInfo) (offset : Int) : List Access × Verdict :=
  if q.checkBlockChecksums then ([.read b.bsize q.blockPtr], checkBlock d b q.blockPtr offset)
  else ([], .pass)

/-- The second pass: killed blocks are skipped, the others checked and added. -/
def addList (d : Disk) (h : BlockList) (q : Pass) :
    Nat → Nat → Int → Table → List Access × Except Stop Table
  | 0, _, _, t => ([], .ok t)
  | n + 1, i, offset, t =>
    let b := h.binfo i
    let rest := addList d h q n (i + 1) (nextBlock d offset b.bsize)
    if b.bnum = -1 then accessing [.entry i] (rest t)
    else
      let (reads, verdict) := q.check d b offset
      accessing (.entry i :: reads) <|
        match verdict with
        | .panic => ([], .error .panic)
        | .bad => ([], .error (.badTxn t))
        | .pass => accessing [.add b.bsize q.maxBsize] <|
          match addBlock d.geometry t ⟨b.bnum, u64 b.bsize, u64 offset, i32 b.cksum.toNat⟩ with
          | .error f => ([], .error (.addFault f))
          | .ok t => rest t

def advanceStart (d : Disk) (h : BlockList) (start : Int) : Int :=
  if start + h.bytesUsed ≥ d.geometry.size then
    (start + h.bytesUsed) % d.geometry.size + d.geometry.jhdrSize
  else start + h.bytesUsed

/-- What the second pass does for a list whose largest size is known. -/
def passFor (h : BlockList) (checking : Bool) (maxBsize : Int) : Pass where
  checkBlockChecksums := checking || h.checkChecksums
  blockPtr := if h.checkChecksums then hfsMallocData maxBsize else none
  maxBsize

/-- Both passes over a list, and the step to the next one. -/
def processList (d : Disk) (s : Replay) (h : BlockList) (offset : Int) : List Access × Outcome :=
  match scanBlocks h (h.numBlocks - 1) 1 0 with
  | (scanned, none) => (scanned, .badTxn s)
  | (scanned, some maxBsize) =>
    let q := passFor h s.checkBlockChecksums maxBsize
    let s := { s with
      checkBlockChecksums := q.checkBlockChecksums
      txnStartOffset := if h.firstHeader then s.start else s.txnStartOffset }
    accessing scanned <|
      match addList d h q (h.numBlocks - 1) 1 offset s.table with
      | (added, .error (.badTxn t)) => (added, .badTxn { s with table := t })
      | (added, .error .panic) => (added, .panic)
      | (added, .error (.addFault f)) => (added, .addFault f)
      | (added, .ok t) =>
        let start := advanceStart d h s.start
        (added, .next { s with
          start
          inUnchartedTerritory := s.inUnchartedTerritory || decide (start = s.jnlEnd)
          table := t })

def outOfSequence (last seq : UInt32) : Bool :=
  last != 0 && seq != 0 && seq != last && seq != last + 1

def badLooking (d : Disk) (h : BlockList) : Bool :=
  h.maxBlocks = 0 || (h.maxBlocks : Int) > d.geometry.size.tdiv d.geometry.jhdrSize ||
    h.numBlocks = 0 || h.numBlocks > h.maxBlocks

/-- The checks of a header whose checksum is right. -/
def checkHeader (d : Disk) (s : Replay) (h : BlockList) (offset : Int) : List Access × Outcome :=
  if outOfSequence s.lastSequenceNum h.sequenceNum then
    let s := { s with txnStartOffset := s.start, jnlEnd := s.start }
    ([], if s.checkPastJnlEnd then .next { s with checkPastJnlEnd := false } else .badTxn s)
  else
    let s := { s with lastSequenceNum := h.sequenceNum }
    if s.start ≥ s.jnlEnd ∧ s.start ≤ s.jnlEnd ∧ s.lastSequenceNum = 0 then
      ([], .next { s with checkPastJnlEnd := false, start := s.jnlEnd })
    else if badLooking d h then ([], .badTxn s)
    else processList d s h offset

def badHeader (origJnlStart : Int) (s : Replay) : Outcome :=
  if s.checkPastJnlEnd && s.inUnchartedTerritory then
    .next { s with checkPastJnlEnd := false, jnlEnd := s.start }
  else if s.start = origJnlStart then .badReplay
  else .badTxn s

/-- The entries that `swap_block_list_header` swaps. -/
def swapAccesses (d : Disk) (h : BlockList) : List Access :=
  if swapsEntries d h.numBlocks then (List.range h.numBlocks).map .entry else []

def body (d : Disk) (origJnlStart : Int) (s : Replay) : List Access × Outcome :=
  match readJournalData d s.start d.blhdrSize with
  | .panic => ([], .panic)
  | .failed => ([], .badTxn s)
  | .done data offset =>
    let h := readBlockList d data
    accessing (swapAccesses d h) <|
      if h.computed ≠ h.checksum then ([], badHeader origJnlStart s)
      else accessing [.entry 0] (checkHeader d s h offset)

inductive Result where
  | done (s : Replay)
  | badReplay
  | panic
  | addFault (f : Fault)
  deriving DecidableEq, Repr

/-- `bad_txn_handling`, and `restart_replay` with an empty table of the same length. -/
def badTxnHandling (origJnlStart : Int) (s : Replay) : Result ⊕ Replay :=
  if s.txnStartOffset = 0 then .inl .badReplay
  else if s.retryCount = 3 then .inl .badReplay
  else .inr { s with
    start := origJnlStart
    jnlEnd := s.txnStartOffset
    checkPastJnlEnd := false
    lastSequenceNum := 0
    retryCount := s.retryCount + 1
    table := ⟨s.table.buf.map fun b => { b with blockNum := -1 }, 0⟩ }

def Outcome.handle (origJnlStart : Int) : Outcome → Result ⊕ Replay
  | .next s => .inr s
  | .badTxn s => badTxnHandling origJnlStart s
  | .badReplay => .inl .badReplay
  | .panic => .inl .panic
  | .addFault f => .inl (.addFault f)

/-- The test of the loop and one round. -/
def round (d : Disk) (origJnlStart : Int) (s : Replay) : List Access × (Result ⊕ Replay) :=
  if s.checkPastJnlEnd ∨ s.start ≠ s.jnlEnd then
    ((body d origJnlStart s).1, (body d origJnlStart s).2.handle origJnlStart)
  else ([], .inl (.done s))

/-- The start and the end with the wrap at the very end of the journal. -/
def wrapEnd (d : Disk) (offset : Int) : Int :=
  if offset = d.geometry.size then d.geometry.jhdrSize else offset

def Disk.origJnlStart (d : Disk) : Int := wrapEnd d d.start
def Disk.origJnlEnd (d : Disk) : Int := wrapEnd d d.jnlEnd

def Disk.initial (d : Disk) : Replay :=
  ⟨d.origJnlStart, d.origJnlEnd, 0, true, false, false, 0, 0, Table.empty⟩

/-- The replay after `n` rounds: what it touched, and how it was left or where it stands. An
empty journal is not replayed. -/
def Disk.replay (d : Disk) : Nat → List Access × (Result ⊕ Replay)
  | 0 =>
    ([], if d.origJnlStart = d.origJnlEnd then .inl (.done d.initial) else .inr d.initial)
  | n + 1 =>
    match d.replay n with
    | (before, .inl r) => (before, .inl r)
    | (before, .inr s) => accessing before (round d d.origJnlStart s)

theorem replay_of_running {d : Disk} {n : Nat} {s : Replay} (h : (d.replay n).2 = .inr s) :
    d.replay (n + 1) = accessing (d.replay n).1 (round d d.origJnlStart s) := by
  rcases hn : d.replay n with ⟨before, r | s'⟩
  · simp [hn] at h
  · rw [hn] at h
    cases h
    rw [Disk.replay, hn]

theorem replay_of_left {d : Disk} {n : Nat} {r : Result} (h : (d.replay n).2 = .inl r) :
    d.replay (n + 1) = d.replay n := by
  rcases hn : d.replay n with ⟨before, r' | s⟩
  · rw [Disk.replay, hn]
  · simp [hn] at h

end XnuXzs.Journal
