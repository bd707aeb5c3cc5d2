import XnuXzs.Lib.Bytes
import XnuXzs.Lib.Runs

/-!
# The shared data queue

`IOSharedDataQueue`: one thread calls `enqueue`, another one `dequeue` and `peek`. Each load and
store is a step. The region is stored by bytes, in any order, before the tail is.
-/

namespace XnuXzs.DataQueue

open Lib

/-- `DATA_QUEUE_ENTRY_HEADER_SIZE` -/
def headerSize : Nat := 4

def uint32Max : Nat := 2 ^ 32 - 1

/-- Where an entry goes: its offset, where else its size is written, the new tail. -/
structure Placement where
  offset : Nat
  marker : Option Nat
  newTail : Nat

/-- What `enqueue` decides from the loaded tail and head; `none` if it returns false. -/
def placement (queueSize tail head dataSize : Nat) : Option Placement :=
  let entrySize := (dataSize + headerSize) % 2 ^ 32
  if uint32Max - headerSize < dataSize then none
  else if queueSize < tail ∨ queueSize < head then none
  else if head ≤ tail then
    if entrySize ≤ uint32Max - tail ∧ tail + entrySize ≤ queueSize then
      some ⟨tail, none, tail + entrySize⟩
    else if entrySize < head then
      some ⟨0, if headerSize ≤ queueSize - tail then some tail else none, entrySize⟩
    else none
  else if entrySize < head - tail then some ⟨tail, none, tail + entrySize⟩
  else none

def addressed (offset : Nat) (bytes : List UInt8) : List (Nat × UInt8) :=
  bytes.mapIdx fun i b => (offset + i, b)

def Placement.stores (p : Placement) (data : List UInt8) : List (Nat × UInt8) :=
  addressed p.offset (leBytes headerSize data.length ++ data) ++
    p.marker.elim [] fun m => addressed m (leBytes headerSize data.length)

/-- The reader's test whether the entry is at the beginning of the queue. -/
def wrapped (queueSize headOffset headSize : Nat) : Bool :=
  decide (uint32Max - headerSize < headOffset ∨ queueSize < headOffset + headerSize ∨
    uint32Max - headSize < headOffset + headerSize ∨ queueSize < headOffset + headSize + headerSize)

/-- The head behind the entry; `none` if the size makes no sense. -/
def newHeadOffset (queueSize headOffset : Nat) (wrapped : Bool) (entrySize : Nat) : Option Nat :=
  if wrapped then
    if uint32Max - headerSize < entrySize ∨ queueSize < entrySize + headerSize then none
    else some (entrySize + headerSize)
  else if uint32Max - headerSize < entrySize ∨ uint32Max - headOffset < entrySize + headerSize ∨
      queueSize < entrySize + headerSize + headOffset then none
  else some (headOffset + entrySize + headerSize)

inductive Writer where
  | idle
  /-- The tail has been loaded. -/
  | loadHead (data : List UInt8) (tail : Nat)
  /-- The entry is being written; the stores still to be made. -/
  | storing (data : List UInt8) (p : Placement) (tail head : Nat) (stores : List (Nat × UInt8))
  /-- The head is loaded once more, for the notification. -/
  | recheck (tail : Nat)
  | notify

/-- A call of the reader; for `dequeue` the size of the buffer, if there is one. -/
inductive Call where
  | peek
  | dequeue (buffer : Option Nat)

/-- `seen` is the number of entries that were there when the tail was loaded. -/
inductive Reader where
  | idle
  | loadTail (call : Call) (headOffset : Nat)
  /-- `peek` loads the head a second time. -/
  | reload
  | loadHeadSize (call : Call) (headOffset : Nat) (read : List UInt8)
  | loadEntrySize (buffer : Option Nat) (headOffset : Nat) (wrapped : Bool) (read : List UInt8)
  | copying (entry entrySize newHead : Nat) (read : List UInt8)
  | storeHead (newHead : Nat) (copied : Option (List UInt8))
  | dequeued (copied : Option (List UInt8))
  | refused (buffer : Option Nat) (seen : Nat)
  | peeked (entry : Option Nat) (seen : Nat)

structure Entry where
  offset : Nat
  payload : List UInt8

/-- The shared memory, the two threads, the entries in the order of their publication, and what
each successful `dequeue` has copied. -/
structure State where
  head : Nat
  tail : Nat
  mem : Nat → UInt8
  writer : Writer
  reader : Reader
  sent : List Entry
  got : List (Option (List UInt8))

inductive WriterStep (queueSize : Nat) (s : State) : State → Prop
  | enqueue (data : List UInt8) (hidle : s.writer = .idle) (hsize : data.length ≤ uint32Max) :
      WriterStep queueSize s { s with writer := .loadHead data s.tail }
  | full (data : List UInt8) (tail : Nat) (hat : s.writer = .loadHead data tail)
      (hfull : placement queueSize tail s.head data.length = none) :
      WriterStep queueSize s { s with writer := .idle }
  | place (data : List UInt8) (tail : Nat) (p : Placement) (hat : s.writer = .loadHead data tail)
      (hp : placement queueSize tail s.head data.length = some p) :
      WriterStep queueSize s { s with writer := .storing data p tail s.head (p.stores data) }
  | store (data : List UInt8) (p : Placement) (tail head : Nat) (before after : List (Nat × UInt8))
      (address : Nat) (byte : UInt8)
      (hat : s.writer = .storing data p tail head (before ++ (address, byte) :: after)) :
      WriterStep queueSize s { s with
        mem := Function.update s.mem address byte
        writer := .storing data p tail head (before ++ after) }
  | publish (data : List UInt8) (p : Placement) (tail head : Nat)
      (hat : s.writer = .storing data p tail head []) :
      WriterStep queueSize s { s with
        tail := p.newTail
        writer := if tail ≠ head then .recheck tail else .notify
        sent := s.sent ++ [⟨p.offset, data⟩] }
  | recheck (tail : Nat) (hat : s.writer = .recheck tail) :
      WriterStep queueSize s { s with writer := if tail = s.head then .notify else .idle }
  | notify (hat : s.writer = .notify) : WriterStep queueSize s { s with writer := .idle }

def Call.nothing (seen : Nat) : Call → Reader
  | .peek => .peeked none seen
  | .dequeue buffer => .refused buffer seen

/-- The entry has been found: `peek` returns it, `dequeue` loads its size. -/
def Call.found (headOffset : Nat) (wrapped : Bool) (seen : Nat) : Call → Reader
  | .peek => .peeked (some (if wrapped then 0 else headOffset)) seen
  | .dequeue buffer => .loadEntrySize buffer headOffset wrapped []

def afterSize (queueSize : Nat) (buffer : Option Nat) (headOffset : Nat) (wrapped : Bool)
    (entrySize seen : Nat) : Reader :=
  match newHeadOffset queueSize headOffset wrapped entrySize with
  | none => .refused buffer seen
  | some newHead =>
    match buffer with
    | none => .storeHead newHead none
    | some room =>
      if room < entrySize then .refused buffer seen
      else .copying (if wrapped then 0 else headOffset) entrySize newHead []

inductive ReaderStep (queueSize : Nat) (s : State) : State → Prop
  | begin (call : Call) (hidle : s.reader = .idle) :
      ReaderStep queueSize s { s with reader := .loadTail call s.head }
  | empty (call : Call) (headOffset : Nat) (hat : s.reader = .loadTail call headOffset)
      (hempty : headOffset = s.tail) :
      ReaderStep queueSize s { s with reader := call.nothing s.sent.length }
  | peekTail (headOffset : Nat) (hat : s.reader = .loadTail .peek headOffset)
      (hsome : headOffset ≠ s.tail) : ReaderStep queueSize s { s with reader := .reload }
  | dequeueTail (buffer : Option Nat) (headOffset : Nat)
      (hat : s.reader = .loadTail (.dequeue buffer) headOffset) (hsome : headOffset ≠ s.tail)
      (hin : headOffset ≤ queueSize) :
      ReaderStep queueSize s { s with reader := .loadHeadSize (.dequeue buffer) headOffset [] }
  | dequeueOutside (buffer : Option Nat) (headOffset : Nat)
      (hat : s.reader = .loadTail (.dequeue buffer) headOffset) (hsome : headOffset ≠ s.tail)
      (hout : queueSize < headOffset) :
      ReaderStep queueSize s { s with reader := .refused buffer s.sent.length }
  | peekOutside (hat : s.reader = .reload) (hout : queueSize < s.head) :
      ReaderStep queueSize s { s with reader := .peeked none s.sent.length }
  | reload (hat : s.reader = .reload) (hin : s.head ≤ queueSize) :
      ReaderStep queueSize s { s with reader := .loadHeadSize .peek s.head [] }
  | headByte (call : Call) (headOffset : Nat) (read : List UInt8)
      (hat : s.reader = .loadHeadSize call headOffset read) (hmore : read.length < headerSize) :
      ReaderStep queueSize s { s with
        reader := .loadHeadSize call headOffset (read ++ [s.mem (headOffset + read.length)]) }
  | headSize (call : Call) (headOffset : Nat) (read : List UInt8)
      (hat : s.reader = .loadHeadSize call headOffset read) (hall : read.length = headerSize) :
      ReaderStep queueSize s { s with
        reader :=
          call.found headOffset (wrapped queueSize headOffset (leValue read)) s.sent.length }
  | entryByte (buffer : Option Nat) (headOffset : Nat) (wrapped : Bool) (read : List UInt8)
      (hat : s.reader = .loadEntrySize buffer headOffset wrapped read)
      (hmore : read.length < headerSize) :
      ReaderStep queueSize s { s with
        reader := .loadEntrySize buffer headOffset wrapped
          (read ++ [s.mem ((if wrapped then 0 else headOffset) + read.length)]) }
  | entrySize (buffer : Option Nat) (headOffset : Nat) (wrapped : Bool) (read : List UInt8)
      (hat : s.reader = .loadEntrySize buffer headOffset wrapped read)
      (hall : read.length = headerSize) :
      ReaderStep queueSize s { s with
        reader := afterSize queueSize buffer headOffset wrapped (leValue read) s.sent.length }
  | copyByte (entry entrySize newHead : Nat) (read : List UInt8)
      (hat : s.reader = .copying entry entrySize newHead read) (hmore : read.length < entrySize) :
      ReaderStep queueSize s { s with
        reader := .copying entry entrySize newHead
          (read ++ [s.mem (entry + headerSize + read.length)]) }
  | copied (entry entrySize newHead : Nat) (read : List UInt8)
      (hat : s.reader = .copying entry entrySize newHead read) (hall : read.length = entrySize) :
      ReaderStep queueSize s { s with reader := .storeHead newHead (some read) }
  | storeHead (newHead : Nat) (copied : Option (List UInt8))
      (hat : s.reader = .storeHead newHead copied) :
      ReaderStep queueSize s { s with
        head := newHead
        reader := .dequeued copied
        got := s.got ++ [copied] }
  | leaveDequeued (copied : Option (List UInt8)) (hat : s.reader = .dequeued copied) :
      ReaderStep queueSize s { s with reader := .idle }
  | leaveRefused (buffer : Option Nat) (seen : Nat) (hat : s.reader = .refused buffer seen) :
      ReaderStep queueSize s { s with reader := .idle }
  | leavePeeked (entry : Option Nat) (seen : Nat) (hat : s.reader = .peeked entry seen) :
      ReaderStep queueSize s { s with reader := .idle }

/-- The queue after `initWithCapacity`, and the steps of the two threads in any order. -/
def system (queueSize : Nat) : System State where
  init s := s.head = 0 ∧ s.tail = 0 ∧ s.writer = .idle ∧ s.reader = .idle ∧ s.sent = [] ∧ s.got = []
  step s t := WriterStep queueSize s t ∨ ReaderStep queueSize s t

end XnuXzs.DataQueue
