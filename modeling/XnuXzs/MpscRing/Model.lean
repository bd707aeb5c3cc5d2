import XnuXzs.Lib.Runs
import Mathlib.Logic.Function.Basic

/-!
# A ring of many writers and one reader

The ring of `osfmk/kern/mpsc_ring.c`. A writer publishes the head as its hold, reserves space by
a compare-and-exchange, copies, and takes the hold back. The reader may read up to the least of
the head and the holds. Each access and each byte of a copy is a step.
-/

namespace XnuXzs.MpscRing

open Lib Function

/-- The arguments of `mpsc_ring_init`. -/
structure Config where
  capacityPow2 : Nat
  writersMax : Nat
  capacity_pos : 0 < capacityPow2
  capacity_lt : capacityPow2 < 30
  writers_pos : 0 < writersMax
  writers_lt : writersMax < 2 ^ 8

def Config.capacity (c : Config) : Nat := 2 ^ c.capacityPow2

def holdEmpty : Nat := 2 ^ 32 - 1

/-- Sums and differences of offsets are taken in 32 bits. -/
def add32 (a b : Nat) : Nat := (a + b) % 2 ^ 32

def sub32 (a b : Nat) : Nat := (a + 2 ^ 32 - b) % 2 ^ 32

/-- Where byte `i` of a copy is in the buffer (`_mpsc_ring_copy`): up to its end, and the rest
from its start on. -/
def copyIndex (capacity offset size i : Nat) : Nat :=
  let offsetTrunc := offset % capacity
  let sizeContig := min (capacity - offsetTrunc) size
  if i < sizeContig then offsetTrunc + i else i - sizeContig

/-- Where a writer is in `mpsc_ring_write`, with the offsets that it has loaded. -/
inductive Writer where
  | idle
  | loaded (data : List UInt8) (head tail : Nat)
  | held (data : List UInt8) (head tail : Nat)
  | copying (data : List UInt8) (head done : Nat)
  | leaving

structure Cursor where
  commitPos : Nat
  pos : Nat
  limit : Nat

/-- Where the reader is, from `mpsc_ring_read_start` up to `mpsc_ring_read_finish`. -/
inductive Reader where
  | idle
  | scanning (tail limit next : Nat)
  | reading (cursor : Cursor)
  | copying (cursor : Cursor) (size done : Nat)

/-- The ring and its users. The last three fields are not in the code: the data of all
reservations, the bytes that the reader has finished with, and those it has obtained since its
last start. -/
structure State where
  buffer : Nat → UInt8
  head : Nat
  tail : Nat
  holds : Nat → Nat
  writer : Nat → Writer
  reader : Reader
  stream : List UInt8
  taken : List UInt8
  session : List UInt8

/-- After `mpsc_ring_init`. -/
def initial : State where
  buffer := fun _ => 0
  head := 0
  tail := 0
  holds := fun _ => holdEmpty
  writer := fun _ => .idle
  reader := .idle
  stream := []
  taken := []
  session := []

namespace State

def setWriter (s : State) (i : Nat) (w : Writer) : State :=
  { s with writer := update s.writer i w }

def setHold (s : State) (i hold : Nat) : State :=
  { s with holds := update s.holds i hold }

/-- The exchange succeeds. -/
def reserve (s : State) (i : Nat) (data : List UInt8) (head : Nat) : State :=
  { s with
    head := add32 head data.length
    writer := update s.writer i (.copying data head 0)
    stream := s.stream ++ data }

def copyIn (s : State) (c : Config) (i : Nat) (data : List UInt8) (head done : Nat) (b : UInt8) :
    State :=
  { s with
    buffer := update s.buffer (copyIndex c.capacity head data.length done) b
    writer := update s.writer i (.copying data head (done + 1)) }

def copyOut (s : State) (c : Config) (cursor : Cursor) (size done : Nat) : State :=
  { s with
    reader := .copying cursor size (done + 1)
    session := s.session ++ [s.buffer (copyIndex c.capacity cursor.pos size done)] }

def finish (s : State) (cursor : Cursor) : State :=
  { s with
    tail := cursor.commitPos
    reader := .idle
    taken := s.taken ++ s.session.take (sub32 cursor.commitPos s.tail)
    session := [] }

end State

/-- What a hold does to the limit of the reader. -/
def limitOf (limit hold : Nat) : Nat := if hold = holdEmpty then limit else min limit hold

/-- A step of a writer, which has an id of its own. -/
inductive WriterStep (c : Config) (s : State) (i : Nat) : State → Prop where
  /-- The load in front of the loop. -/
  | load (data : List UInt8) (hidle : s.writer i = .idle) (hsize : data.length < 2 ^ 32) :
      WriterStep c s i (s.setWriter i (.loaded data s.head s.tail))
  | giveUp (data : List UInt8) (head tail : Nat) (hw : s.writer i = .loaded data head tail)
      (hfull : c.capacity ≤ sub32 (add32 head data.length) tail) :
      WriterStep c s i (s.setWriter i .leaving)
  | hold (data : List UInt8) (head tail : Nat) (hw : s.writer i = .loaded data head tail)
      (hroom : sub32 (add32 head data.length) tail < c.capacity) :
      WriterStep c s i ((s.setHold i head).setWriter i (.held data head tail))
  | reserve (data : List UInt8) (head tail : Nat) (hw : s.writer i = .held data head tail)
      (hhead : s.head = head) (htail : s.tail = tail) : WriterStep c s i (s.reserve i data head)
  /-- The exchange fails, because an offset has changed or for no reason. -/
  | retry (data : List UInt8) (head tail : Nat) (hw : s.writer i = .held data head tail) :
      WriterStep c s i (s.setWriter i (.loaded data s.head s.tail))
  | copyIn (data : List UInt8) (head done : Nat) (b : UInt8)
      (hw : s.writer i = .copying data head done) (hb : data[done]? = some b) :
      WriterStep c s i (s.copyIn c i data head done b)
  | release (data : List UInt8) (head : Nat) (hw : s.writer i = .copying data head data.length) :
      WriterStep c s i ((s.setHold i holdEmpty).setWriter i .idle)
  | leave (hw : s.writer i = .leaving) :
      WriterStep c s i ((s.setHold i holdEmpty).setWriter i .idle)

inductive ReaderStep (c : Config) (s : State) : State → Prop where
  | start (hidle : s.reader = .idle) :
      ReaderStep c s { s with reader := .scanning s.tail s.head 0 }
  | scan (tail limit next : Nat) (hr : s.reader = .scanning tail limit next)
      (hnext : next < c.writersMax) :
      ReaderStep c s { s with reader := .scanning tail (limitOf limit (s.holds next)) (next + 1) }
  | started (tail limit : Nat) (hr : s.reader = .scanning tail limit c.writersMax) :
      ReaderStep c s { s with reader := .reading ⟨tail, tail, limit⟩ }
  /-- `mpsc_ring_cursor_advance`, which refuses a size that is too large. -/
  | advance (cursor : Cursor) (size : Nat) (hr : s.reader = .reading cursor)
      (hsize : size ≤ sub32 cursor.limit cursor.pos) :
      ReaderStep c s { s with reader := .copying cursor size 0 }
  | copyOut (cursor : Cursor) (size done : Nat) (hr : s.reader = .copying cursor size done)
      (hdone : done < size) : ReaderStep c s (s.copyOut c cursor size done)
  | copied (cursor : Cursor) (size : Nat) (hr : s.reader = .copying cursor size size) :
      ReaderStep c s { s with reader := .reading { cursor with pos := add32 cursor.pos size } }
  | commit (cursor : Cursor) (hr : s.reader = .reading cursor) :
      ReaderStep c s { s with reader := .reading { cursor with commitPos := cursor.pos } }
  | finish (cursor : Cursor) (hr : s.reader = .reading cursor) : ReaderStep c s (s.finish cursor)
  | cancel (cursor : Cursor) (hr : s.reader = .reading cursor) :
      ReaderStep c s { s with reader := .idle, session := [] }

/-- Any interleaving in which less than 2^32 bytes are reserved, and the reader takes its steps
in states of `guard`. -/
inductive Step (c : Config) (guard : State → Prop) (s : State) : State → Prop where
  | writer {t : State} (i : Nat) (hi : i < c.writersMax) (hstep : WriterStep c s i t)
      (hvolume : t.stream.length < 2 ^ 32) : Step c guard s t
  | reader {t : State} (hstep : ReaderStep c s t) (hguard : guard s) : Step c guard s t

def ringWhere (c : Config) (guard : State → Prop) : System State where
  init s := s = initial
  step := Step c guard

/-- Every interleaving. -/
def ring (c : Config) : System State := ringWhere c fun _ => True

def State.obtained (s : State) : List UInt8 := s.taken ++ s.session

/-- Byte `q` has been copied by the writer that has reserved it. -/
def State.Written (s : State) (q : Nat) : Prop :=
  ∀ i data head done, s.writer i = .copying data head done →
    q < head + done ∨ head + data.length ≤ q

/-- The reader has obtained a beginning of what was reserved, it has obtained nothing of a
write that is not over, and the bytes it has not finished with are in the buffer. -/
structure Sound (c : Config) (s : State) : Prop where
  obtained : s.obtained <+: s.stream
  finished : ∀ i data head done, s.writer i = .copying data head done →
    s.obtained.length ≤ head
  intact : ∀ q b, s.taken.length ≤ q → s.stream[q]? = some b → s.Written q →
    s.buffer (q % c.capacity) = b

/-- The hold that the reader is about to load, if there is one, is not behind its tail. -/
def HoldFresh (c : Config) (s : State) : Prop :=
  ∀ tail limit next, s.reader = .scanning tail limit next → next < c.writersMax →
    s.holds next = holdEmpty ∨ tail ≤ s.holds next

end XnuXzs.MpscRing
