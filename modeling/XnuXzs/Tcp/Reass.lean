import XnuXzs.Lib.Bytes
import XnuXzs.Lib.Runs
import XnuXzs.Lib.Seq

/-!
# Reassembly

`tcp_reass` queues a segment that came out of order, and passes what has become contiguous to
the socket. `TF_REASS_INPROG` keeps other calls out while the lock is dropped.
-/

namespace XnuXzs.Tcp

open Lib

/-- A segment, and an entry of the queue with it. -/
structure Segment where
  seq : UInt32
  len : Nat
  data : List UInt8
  fin : Bool
  psh : Bool

/-- `m_adj` from the front, with the fields of the entry. -/
def Segment.trim (e : Segment) (i : Nat) : Segment :=
  { e with seq := e.seq + UInt32.ofNat i, len := e.len - i, data := e.data.drop i }

/-- The range reported by the next duplicate SACK. -/
structure Dsack where
  lseq : UInt32
  rseq : UInt32

def overlapBefore (p e : Segment) : Int := seqDiff (p.seq + UInt32.ofNat p.len) e.seq

/-- How much of the entry `q` behind it the segment has. -/
def overlapAfter (e q : Segment) : Int := seqDiff (e.seq + UInt32.ofNat e.len) q.seq

/-- Succeeding segments that are overlapped are trimmed or, if covered, dequeued. -/
def trimAfter (e : Segment) (dsackSet : Bool) (d : Dsack) : List Segment → List Segment × Dsack
  | [] => ([], d)
  | q :: rest =>
    let i := overlapAfter e q
    if i ≤ 0 then (q :: rest, d)
    else
      let dup := UInt32.ofNat (min i.toNat q.len)
      let d' : Dsack :=
        if 1 < i ∧ !dsackSet then
          if d.lseq = 0 then ⟨q.seq, q.seq + dup⟩ else { d with rseq := d.rseq + dup }
        else d
      if i < q.len then (q.trim i.toNat :: rest, d') else trimAfter e dsackSet d' rest

/-- The entries that do not begin after the segment, and those that do. -/
def splitQueue (e : Segment) (segq : List Segment) : List Segment × List Segment :=
  (segq.takeWhile fun q => !seqGt q.seq e.seq, segq.dropWhile fun q => !seqGt q.seq e.seq)

/-- The queue with what is left of the segment. -/
def insertSegment (e : Segment) (d : Dsack) (segq : List Segment) : List Segment × Dsack :=
  let (before, after) := splitQueue e segq
  let place (e : Segment) (dsackSet : Bool) (d : Dsack) : List Segment × Dsack :=
    let (after', d') := trimAfter e dsackSet d after
    (before ++ e :: after', d')
  match before.getLast? with
  | none => place e false d
  | some p =>
    let i := overlapBefore p e
    if 0 < i then
      let d' : Dsack := if 1 < i then ⟨e.seq, e.seq + UInt32.ofNat (min i.toNat e.len)⟩ else d
      if e.len ≤ i then (segq, d') else place (e.trim i.toNat) (1 < i) d'
    else place e false d

/-- What decides about a segment besides the queue. -/
structure Pressure where
  softlimit : Bool
  mbufs : Bool
  qlimit : Nat
  noEntry : Bool

structure State where
  rcvNxt : UInt32
  segq : List Segment
  reassqlen : Nat
  dsack : Dsack
  /-- `TF_REASS_INPROG` -/
  inprog : Bool
  /-- `TF_LAST_IS_PSH` -/
  lastIsPsh : Bool
  /-- How many bytes `rcvNxt` had passed when `SS_CANTRCVMORE` was set. -/
  shutAt : Option Nat
  socket : List UInt8
  /-- What the call that presents data is about to append. -/
  hand : List UInt8
  /-- The flags that this call returns. -/
  flags : Bool
  /-- How many bytes `rcvNxt` has passed. -/
  passed : Nat

/-- `SS_CANTRCVMORE` -/
def State.cantrcvmore (s : State) : Bool := s.shutAt.isSome

/-- The segment is dropped, for it is not the one that is missed. -/
def dropped (pr : Pressure) (s : State) (e : Segment) : Prop :=
  (e.seq ≠ s.rcvNxt ∧ (pr.softlimit ∨ pr.mbufs ∨ pr.qlimit ≤ s.reassqlen + 1)) ∨ pr.noEntry

instance (pr : Pressure) (s : State) (e : Segment) : Decidable (dropped pr s e) :=
  inferInstanceAs (Decidable (_ ∨ _))

/-- A round of the loop that presents data, for the first entry of the queue. -/
def takeFirst (q : Segment) (rest : List Segment) (s : State) : State :=
  { s with
    rcvNxt := s.rcvNxt + UInt32.ofNat q.len
    segq := rest
    reassqlen := s.reassqlen - 1
    inprog := true
    lastIsPsh := if s.cantrcvmore then s.lastIsPsh else q.psh
    hand := if s.cantrcvmore then [] else q.data
    flags := q.fin
    passed := s.passed + q.len }

/-- `present`, up to the first data for the socket. -/
def present (s : State) : State :=
  match s.segq with
  | [] => s
  | q :: rest => if q.seq ≠ s.rcvNxt ∨ s.inprog then s else takeFirst q rest s

/-- `tcp_reass` up to the point where it has data for the socket, or returns. -/
def tcpReass (pr : Pressure) (s : State) (e : Segment) : State :=
  if dropped pr s e then s
  else
    let (segq, dsack) := insertSegment e s.dsack s.segq
    -- The count changes with each entry that is made and freed.
    let reassqlen := s.reassqlen + segq.length - s.segq.length
    present { s with segq := segq, dsack := dsack, reassqlen := reassqlen }

/-- The data is appended, and the loop goes on or ends. -/
def appendHand (s : State) : State :=
  let s := { s with socket := s.socket ++ s.hand, hand := [] }
  match s.segq with
  | [] => { s with inprog := false }
  | q :: rest => if q.seq = s.rcvNxt then takeFirst q rest s else { s with inprog := false }

def segmentAt (stream : Nat → UInt8) (first : UInt32) (pos len : Nat) (fin psh : Bool) : Segment :=
  ⟨seqAt first pos, len, bytesAt stream pos len, fin, psh⟩

/-- Positions less than this many bytes ahead are in the window. -/
def window : Nat := 2 ^ 31

/-- Segments arrive, data is passed on, and the reading side may be shut down. -/
inductive ReassStep (stream : Nat → UInt8) (first : UInt32) (s : State) : State → Prop
  | arrive (pr : Pressure) (pos len : Nat) (fin psh : Bool) (hnew : s.passed ≤ pos)
      (hpos : pos < s.passed + window) (hend : pos + len ≤ s.passed + window)
        (hlen : len < 2 ^ 31) :
      ReassStep stream first s (tcpReass pr s (segmentAt stream first pos len fin psh))
  | append (hinprog : s.inprog = true) : ReassStep stream first s (appendHand s)
  | shutdown : ReassStep stream first s { s with shutAt := s.shutAt <|> some s.passed }

def reassSystem (stream : Nat → UInt8) (first : UInt32) : System State where
  init s := s.rcvNxt = first ∧ s.segq = [] ∧ s.reassqlen = 0 ∧ s.inprog = false ∧ s.socket = [] ∧
    s.hand = [] ∧ s.passed = 0 ∧ s.shutAt = none
  step := ReassStep stream first

end XnuXzs.Tcp
