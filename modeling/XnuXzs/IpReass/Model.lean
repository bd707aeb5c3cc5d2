import XnuXzs.Lib.Runs
import XnuXzs.Lib.Spans

/-!
# Reassembly of IPv4 fragments

`ip_reass` of `bsd/netinet/ip_input.c` with its table of queues. Offset and length of a queued
fragment are 16-bit fields of its header; sums of them are taken in `int`.
-/

namespace XnuXzs.IpReass

open Lib

abbrev Byte := BitVec 8

/-- What tells datagrams from each other. -/
structure Key where
  id : BitVec 16
  src : BitVec 32
  dst : BitVec 32
  p : BitVec 8
  deriving DecidableEq

/-- A fragment as `ip_input` hands it over: the header is complete, and what is behind `ip_len`
has been cut off. -/
@[ext]
structure Packet where
  key : Key
  tos : BitVec 8
  hl : Nat
  off : Nat
  data : List Byte
  hl_ge : 5 ≤ hl
  hl_le : hl ≤ 15
  off_lt : off < 65536
  /-- more fragments, or an offset -/
  frag : off &&& 0x3fff ≠ 0
  /-- `ip_len` is a field of 16 bits. -/
  size : 4 * hl + data.length < 65536

instance : DecidableEq Packet := fun _ _ => decidable_of_iff _ Packet.ext_iff.symm

/-- `IP_MF` -/
def Packet.more (m : Packet) : Bool := decide (m.off &&& 0x2000 ≠ 0)

/-- The byte of the datagram at which the data begins. -/
def Packet.start (m : Packet) : Nat := 8 * (m.off % 8192)

/-- A queued fragment. The last field is not in the code: the packet that it is from. -/
structure Frag where
  off : Nat
  len : Nat
  more : Bool
  tos : BitVec 8
  hl : Nat
  data : List Byte
  src : Packet
  deriving DecidableEq

/-- The true byte offset: the end of a fragment never changes. -/
def Frag.base (f : Frag) : Nat := f.src.start + f.src.data.length - f.len

/-- The queue of a datagram; `got` are the packets that were put into it. -/
structure Ipq where
  key : Key
  ttl : Nat
  nfrags : Nat
  frags : List Frag
  got : List Packet
  deriving DecidableEq

structure Datagram where
  src : BitVec 32
  dst : BitVec 32
  len : Nat
  hl : Nat
  data : List Byte
  deriving DecidableEq

structure Limits where
  maxnipq : Int
  maxfragsperpacket : Nat

/-- The length without the header, the offset in bytes, and the check of the length. -/
def Packet.toFrag (m : Packet) : Option Frag :=
  let f : Frag := ⟨m.off * 8 % 65536, m.data.length, m.more, m.tos, m.hl, m.data, m⟩
  if m.more = true ∧ (m.data.length = 0 ∨ m.data.length % 8 ≠ 0) then none else some f

/-- `m_adj` from the front, with the fields of the header. -/
def Frag.adj (f : Frag) (i : Nat) : Frag :=
  { f with off := (f.off + i) % 65536, len := f.len - i, data := f.data.drop i }

/-- The bits for congestion: the first fragment keeps CE, which must not meet not-ECT. -/
def ecn (frags : List Frag) (tos : BitVec 8) : Option (List Frag) :=
  match frags with
  | [] => some []
  | f :: fs =>
    let ecn := tos &&& 3
    let ecn0 := f.tos &&& 3
    if ecn = 3 ∧ ecn0 = 0 then none
    else if ecn = 0 ∧ ecn0 ≠ 0 then none
    else if ecn = 3 ∧ ecn0 ≠ 3 then some ({ f with tos := f.tos ||| 3 } :: fs)
    else some (f :: fs)

/-- The data that the preceding fragment provides already is dropped. -/
def trimFront (p : Option Frag) (m : Frag) : Option Frag :=
  match p with
  | none => some m
  | some p =>
    let i : Int := p.off + p.len - m.off
    if 0 < i then
      if i ≥ m.len then none else some (m.adj i.toNat)
    else some m

/-- Succeeding fragments are trimmed, or dequeued if covered; the second result counts those. -/
def trimNext (stop : Nat) : List Frag → List Frag × Nat
  | [] => ([], 0)
  | q :: qs =>
    if stop > q.off then
      let i := stop - q.off
      if i < q.len then (q.adj i :: qs, 0)
      else ((trimNext stop qs).1, (trimNext stop qs).2 + 1)
    else (q :: qs, 0)

inductive Outcome where
  | keep (fp : Ipq)
  | free
  | deliver (d : Datagram) (fp : Ipq)

/-- A queue that is not complete is kept up to the limit. -/
def Ipq.wait (l : Limits) (fp : Ipq) : Outcome :=
  if fp.nfrags > l.maxfragsperpacket then .free else .keep fp

def Ipq.check (l : Limits) (fp : Ipq) : Outcome :=
  match contiguous Frag.off Frag.len 0 fp.frags, fp.frags.head?, fp.frags.getLast? with
  | some next, some first, some last =>
    if last.more = true then fp.wait l
    else if next + 4 * first.hl > 65535 then .free
    else .deliver ⟨fp.key.src, fp.key.dst, (4 * first.hl + next) % 65536, first.hl,
      fp.frags.flatMap Frag.data⟩ fp
  | _, _, _ => fp.wait l

/-- A fragment for a queue that exists. -/
def Ipq.add (l : Limits) (fp : Ipq) (m : Frag) : Outcome :=
  match ecn fp.frags m.tos with
  | none => .keep fp
  | some frags =>
    let before := frags.takeWhile fun f => decide (f.off ≤ m.off)
    let after := frags.dropWhile fun f => decide (f.off ≤ m.off)
    match trimFront before.getLast? m with
    | none => .keep { fp with frags := frags }
    | some m' =>
      let rest := trimNext (m'.off + m'.len) after
      { fp with
        nfrags := fp.nfrags + 1 - rest.2
        frags := before ++ m' :: rest.1
        got := m.src :: fp.got }.check l

def ipfragttl : Nat := 30

def Ipq.new (m : Frag) : Ipq := ⟨m.src.key, ipfragttl, 1, [m], [m.src]⟩

structure Table where
  ipq : Fin 64 → List Ipq
  nipq : Nat

def ipreassHash (x : BitVec 32) (y : BitVec 16) : Fin 64 :=
  Fin.ofNat 64 ((((x &&& 0xf) ||| (((x >>> 8) &&& 0xf) <<< 4)) ^^^ y.setWidth 32).toNat &&& 63)

open Function in
/-- `frag_freef` for the queue at the end of a bucket. -/
def Table.freeLast (s : Table) (b : Fin 64) : Table :=
  ⟨update s.ipq b (s.ipq b).dropLast, s.nipq - 1⟩

/-- With too many queues one is dropped, from this bucket if it has one. -/
def Table.trim (l : Limits) (s : Table) (b : Fin 64) : Table :=
  if 0 < l.maxnipq ∧ (s.nipq : Int) > l.maxnipq then
    if s.ipq b = [] then
      ((List.finRange 64).find? fun i => decide (s.ipq i ≠ [])).elim s s.freeLast
    else s.freeLast b
  else s

/-- The first queue of the datagram is replaced or removed. -/
def replace (k : Key) (new : Option Ipq) : List Ipq → List Ipq
  | [] => []
  | fp :: fps => if fp.key = k then new.toList ++ fps else fp :: replace k new fps

open Function in
/-- `ip_reass`; `alloc` says whether `ipq_alloc` succeeds. -/
def ipReass (l : Limits) (alloc : Bool) (s : Table) (m : Packet) :
    Table × Option (Datagram × Ipq) :=
  if l.maxnipq = 0 ∨ l.maxfragsperpacket = 0 then (s, none)
  else
    let b := ipreassHash m.key.src m.key.id
    match (s.ipq b).find? fun fp => decide (fp.key = m.key) with
    | none =>
      let s := s.trim l b
      match m.toFrag with
      | none => (s, none)
      | some f =>
        if alloc = true then (⟨update s.ipq b (.new f :: s.ipq b), s.nipq + 1⟩, none) else (s, none)
    | some fp =>
      match m.toFrag with
      | none => (s, none)
      | some f =>
        match fp.add l f with
        | .keep fp' => (⟨update s.ipq b (replace m.key (some fp') (s.ipq b)), s.nipq⟩, none)
        | .free => (⟨update s.ipq b (replace m.key none (s.ipq b)), s.nipq - 1⟩, none)
        | .deliver d fp' =>
          (⟨update s.ipq b (replace m.key none (s.ipq b)), s.nipq - 1⟩, some (d, fp'))

/-- The queues of a bucket whose time is over are freed. -/
def age : List Ipq → List Ipq
  | [] => []
  | fp :: fps =>
    let ttl := (fp.ttl + 255) % 256
    if ttl = 0 then age fps else { fp with ttl := ttl } :: age fps

open Function in
/-- Queues are freed from the front of a bucket down to the limit. -/
def Table.shrink (l : Limits) (s : Table) (b : Fin 64) : Table :=
  let n := min (s.ipq b).length (s.nipq - l.maxnipq.toNat)
  ⟨update s.ipq b ((s.ipq b).drop n), s.nipq - n⟩

def fragTimeout (l : Limits) (s : Table) : Table :=
  let freed := ((List.finRange 64).map fun b => (s.ipq b).length - (age (s.ipq b)).length).sum
  let s : Table := ⟨fun b => age (s.ipq b), s.nipq - freed⟩
  if 0 ≤ l.maxnipq then (List.finRange 64).foldl (Table.shrink l) s else s

def fragDrain (s : Table) : Table :=
  ⟨fun _ => [], s.nipq - ((List.finRange 64).map fun b => (s.ipq b).length).sum⟩

/-- The table, and all that was returned, each with its queue. -/
structure State where
  table : Table
  out : List (Datagram × Ipq)

inductive Step (s : State) : State → Prop where
  | reass (l : Limits) (alloc : Bool) (m : Packet) :
      Step s ⟨(ipReass l alloc s.table m).1, (ipReass l alloc s.table m).2.toList ++ s.out⟩
  | timeout (l : Limits) : Step s ⟨fragTimeout l s.table, s.out⟩
  | drain : Step s ⟨fragDrain s.table, s.out⟩

def initial : State := ⟨⟨fun _ => [], 0⟩, []⟩

def reassembly : System State where
  init s := s = initial
  step := Step

end XnuXzs.IpReass
