import XnuXzs.Lib.Runs
import XnuXzs.Lib.Spans

/-!
# Reassembly of IPv6 fragments

`frag6_input` of `bsd/netinet6/frag6.c` with its list of queues, and the functions that
free queues. Fragments are kept as they arrive; two that overlap make the queue dirty.
-/

namespace XnuXzs.Frag6

open Lib

abbrev Byte := BitVec 8

/-- What tells packets from each other: the identification, and the addresses with the
scopes of those that have one. -/
structure Key where
  ident : BitVec 32
  src : BitVec 128
  dst : BitVec 128
  srcScope : Nat
  dstScope : Nat
  deriving DecidableEq

/-- A fragment as long as `ip6_plen` says: the headers before the fragment header, that header's
fields, and the data. -/
structure Packet where
  key : Key
  ecn : BitVec 2
  exts : List Byte
  nxt : BitVec 8
  /-- `ip6f_offlg` without the flags, in bytes -/
  off : Nat
  more : Bool
  data : List Byte
  /-- `ip6_pkt_has_ulp` -/
  hasUlp : Bool
  off_lt : off < 65536
  off_dvd : off % 8 = 0
  plen_lt : exts.length + 8 + data.length < 65536
  deriving DecidableEq

def Packet.len (m : Packet) : Nat := m.data.length

/-- A queue, with the `ip6asfrag`s and their packets. The last two fields are not in the code:
the packets given to the queue, and those not discarded on their own. -/
structure Ip6q where
  key : Key
  nxt : BitVec 8
  ecn : BitVec 2
  ttl : Nat
  /-- `none` until the first fragment has arrived -/
  unfrglen : Option Nat
  nfrag : Nat
  dirty : Bool
  frags : List Packet
  seen : List Packet
  got : List Packet
  deriving DecidableEq

structure Whole where
  exts : List Byte
  nxt : BitVec 8
  plen : Nat
  data : List Byte
  deriving DecidableEq

inductive Outcome where
  | keep (q : Ip6q)
  | free
  | deliver (w : Whole) (q : Ip6q)

/-- Where the fragment would come: a repeat, an overlap, or room. -/
inductive Place where
  | duplicate
  | overlap
  | room
  deriving DecidableEq

def placeNext (after : List Packet) (m : Packet) : Place :=
  match after with
  | [] => .room
  | af6 :: _ => if m.off + m.len > af6.off then .overlap else .room

def place (before after : List Packet) (m : Packet) : Place :=
  match before.getLast? with
  | none => placeNext after m
  | some up =>
    if up.off = m.off then
      if up.len ≠ m.len then .overlap else .duplicate
    else if up.off + up.len > m.off then .overlap
    else placeNext after m

/-- The length of the unfragmentable part, if this fragment tells it. -/
def Ip6q.localUnfrglen (q : Ip6q) (m : Packet) : Option Nat :=
  if m.off = 0 ∧ q.unfrglen = none then some m.exts.length else q.unfrglen

def Ip6q.localNxt (q : Ip6q) (m : Packet) : BitVec 8 :=
  if m.off = 0 ∧ q.unfrglen = none then m.nxt else q.nxt

/-- The packet would exceed 65535 bytes. -/
def tooLong (unfrglen : Nat) (m : Packet) : Bool := decide (unfrglen + m.off + m.len > 65535)

/-- With the first fragment, the check of the size is made for those already stored. -/
def Ip6q.recheck (q : Ip6q) (unfrglen : Nat) (m : Packet) : Ip6q :=
  if m.off = 0 then
    { q with
      frags := q.frags.filter fun f => !tooLong unfrglen f
      got := q.got.filter fun f => !tooLong unfrglen f }
  else q

/-- CE is not lost, and must not be mixed with not-ECT. -/
def Ip6q.markEcn (q : Ip6q) (ecn : BitVec 2) : Option Ip6q :=
  if ecn = 3 ∧ q.ecn = 0 then none
  else if ecn = 0 ∧ q.ecn ≠ 0 then none
  else if ecn = 3 then some { q with ecn := 3 }
  else some q

/-- The check for completeness; `split` says whether `m_split` succeeds if called. -/
def Ip6q.check (split : Bool) (q : Ip6q) : Outcome :=
  match contiguous Packet.off Packet.len 0 q.frags, q.frags.head?, q.frags.getLast? with
  | some next, some first, some last =>
    if last.more = true then .keep q
    else if split = false then .free
    else .deliver ⟨first.exts, q.nxt, (next + (40 + first.exts.length) - 40) % 65536,
      q.frags.flatMap Packet.data⟩ q
  | _, _, _ => .keep q

def Ip6q.keepFrag (q : Ip6q) (unfrglen : Option Nat) (nxt : BitVec 8) (before after : List Packet)
    (m : Packet) : Ip6q :=
  { q with
    unfrglen := unfrglen
    nxt := nxt
    nfrag := q.nfrag + 1
    frags := before ++ m :: after
    got := q.got ++ [m] }

def Ip6q.add (split : Bool) (q : Ip6q) (unfrglen : Option Nat) (nxt : BitVec 8) (m : Packet) :
    Outcome :=
  let before := q.frags.takeWhile fun f => decide (f.off ≤ m.off)
  let after := q.frags.dropWhile fun f => decide (f.off ≤ m.off)
  match place before after m with
  | .duplicate => .keep { q with got := q.got ++ [m] }
  | .overlap =>
    .keep { q with nfrag := q.nfrag + 1, dirty := true, frags := [], got := q.got ++ [m] }
  | .room => (q.keepFrag unfrglen nxt before after m).check split

/-- `frag6_input` once the queue is there. -/
def Ip6q.input (alloc split first : Bool) (q : Ip6q) (m : Packet) : Outcome :=
  if q.dirty = true then .keep q
  else if tooLong ((q.localUnfrglen m).getD 0) m = true then .keep q
  else if m.off = 0 ∧ m.hasUlp = false then .keep q
  else if alloc = false then .keep (q.recheck ((q.localUnfrglen m).getD 0) m)
  else if first = true then
    ((q.recheck ((q.localUnfrglen m).getD 0) m).keepFrag (q.localUnfrglen m)
      (q.localNxt m) [] [] m).check
      split
  else
    match (q.recheck ((q.localUnfrglen m).getD 0) m).markEcn m.ecn with
    | none => .keep (q.recheck ((q.localUnfrglen m).getD 0) m)
    | some q' => q'.add split (q.localUnfrglen m) (q.localNxt m) m

def Ip6q.new (m : Packet) : Ip6q := ⟨m.key, 0, m.ecn, 60, none, 0, false, [], [m], []⟩

abbrev Queues := List Ip6q

/-- The queue of the packet is replaced or removed. -/
def replace (k : Key) (new : Option Ip6q) : Queues → Queues
  | [] => []
  | q :: qs => if q.key = k then new.toList ++ qs else q :: replace k new qs

def finish (s : Queues) (k : Key) : Outcome → Queues × Option (Whole × Ip6q)
  | .keep q => (replace k (some q) s, none)
  | .free => (replace k none s, none)
  | .deliver w q => (replace k none s, some (w, q))

/-- The queue has been given a packet, whatever becomes of it. -/
def note (s : Queues) (m : Packet) : Queues :=
  s.map fun q => if q.key = m.key then { q with seen := q.seen ++ [m] } else q

/-- What the allocator and the limits decide. -/
structure Luck where
  accept : Bool
  queue : Bool
  frag : Bool
  split : Bool

/-- `frag6_input`. Packets that are one fragment alone are passed on without being
reassembled. -/
def frag6Input (o : Luck) (s : Queues) (m : Packet) : Queues × Option (Whole × Ip6q) :=
  let s := note s m
  if m.more = true ∧ m.len % 8 ≠ 0 then (s, none)
  else if o.accept = false then (s, none)
  else if m.off = 0 ∧ m.more = false then (s, none)
  else
    match s.find? fun q => decide (q.key = m.key) with
    | some q => finish s m.key (q.input o.frag o.split false m)
    | none =>
      if o.queue = false then (s, none)
      else finish (.new m :: s) m.key ((Ip6q.new m).input o.frag o.split true m)

/-- `frag6_timeout`: queues whose time is over are freed, then those at the end down to the
limit, if any. -/
def frag6Timeout (limit : Option Nat) (s : Queues) : Queues :=
  let s := (s.map fun q => { q with ttl := (q.ttl + 255) % 256 }).filter fun q => decide (q.ttl ≠ 0)
  limit.elim s fun n => s.take n

structure State where
  queues : Queues
  out : List (Whole × Ip6q)

inductive Step (s : State) : State → Prop where
  | input (o : Luck) (m : Packet) :
      Step s ⟨(frag6Input o s.queues m).1, (frag6Input o s.queues m).2.toList ++ s.out⟩
  | timeout (limit : Option Nat) : Step s ⟨frag6Timeout limit s.queues, s.out⟩
  | drain : Step s ⟨[], s.out⟩

def initial : State := ⟨[], []⟩

def reassembly : System State where
  init s := s = initial
  step := Step

end XnuXzs.Frag6
