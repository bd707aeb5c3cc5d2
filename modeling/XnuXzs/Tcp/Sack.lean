import XnuXzs.Lib.Runs
import XnuXzs.Lib.Seq

/-!
# The SACK scoreboard

`tcp_sack_doack` takes the bytes that a segment acknowledges out of the holes that the
sender knows of. The blocks and the holes are walked from their ends in one sweep.
-/

namespace XnuXzs.Tcp

open Lib

def seqMin (a b : UInt32) : UInt32 := if seqLt a b then a else b
def seqMax (a b : UInt32) : UInt32 := if seqGt a b then a else b

/-- `struct sackhole`; `stop` is its `end`. -/
structure Hole where
  start : UInt32
  stop : UInt32
  rxmit : UInt32
  rxmitStart : UInt32

structure Block where
  start : UInt32
  stop : UInt32

def tcpMaxSack : Nat := 4

/-- What is recorded of packets that were reordered. -/
structure Reorder where
  seen : Bool
  pkts : Nat
  win : Nat

/-- The scoreboard, and what the sender knows of the stream. -/
structure Board where
  sndUna : UInt32
  sndMax : UInt32
  sndFack : UInt32
  holes : List Hole
  numholes : Int
  bytesRexmit : Int
  reorder : Reorder

/-- What the surroundings decide during a call. -/
structure Env where
  /-- `tcp_sack_maxholes`, which can be set to any `int` -/
  maxholes : Int
  /-- `tcp_memacct_hardlimit`, at each allocation -/
  hardlimit : Nat → Bool
  now : UInt32
  rxtshift : Nat
  /-- Is there no retransmitted segment with this byte? -/
  notRetransmitted : UInt32 → Bool
  halfSrtt : Nat

/-- What changes during the sweep, besides the holes. -/
structure Tally where
  numholes : Int
  bytesRexmit : Int
  newbytes : UInt32
  reorder : Reorder
  /-- Allocations that were tried, and whether one of them failed. -/
  tried : Nat
  failed : Bool

def Tally.count (t : Tally) (start stop : UInt32) : Tally :=
  { t with newbytes := t.newbytes + (stop - start) }

def sackholeAlloc (env : Env) (t : Tally) (start stop : UInt32) : Option Hole × Tally :=
  if env.maxholes ≤ t.numholes ∨ env.hardlimit t.tried then
    (none, { t with tried := t.tried + 1, failed := true })
  else
    (some ⟨start, stop, start, env.now⟩,
      { t with tried := t.tried + 1, numholes := i16 (t.numholes + 1) })

/-- `tcp_sack_detect_reordering`; `none` is a failed `VERIFY`. -/
def detectReordering (env : Env) (t : Tally) (s : Hole) (sackedSeq sndFack : UInt32) :
    Option Tally :=
  if seqGt s.stop sndFack ∨ 0 < env.rxtshift then some t
  else if seqLt s.rxmit sackedSeq ∧ env.notRetransmitted (sackedSeq - 1) then
    if seqGeq sndFack s.rxmit then
      let r := { t.reorder with seen := true, pkts := t.reorder.pkts + 1 }
      let rext := seqDiff env.now s.rxmitStart
      if 0 < s.rxmitStart ∧ 0 ≤ rext then
        some { t with
          reorder := { r with win := max (min (max r.win rext.toNat) env.halfSrtt) 10 } }
      else some { t with reorder := r }
    else none
  else some t

/-- The bytes of the hole that have been retransmitted. -/
def Hole.rexmitted (h : Hole) : UInt32 := h.rxmit - h.start

def Tally.addRexmit (t : Tally) (h : Hole) : Tally :=
  { t with bytesRexmit := i32 (t.bytesRexmit + h.rexmitted.toNat) }

def Tally.subRexmit (t : Tally) (h : Hole) : Tally :=
  let b := i32 (t.bytesRexmit - h.rexmitted.toNat)
  { t with bytesRexmit := if b < 0 then 0 else b }

/-- What becomes of a hole that a block meets: deleted, or kept, maybe with a new one behind. -/
inductive Met where
  | deleted (t : Tally)
  | kept (h : Hole) (behind : List Hole) (t : Tally)

/-- A block inside of a hole splits it, if there is room for another one. -/
def splitHole (env : Env) (b : Block) (cur : Hole) (t : Tally) : Met :=
  match sackholeAlloc env t b.stop cur.stop with
  | (none, t') => .kept cur [] t'
  | (some temp, t') =>
    let t' := t'.count b.start b.stop
    let (temp, t') :=
      if seqGt cur.rxmit temp.rxmit then
        let temp := { temp with rxmit := cur.rxmit }
        (temp, t'.addRexmit temp)
      else (temp, t')
    .kept { cur with stop := b.start, rxmit := seqMin cur.rxmit b.start }
      [{ temp with rxmitStart := cur.rxmitStart }] t'

/-- The body of the loop where the block and the hole overlap. -/
def meet (env : Env) (oldFack : UInt32) (b : Block) (cur : Hole) (t : Tally) : Option Met :=
  let t := t.subRexmit cur
  if seqLeq b.start cur.start then
    if seqGeq b.stop cur.stop then
      (detectReordering env (t.count cur.start cur.stop) cur cur.stop oldFack).map fun t =>
        .deleted { t with numholes := i16 (t.numholes - 1) }
    else
      (detectReordering env (t.count cur.start b.stop) cur b.stop oldFack).map
        (.kept { cur with start := b.stop, rxmit := seqMax cur.rxmit b.stop } [])
  else if seqGeq b.stop cur.stop then
    (detectReordering env (t.count b.start cur.stop) cur cur.stop oldFack).map
      (.kept { cur with stop := b.start, rxmit := seqMin cur.rxmit b.start } [])
  else (detectReordering env t cur b.stop oldFack).map (splitHole env b cur)

/-- The sweep. Blocks and holes up to the current one come from last to first; `done` are the
holes behind it. -/
def sweep (env : Env) (oldFack : UInt32) :
    List Block → List Hole → List Hole → Tally → Option (List Hole × Tally)
  | [], left, done, t => some (left.reverse ++ done, t)
  | _ :: _, [], done, t => some (done, t)
  | b :: bs, cur :: left, done, t =>
    if seqGeq b.start cur.stop then sweep env oldFack bs (cur :: left) done t
    else if seqLeq b.stop cur.start then sweep env oldFack (b :: bs) left (cur :: done) t
    else
      match meet env oldFack b cur t with
      | none => none
      | some (.deleted t) => sweep env oldFack (b :: bs) left done t
      | some (.kept cur behind t) =>
        let t := t.addRexmit cur
        if seqLeq b.start cur.start then sweep env oldFack (b :: bs)
          left (cur :: (behind ++ done)) t
        else sweep env oldFack bs (cur :: left) (behind ++ done) t
  termination_by blocks left => blocks.length + left.length

/-- `TCP_VALIDATE_SACK_SEQ_NUMBERS` -/
def validBlock (b : Board) (ack : UInt32) (s : Block) : Bool :=
  seqGt s.stop s.start && seqGt s.start b.sndUna && seqGt s.start ack && seqLt s.start b.sndMax &&
    seqGt s.stop b.sndUna && seqLeq s.stop b.sndMax

/-- The inner loop of the sort: the block with the least end, and the others. -/
def sortPass (x : Block) : List Block → Block × List Block
  | [] => (x, [])
  | y :: ys =>
    if seqGt x.stop y.stop then
      let (least, rest) := sortPass y ys
      (least, x :: rest)
    else
      let (least, rest) := sortPass x ys
      (least, y :: rest)

theorem sortPass_length (x : Block) (xs : List Block) : (sortPass x xs).2.length = xs.length := by
  induction xs generalizing x with
  | nil => rfl
  | cons y ys ih =>
    rw [sortPass]
    split <;> simp [ih]

/-- The blocks by their ends. -/
def sortBlocks : List Block → List Block
  | [] => []
  | x :: xs => (sortPass x xs).1 :: sortBlocks (sortPass x xs).2
  termination_by blocks => blocks.length
  decreasing_by simp [sortPass_length]

/-- The cumulative acknowledgement, if there are holes, and the valid blocks. -/
def gatherBlocks (b : Board) (ack : UInt32) (sacks : List Block) : List Block :=
  (if seqLt b.sndUna ack ∧ b.holes ≠ [] then [⟨b.sndUna, ack⟩] else []) ++
    sacks.filter (validBlock b ack)

/-- The holes and `snd_fack` as the highest block makes them, and the blocks that are left. -/
structure Start where
  fack : UInt32
  holes : List Hole
  blocks : List Block
  tally : Tally

/-- A block that begins at or before `fack` may advance it. -/
def advanceFack (fack : UInt32) (holes : List Hole) (blocks : List Block) (t : Tally) : Start :=
  match blocks with
  | [] => ⟨fack, holes, [], t⟩
  | s :: _ =>
    if seqLt fack s.stop then ⟨s.stop, holes, blocks, t.count fack s.stop⟩
      else ⟨fack, holes, blocks, t⟩

/-- What is done before the sweep, with the highest block first. -/
def startSweep (env : Env) (fack : UInt32) (holes : List Hole) (blocks : List Block) (t : Tally) :
    Start :=
  match blocks with
  | [] => ⟨fack, holes, [], t⟩
  | s :: rest =>
    if seqLt fack s.start then
      match sackholeAlloc env t fack s.start with
      | (some hole, t') => ⟨s.stop, holes ++ [hole], rest, t'.count s.start s.stop⟩
      | (none, t') =>
        -- The blocks to the right of `fack` are skipped.
        advanceFack fack holes ((s :: rest).dropWhile fun s => seqLt fack s.start) t'
    else advanceFack fack holes blocks t

/-- `tcp_sack_doack` without RACK: the bytes newly acknowledged and whether an allocation
failed; `none` is a failed `VERIFY`. -/
def tcpSackDoack (env : Env) (b : Board) (ack : UInt32) (sacks : List Block) (newbytes : UInt32) :
    Option (Board × UInt32 × Bool) :=
  let gathered := gatherBlocks b ack sacks
  if gathered = [] then some (b, newbytes, false)
  else if tcpMaxSack + 1 < gathered.length then none
  else
    let fack := if b.holes = [] then seqMax b.sndUna ack else b.sndFack
    let s := startSweep env fack b.holes (sortBlocks gathered).reverse
      ⟨b.numholes, b.bytesRexmit, newbytes, b.reorder, 0, false⟩
    (sweep env fack s.blocks s.holes.reverse [] s.tally).map fun (holes, t) =>
      ({ b with
          sndFack := s.fack
          holes := holes
          numholes := t.numholes
          bytesRexmit := t.bytesRexmit
          reorder := t.reorder }, t.newbytes, t.failed)

end XnuXzs.Tcp
