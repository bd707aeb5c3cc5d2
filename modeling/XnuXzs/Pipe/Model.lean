import XnuXzs.Lib.Guard
import XnuXzs.Lib.Machine
import XnuXzs.Lib.Memory
import XnuXzs.Lib.Runs

/-!
# Pipes

The buffer of a pipe is a ring. `pipe_read` and `pipe_write` give up the lock of the pipe where
they sleep or copy; `pipeio_lock` keeps the ring to one of them meanwhile.
-/

namespace XnuXzs.Pipe

open Lib

def pipeBuf : Nat := 512

def pipesizeBlocks : List Nat := [512, 1024, 2048, 4096, 8192, 16384, 65536]

/-- The loop of `choose_pipespace`. -/
def chooseFrom (target : Nat) : Nat → Nat
  | 0 => 0
  | i + 1 => if target < pipesizeBlocks.getD i 0 then chooseFrom target i else i + 1

def choosePipespace (current expected : Nat) : Nat :=
  pipesizeBlocks.getD (chooseFrom (if current < expected then expected else current) 6) 0

structure Buffer where
  length : Nat
  mem : Nat → UInt8

/-- `struct pipebuf`, and `PIPE_LOCKFL` of the pipe. -/
structure Pipebuf where
  cnt : Nat
  inp : Nat
  out : Nat
  size : Nat
  buffer : Option Buffer
  locked : Bool

inductive Failure where
  /-- A copy beyond the end of a buffer. -/
  | outOfBounds
  /-- "corrupted pipe read/write pointer or size." -/
  | corrupted
  /-- "size greater than LONG_MAX" -/
  | tooLong
  /-- "Expected pipe buffer wraparound disappeared" -/
  | disappeared
  /-- "Expected wraparound bad" -/
  | badWraparound
  /-- "Pipe buffer overflow" -/
  | overflow
  deriving DecidableEq

def longMax : Nat := 2 ^ 63 - 1

def intMax : Nat := 2 ^ 31 - 1

/-- Arithmetic of `u_int`. -/
def add32 (a b : Nat) : Nat := (u32 (a + b)).toNat
def sub32 (a b : Nat) : Nat := (u32 (a - b)).toNat

def Buffer.store (b : Buffer) (at' : Nat) (bytes : List UInt8) : Except Failure Buffer := do
  rejectIf .outOfBounds (b.length < at' + bytes.length)
  pure { b with mem := storeBytes b.mem at' bytes }

def Buffer.load (b : Buffer) (at' n : Nat) : Except Failure (List UInt8) := do
  rejectIf .outOfBounds (b.length < at' + n)
  pure (bytesAt b.mem at' n)

/-- The memory that `kalloc_data` returns, if there is any. -/
abbrev Fresh := Option (Nat → UInt8)

/-- `pipespace`; `none` is an error. -/
def pipespace (fresh : Fresh) (p : Pipebuf) (size : Nat) : Option Pipebuf :=
  if size = 0 then none
  else fresh.map fun mem =>
    { p with buffer := some ⟨size, mem⟩, size := size, inp := 0, out := 0, cnt := 0 }

/-- `expand_pipespace` once there is a new buffer. -/
def expandInto (p : Pipebuf) (old new : Buffer) : Except Failure Pipebuf := do
  let bytes ← old.load 0 p.size
  let copied ← new.store 0 bytes
  if 0 < p.cnt ∧ p.inp ≤ p.out then
    -- State 3: the data goes on at the start of the old buffer.
    let again ← old.load 0 p.size
    let twice ← copied.store p.size again
    pure { p with buffer := some twice, size := new.length, inp := add32 p.inp p.size }
  else pure { p with buffer := some copied, size := new.length }

/-- `expand_pipespace`. There is a buffer when it is called. -/
def expandPipespace (fresh : Fresh) (p : Pipebuf) (target : Nat) :
    Except Failure (Option Pipebuf) :=
  if target ≤ p.size then pure (some p)
  else
    match fresh, p.buffer with
    | some mem, some old => some <$> expandInto p old ⟨target, mem⟩
    | none, _ => pure none
    | some _, none => .error .outOfBounds

def checkBounds (p : Pipebuf) : Except Failure Buffer :=
  match p.buffer with
  | none => .error .corrupted
  | some b =>
    if b.length ≠ p.size ∨ p.size < p.inp ∨ p.size < p.out then .error .corrupted else .ok b

/-- What the surroundings decide at a step of a call. -/
structure Oracle where
  /-- `amountpipekva < maxpipekva` -/
  room : Bool
  /-- The other end is closed, or a check of permissions fails. -/
  refused : Bool
  /-- A signal, or the pipe does not block. -/
  interrupted : Bool
  fresh : Fresh

/-- Where a call of `pipe_write` is. With `moved` go the bytes copied in this round. -/
inductive WritePc where
  | start
  | resize (pipeSize : Nat)
  | top
  | lock (space : Int)
  | first (size seg : Nat)
  | firstDone (size seg : Nat) (moved : List UInt8)
  | second (size seg : Nat) (moved : List UInt8)
  | secondDone (size seg : Nat) (moved : List UInt8)
  | finished

/-- `left` is what the `uio` still holds of the data. -/
structure Write where
  data : List UInt8
  left : List UInt8
  pc : WritePc

inductive ReadPc where
  | lock
  | top
  | copy (size : Nat)
  | copied (size : Nat) (moved : List UInt8)
  | finished

structure Read where
  resid : Nat
  got : List UInt8
  nread : Nat
  pc : ReadPc

inductive Call where
  | idle
  | writing (w : Write)
  | reading (r : Read)

/-- The pipe and the call after a step, the bytes that readers may now see and those that the
pipe has lost. -/
structure Effect where
  pipe : Pipebuf
  call : Call
  accepted : List UInt8
  delivered : List UInt8

def Effect.quiet (p : Pipebuf) (call : Call) : Effect := ⟨p, call, [], []⟩

def Write.goto (w : Write) (p : Pipebuf) (pc : WritePc) : Effect :=
    .quiet p (.writing { w with pc := pc })

def Write.start (o : Oracle) (p : Pipebuf) (w : Write) : Effect :=
  if longMax < w.data.length ∨ o.refused then w.goto p .finished
  else if p.buffer.isNone ∨ (sub32 p.size p.cnt < w.data.length % 2 ^ 32 ∧ o.room) then
    let pipeSize := choosePipespace p.size (p.cnt + w.data.length)
    if pipeSize ≠ 0 then w.goto p (.resize pipeSize) else w.goto p .top
  else w.goto p .top

/-- With `pipeio_lock` held from the start to the end of it. -/
def Write.resize (o : Oracle) (p : Pipebuf) (w : Write) (pipeSize : Nat) : Except Failure Effect :=
  if o.interrupted then pure (w.goto p .finished)
  else do
    let p' ← if p.cnt = 0 then pure (pipespace o.fresh p pipeSize)
      else expandPipespace o.fresh p pipeSize
    match p' with
    | none => pure (w.goto p .finished)
    | some p' => pure (w.goto p' (if p'.buffer.isNone then .finished else .top))

def Write.top (o : Oracle) (p : Pipebuf) (w : Write) : Effect :=
  if w.left = [] then w.goto p .finished
  else
    let free := i32 (sub32 p.size p.cnt)
    let space := if free < w.left.length ∧ w.data.length ≤ pipeBuf then 0 else free
    if 0 < space then w.goto p (.lock space)
    else if o.refused ∨ o.interrupted then w.goto p .finished
    else w.goto p .top

def Write.lock (o : Oracle) (p : Pipebuf) (w : Write) (space : Int) : Except Failure Effect :=
  if o.interrupted ∨ o.refused then pure (w.goto p .finished)
  else if i32 (sub32 p.size p.cnt) < space then pure (w.goto p .top)
  else do
    rejectIf .tooLong (w.left.length < space ∧ longMax < w.left.length)
    let size := if w.left.length < space then w.left.length else space.toNat
    let free := sub32 p.size p.inp
    pure (w.goto { p with locked := true } (.first size (if size < free then size else free)))

/-- `uiomove` into the buffer. -/
def Write.move (p : Pipebuf) (w : Write) (at' n : Nat) :
    Except Failure (Pipebuf × Write × List UInt8) := do
  let b ← checkBounds p
  let bytes := w.left.take n
  let b' ← b.store at' bytes
  pure ({ p with buffer := some b' }, { w with left := w.left.drop n }, bytes)

def Write.first (p : Pipebuf) (w : Write) (size seg : Nat) : Except Failure Effect := do
  let (p', w', bytes) ← w.move p p.inp seg
  pure (w'.goto p' (.firstDone size seg bytes))

def Write.second (p : Pipebuf) (w : Write) (size seg : Nat) (moved : List UInt8) :
    Except Failure Effect := do
  let (p', w', bytes) ← w.move p 0 (size - seg)
  pure (w'.goto p' (.secondDone size seg (moved ++ bytes)))

/-- Readers never know to read until the count is updated. -/
def Write.update (p : Pipebuf) (w : Write) (size seg : Nat) (moved : List UInt8) :
    Except Failure Effect := do
  let inp := add32 p.inp size
  rejectIf .badWraparound (p.size < inp ∧ inp ≠ size - seg + p.size)
  let cnt := add32 p.cnt size
  rejectIf .overflow (p.size < cnt)
  pure {
    pipe := { p with inp := if p.size < inp then size - seg else inp, cnt := cnt, locked := false }
    call := .writing { w with pc := .top }
    accepted := moved
    delivered := [] }

def Write.firstDone (p : Pipebuf) (w : Write) (size seg : Nat) (moved : List UInt8) :
    Except Failure Effect :=
  if seg < size then do
    rejectIf .disappeared (p.inp + seg ≠ p.size)
    pure (w.goto p (.second size seg moved))
  else w.update p size seg moved

def Read.goto (r : Read) (p : Pipebuf) (pc : ReadPc) : Effect :=
    .quiet p (.reading { r with pc := pc })

def Read.lock (o : Oracle) (p : Pipebuf) (r : Read) : Effect :=
  if o.interrupted ∨ o.refused then r.goto p .finished else r.goto { p with locked := true } .top

def Read.top (o : Oracle) (p : Pipebuf) (r : Read) : Effect :=
  if r.resid = 0 then r.goto { p with locked := false } .finished
  else if 0 < p.cnt then
    let toEnd := sub32 p.size p.out
    let size := if p.cnt < toEnd then p.cnt else toEnd
    r.goto p (.copy (min intMax (min size r.resid)))
  else if o.refused ∨ 0 < r.nread ∨ o.interrupted then r.goto { p with locked := false } .finished
  else r.goto { p with locked := false } .lock

/-- `uiomove` out of the buffer. -/
def Read.copy (p : Pipebuf) (r : Read) (size : Nat) : Except Failure Effect := do
  let b ← checkBounds p
  let bytes ← b.load p.out size
  pure (Read.goto { r with got := r.got ++ bytes, resid := r.resid - size } p (.copied size bytes))

def Read.copied (p : Pipebuf) (r : Read) (size : Nat) (moved : List UInt8) : Effect :=
  let out := add32 p.out size
  let out := if p.size ≤ out then 0 else out
  let cnt := sub32 p.cnt size
  { pipe := { p with
      out := if cnt = 0 then 0 else out
      cnt := cnt
      inp := if cnt = 0 then 0 else p.inp }
    call := .reading { r with nread := r.nread + size, pc := .top }
    accepted := []
    delivered := moved }

/-- A call runs until it gives up the lock, and waits where another has `pipeio_lock`. -/
def Call.step (o : Oracle) (p : Pipebuf) : Call → Option (Except Failure Effect)
  | .idle => none
  | .writing w =>
    match w.pc with
    | .start => some (.ok (w.start o p))
    | .resize pipeSize => if p.locked ∧ ¬o.interrupted then none else some (w.resize o p pipeSize)
    | .top => some (.ok (w.top o p))
    | .lock space => if p.locked ∧ ¬o.interrupted then none else some (w.lock o p space)
    | .first size seg => some (w.first p size seg)
    | .firstDone size seg moved => some (w.firstDone p size seg moved)
    | .second size seg moved => some (w.second p size seg moved)
    | .secondDone size seg moved => some (w.update p size seg moved)
    | .finished => none
  | .reading r =>
    match r.pc with
    | .lock => if p.locked ∧ ¬o.interrupted then none else some (.ok (r.lock o p))
    | .top => some (.ok (r.top o p))
    | .copy size => some (r.copy p size)
    | .copied size moved => some (.ok (r.copied p size moved))
    | .finished => none

/-- All bytes, with the call that wrote them or got them. -/
structure State where
  pipe : Pipebuf
  calls : Nat → Call
  accepted : List (Nat × UInt8)
  delivered : List (Nat × UInt8)
  failure : Option Failure

def State.apply (s : State) (t : Nat) (e : Effect) : State where
  pipe := e.pipe
  calls := Function.update s.calls t e.call
  accepted := s.accepted ++ e.accepted.map (t, ·)
  delivered := s.delivered ++ e.delivered.map (t, ·)
  failure := s.failure

inductive PipeStep (s : State) : State → Prop
  | write (t : Nat) (data : List UInt8) (hidle : s.calls t = .idle) :
      PipeStep s { s with calls := Function.update s.calls t (.writing ⟨data, data, .start⟩) }
  | read (t resid : Nat) (hidle : s.calls t = .idle) :
      PipeStep s { s with calls := Function.update s.calls t (.reading ⟨resid, [], 0, .lock⟩) }
  | run (t : Nat) (o : Oracle) (e : Effect) (hstep : (s.calls t).step o s.pipe = some (.ok e)) :
      PipeStep s (s.apply t e)
  | fail (t : Nat) (o : Oracle) (f : Failure) (hstep : (s.calls t).step o s.pipe =
      some (.error f)) :
      PipeStep s { s with failure := some f }

/-- One end has a buffer from the start, the other gets it with the first write. -/
def pipeSystem : System State where
  init s := (∃ buffer : Option (Nat → UInt8), s.pipe =
      match buffer with
      | none => ⟨0, 0, 0, 0, none, false⟩
      | some mem => ⟨0, 0, 0, choosePipespace 0 0, some ⟨choosePipespace 0 0, mem⟩, false⟩) ∧
    (∀ t, s.calls t = .idle) ∧ s.accepted = [] ∧ s.delivered = [] ∧ s.failure = none
  step := PipeStep

end XnuXzs.Pipe
