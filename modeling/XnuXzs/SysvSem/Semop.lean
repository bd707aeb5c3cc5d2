import XnuXzs.Lib.Runs

/-!
# Semaphore operations

`semop` applies a vector of operations in place, and takes back what it has done when one cannot
be done. Adjustments are entered afterwards. The lock is dropped for sleep.
-/

namespace XnuXzs.SysvSem

open Function

inductive Errno where
  | einval | efbig | eagain | eintr | eidrm | enospc | e2big
  /-- From a permission check, or the copy of the vector. -/
  | other (code : Nat)
  deriving DecidableEq

structure Sem where
  val : UInt16
  pid : Int
  ncnt : UInt16
  zcnt : UInt16

/-- `struct sembuf`, with the two flags that are read. -/
structure Sembuf where
  num : UInt16
  op : Int16
  undo : Bool
  nowait : Bool

/-- `struct semid_kernel` -/
structure SemSet where
  allocated : Bool
  seq : Nat
  nsems : UInt16
  otime : Nat
  sems : Nat → Sem

/-- `struct undo` -/
structure Entry where
  adjval : Int16
  num : Int16
  id : Nat
  deriving DecidableEq

/-- `struct sem_undo`. The count of the entries is the length of the list. -/
structure SemUndo where
  proc : Nat
  entries : List Entry

/-- The undo structures in use, and how many there is memory for. -/
structure Semu where
  active : List SemUndo
  capacity : Nat

/-- The limits that `sysctl` can set as long as there is no set. With this bound on the entries,
`un_cnt` is their number. -/
class Limits where
  semume : Nat
  semmnu : Nat
  small : semume < 2 ^ 15

export Limits (semume semmnu)

def semopm : Nat := 5

variable [Limits]

/-- `semu_alloc`: a structure that is free, or one that has no entries, or a larger
array, if there is memory for it. -/
def semuAlloc (grows : Bool) (u : Semu) (p : Nat) : Option Semu :=
  if u.active.length < u.capacity then some { u with active := ⟨p, []⟩ :: u.active }
  else
    let kept := u.active.filter fun su => !su.entries.isEmpty
    if kept.length < u.active.length then some { u with active := ⟨p, []⟩ :: kept }
    else if u.capacity < semmnu ∧ grows then
      some ⟨⟨p, []⟩ :: u.active, min ((u.capacity / 32 + 1) * 32) semmnu⟩
    else none

/-- The loop of `semundo_adjust`, if there is an entry. An adjustment of 0 is dropped. -/
def adjustFound (id : Nat) (semnum adjval : Int) : List Entry → Option (List Entry)
  | [] => none
  | e :: es =>
    if e.id ≠ id ∨ e.num.toInt ≠ semnum then (adjustFound id semnum adjval es).map (e :: ·)
    else
      let adjval' := if adjval = 0 then 0 else e.adjval + Int16.ofInt adjval
      if adjval' = 0 then some es else some ({ e with adjval := adjval' } :: es)

def adjustEntries (id : Nat) (semnum adjval : Int) (es : List Entry) : Except Errno (List Entry) :=
  match adjustFound id semnum adjval es with
  | some es' => .ok es'
  | none =>
    if adjval = 0 then .ok es
    else if es.length = semume then .error .einval
    else .ok (⟨Int16.ofInt adjval, Int16.ofInt semnum, id⟩ :: es)

/-- The first structure of the process gets the entries. -/
def setEntries (p : Nat) (es : List Entry) : List SemUndo → List SemUndo
  | [] => []
  | su :: rest => if su.proc = p then { su with entries := es } :: rest
      else su :: setEntries p es rest

def findUndo (p : Nat) (active : List SemUndo) : Option SemUndo :=
    active.find? fun su => su.proc = p

/-- `semundo_adjust` with the structure of the process looked up. -/
def adjustIn (u : Semu) (p id : Nat) (semnum adjval : Int) (es : List Entry) : Except Errno Semu :=
  (adjustEntries id semnum adjval es).map fun es' => { u with active := setEntries p es' u.active }

def semundoAdjust (grows : Bool) (u : Semu) (p id : Nat) (semnum adjval : Int) :
    Except Errno Semu :=
  match findUndo p u.active with
  | some su => adjustIn u p id semnum adjval su.entries
  | none =>
    if adjval = 0 then .ok u
    else
      match semuAlloc grows u p with
      | none => .error .enospc
      | some u' => adjustIn u' p id semnum adjval []

structure Progress where
  sems : Nat → Sem
  wakeup : Bool
  undos : Bool

def changeVal (sems : Nat → Sem) (num : UInt16) (f : UInt16 → UInt16) : Nat → Sem :=
  update sems num.toNat { sems num.toNat with val := f (sems num.toNat).val }

def Progress.add (p : Progress) (op : Sembuf) (wakeup : Bool) : Progress where
  sems := changeVal p.sems op.num (· + op.op.toUInt16)
  wakeup := p.wakeup || wakeup
  undos := p.undos || op.undo

inductive Loop where
  | done (p : Progress)
  | tooBig (p : Progress)
  | blocked (i : Nat) (op : Sembuf) (p : Progress)

/-- The loop over the vector; `i` counts what has been done. -/
def performOps (nsems : UInt16) : List Sembuf → Nat → Progress → Loop
  | [], _, p => .done p
  | op :: rest, i, p =>
    let sem := p.sems op.num.toNat
    if nsems ≤ op.num then .tooBig p
    else if op.op < 0 then
      if (sem.val.toNat : Int) + op.op.toInt < 0 then .blocked i op p
      else performOps nsems rest (i + 1) (p.add op (sem.val + op.op.toUInt16 = 0 && 0 < sem.zcnt))
    else if op.op = 0 then
      if 0 < sem.val then .blocked i op p else performOps nsems rest (i + 1) p
    else performOps nsems rest (i + 1) (p.add op (0 < sem.ncnt))

def rollback (ops : List Sembuf) (sems : Nat → Sem) : Nat → Sem :=
  ops.foldl (fun sems op => changeVal sems op.num (· - op.op.toUInt16)) sems

structure Call where
  proc : Nat
  semid : Nat
  seq : Nat
  nsops : Int
  /-- What the memory of the caller holds. -/
  sops : Nat → Sembuf
  pid : Int
  time : Nat
  /-- Is there memory for more undo structures? -/
  grows : Bool

def Call.ops (c : Call) : List Sembuf := (List.range c.nsops.toNat).map c.sops

inductive Undone where
  | ok (u : Semu)
  | failed (e : Errno) (done : List Sembuf) (u : Semu)

/-- An operation that is not adjusted for. -/
def Sembuf.skipped (op : Sembuf) : Bool := !op.undo || op.op = 0

/-- The loop over the adjustments, which remembers what it has done, last first. -/
def adjustOps (c : Call) : List Sembuf → List Sembuf → Semu → Undone
  | _, [], u => .ok u
  | done, op :: rest, u =>
    if op.skipped then adjustOps c (op :: done) rest u
    else
      match semundoAdjust c.grows u c.proc c.semid op.num.toNat (-op.op.toInt) with
      | .ok u' => adjustOps c (op :: done) rest u'
      | .error e => .failed e done u

/-- The adjustments are taken back in reverse order. Without success there is a panic. -/
def unadjustOps (c : Call) : List Sembuf → Semu → Option Semu
  | [], u => some u
  | op :: rest, u =>
    if op.skipped then unadjustOps c rest u
    else
      match semundoAdjust c.grows u c.proc c.semid op.num.toNat op.op.toInt with
      | .ok u' => unadjustOps c rest u'
      | .error _ => none

inductive Outcome where
  | success (wakeup : Bool)
  | failed (e : Errno)
  | sleeps (op : Sembuf) (undos : Bool)
  | panics

/-- The number of waiters for the operation. -/
def countWaiters (op : Sembuf) (f : UInt16 → UInt16) (sems : Nat → Sem) : Nat → Sem :=
  let sem := sems op.num.toNat
  update sems op.num.toNat
    (if op.op = 0 then { sem with zcnt := f sem.zcnt } else { sem with ncnt := f sem.ncnt })

def setPids (c : Call) (sems : Nat → Sem) : Nat → Sem :=
  c.ops.foldl (fun sems op =>
    update sems op.num.toNat { sems op.num.toNat with pid := c.pid }) sems

def succeed (c : Call) (set : SemSet) (p : Progress) (u : Semu) : SemSet × Semu × Outcome :=
  ({ set with sems := setPids c p.sems, otime := c.time }, u, .success p.wakeup)

/-- All operations have been done, and the adjustments are made. -/
def finish (c : Call) (set : SemSet) (p : Progress) (u : Semu) : SemSet × Semu × Outcome :=
  if p.undos then
    match adjustOps c [] c.ops u with
    | .ok u' => succeed c set p u'
    | .failed e done u' =>
      match unadjustOps c done u' with
      | none => ({ set with sems := p.sems }, u', .panics)
      | some u'' => ({ set with sems := rollback c.ops p.sems }, u'', .failed e)
  else succeed c set p u

/-- A round of the loop of `semop`; `undos` is set by earlier rounds and never reset. -/
def attempt (c : Call) (undos : Bool) (set : SemSet) (u : Semu) : SemSet × Semu × Outcome :=
  match performOps set.nsems c.ops 0 ⟨set.sems, false, undos⟩ with
  | .tooBig p => ({ set with sems := p.sems }, u, .failed .efbig)
  | .blocked i op p =>
    let sems := rollback (c.ops.take i) p.sems
    if op.nowait then ({ set with sems := sems }, u, .failed .eagain)
    else ({ set with sems := countWaiters op (· + 1) sems }, u, .sleeps op p.undos)
  | .done p => finish c set p u

/-- How the lock was acquired: at the start of the call, or when it woke up. -/
inductive Acquired where
  | first (inRange : Bool) (permission copyin mac : Option Errno)
  | woken (op : Sembuf) (undos interrupted : Bool)

def Acquired.undos : Acquired → Bool
  | .first .. => false
  | .woken _ undos _ => undos

def prepare (c : Call) (set : SemSet) : Acquired → SemSet × Option Errno
  | .first inRange permission copyin mac =>
    (set,
      if !inRange || !set.allocated || set.seq ≠ c.seq then some .einval
      else permission <|> (if c.nsops < 0 ∨ semopm < c.nsops then some .e2big else none)
        <|> copyin <|> mac)
  | .woken op _ interrupted =>
    if !set.allocated || set.seq ≠ c.seq || set.nsems ≤ op.num then
      (set, some (if interrupted then .eintr else .eidrm))
    else
      ({ set with sems := countWaiters op (· - 1) set.sems },
        if interrupted then some .eintr else none)

structure State where
  set : Nat → SemSet
  undo : Semu

/-- `semop` while it holds the lock. -/
def semop (c : Call) (k : Acquired) (s : State) : State × Outcome :=
  let (set, error) := prepare c (s.set c.semid) k
  let (set', undo', outcome) := match error with
    | some e => (set, s.undo, .failed e)
    | none => attempt c k.undos set s.undo
  (⟨update s.set c.semid set', undo'⟩, outcome)

/-- Processes call `semop`, exit, and change sets by other calls, which drop entries. -/
inductive SemStep (s : State) : State → Prop
  | semop (c : Call) (k : Acquired) : SemStep s (semop c k s).1
  | exit (p : Nat) (set : Nat → SemSet) :
      SemStep s ⟨set, { s.undo with active := s.undo.active.filter fun su => su.proc ≠ p }⟩
  | control (set : Nat → SemSet) (active : List SemUndo)
      (cleared : List.Forall₂ (fun su su' => su'.proc = su.proc ∧ su'.entries.Sublist su.entries)
        s.undo.active active) :
      SemStep s ⟨set, { s.undo with active := active }⟩

def semSystem : Lib.System State where
  init s := s.undo.active = [] ∧ s.undo.capacity = 0
  step := SemStep

end XnuXzs.SysvSem
