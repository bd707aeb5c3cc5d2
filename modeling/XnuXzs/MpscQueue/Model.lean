import XnuXzs.Lib.Runs
import XnuXzs.Lib.Threaded

/-!
# Daemon queues

The queues of `osfmk/kern/mpsc_queue.c`: many enqueuers, and one drain for each queue, in a
thread, a thread call or another drain. Queues are active and never cancelled, so that only two
bits of `mpd_state` matter.
-/

namespace XnuXzs.MpscQueue

open Lib Function

variable {n : Nat}

/-- What can be enqueued: an element of a client, or the `mpd_chain` of a queue. -/
inductive Elem (n : Nat) where
  | user (k : Nat)
  | chain (d : Fin n)
  deriving DecidableEq

/-- `mpsc_daemon_queue_kind_t` -/
inductive Kind (n : Nat) where
  | thread
  | threadCall
  | nested (target : Fin n)
  deriving DecidableEq

/-- The queues; a nested one comes after its target. -/
structure Setup (n : Nat) where
  kind : Fin n → Kind n
  /-- `MPSC_QUEUE_OPTION_BATCH` -/
  batch : Fin n → Bool
  target_lt : ∀ d t, kind d = .nested t → t < d

/-- Where an enqueuer is in `_mpsc_daemon_queue_enqueue`. -/
inductive Call (n : Nat) where
  /-- to store null to the link of the element -/
  | start (d : Fin n) (e : Elem n)
  /-- to exchange the tail -/
  | cleared (d : Fin n) (e : Elem n)
  /-- to store the link of the predecessor -/
  | swapped (d : Fin n) (e : Elem n) (prev : Option (Elem n))
  /-- to set the wakeup bit, if the queue was empty -/
  | appended (d : Fin n) (wasEmpty : Bool)
  /-- to call `_mpsc_daemon_queue_wakeup` -/
  | waking (d : Fin n)
  | done
  deriving DecidableEq

/-- Where a drain is in `_mpsc_daemon_queue_drain` and what it calls. -/
inductive Drain (n : Nat) where
  | idle
  /-- to flip both bits -/
  | begin
  /-- to load the tail; whether a batch has been taken since the bits were flipped -/
  | fetch (took : Bool)
  /-- to load the link of the head, until it is not null -/
  | waitHead
  /-- to store null to the link of the head -/
  | gotHead (h : Elem n)
  /-- to exchange the tail -/
  | clearedHead (h : Elem n)
  /-- to load the link of the current element, until it is not null -/
  | next (cur tail : Elem n)
  /-- to store the marker to the link of the current element -/
  | mark (cur : Elem n) (tmp : Option (Elem n)) (tail : Elem n)
  /-- to call the invoke function -/
  | invoke (cur : Elem n) (tmp : Option (Elem n)) (tail : Elem n)
  | invoking (cur : Elem n) (tmp : Option (Elem n)) (tail : Elem n)
  /-- to call the invoke function with `MPSC_QUEUE_BATCH_END` -/
  | batchEnd
  /-- to call `assert_wait` -/
  | assertWait
  /-- to clear the draining bit -/
  | finish
  /-- to call `clear_wait` -/
  | clearWait
  | crashed
  deriving DecidableEq

/-- What is on its way to start the drain of a queue. -/
inductive Wake where
  | none
  /-- an enqueuer is about to call the wakeup function -/
  | due (i : Nat)
  /-- the chain element is with an enqueuer or in the target -/
  | chained
  /-- the thread has been woken, or the thread call entered -/
  | signalled
  | begun
  deriving DecidableEq

inductive Place (n : Nat) where
  | free
  | hand (i : Nat)
  | queued (d : Fin n)
  deriving DecidableEq

/-- The memory, the enqueuers and the drains. A thread waits for its event exactly when `signal`
is false; for a thread call `signal` says that it is pending. From `queue` on the fields are not
in the code: what is in the queue and in the batch behind what the drain knows of them, all
elements in the order of their exchanges and of their invocations, what is under way to wake the
queue, and where the elements are. -/
structure State (n : Nat) where
  next : Elem n → Link (Elem n)
  headNext : Fin n → Link (Elem n)
  tail : Fin n → Option (Elem n)
  draining : Fin n → Bool
  wakeup : Fin n → Bool
  signal : Fin n → Bool
  drain : Fin n → Drain n
  calls : List (Call n)
  queue : Fin n → List (Elem n)
  rest : Fin n → List (Elem n)
  appended : Fin n → List (Elem n)
  invoked : Fin n → List (Elem n)
  wake : Fin n → Wake
  place : Elem n → Place n

/-- After the `mpsc_daemon_queue_init` functions. -/
def initial (n : Nat) : State n where
  next := fun _ => .other
  headNext := fun _ => .null
  tail := fun _ => none
  draining := fun _ => false
  wakeup := fun _ => false
  signal := fun _ => false
  drain := fun _ => .idle
  calls := []
  queue := fun _ => []
  rest := fun _ => []
  appended := fun _ => []
  invoked := fun _ => []
  wake := fun _ => .none
  place := fun _ => .free

/-- The store of `__mpsc_queue_append_update_prev`. -/
def State.setLink (s : State n) (d : Fin n) (prev : Option (Elem n)) (l : Link (Elem n)) :
    State n :=
  match prev with
  | none => { s with headNext := update s.headNext d l }
  | some x => { s with next := update s.next x l }

abbrev State.exchanged (s : State n) (i : Nat) (d : Fin n) (e : Elem n) : State n :=
  { s with
    tail := update s.tail d (some e)
    calls := s.calls.set i (.swapped d e (s.tail d))
    queue := update s.queue d (s.queue d ++ [e])
    appended := update s.appended d (s.appended d ++ [e])
    place := update s.place e (.queued d) }

inductive CallStep (c : Setup n) (s : State n) (i : Nat) : State n → Prop where
  | clear (d : Fin n) (e : Elem n) (hc : s.calls[i]? = some (.start d e)) :
      CallStep c s i { s with
        next := update s.next e .null
        calls := s.calls.set i (.cleared d e) }
  | exchange (d : Fin n) (e : Elem n) (hc : s.calls[i]? = some (.cleared d e)) :
      CallStep c s i (s.exchanged i d e)
  | link (d : Fin n) (e : Elem n) (prev : Option (Elem n))
      (hc : s.calls[i]? = some (.swapped d e prev)) :
      CallStep c s i { s.setLink d prev (.to e) with
        calls := s.calls.set i (.appended d prev.isNone) }
  | leave (d : Fin n) (hc : s.calls[i]? = some (.appended d false)) :
      CallStep c s i { s with calls := s.calls.set i .done }
  /-- One of the bits was set already. -/
  | updateOnly (d : Fin n) (hc : s.calls[i]? = some (.appended d true))
      (hbits : s.draining d = true ∨ s.wakeup d = true) :
      CallStep c s i { s with
        wakeup := update s.wakeup d true
        calls := s.calls.set i .done }
  | updateWake (d : Fin n) (hc : s.calls[i]? = some (.appended d true))
      (hdraining : s.draining d = false) (hwakeup : s.wakeup d = false) :
      CallStep c s i { s with
        wakeup := update s.wakeup d true
        calls := s.calls.set i (.waking d)
        wake := update s.wake d (.due i) }
  /-- `_mpsc_queue_thread_wakeup` and `_mpsc_queue_thread_call_wakeup` -/
  | signal (d : Fin n) (hc : s.calls[i]? = some (.waking d)) (hkind : ∀ t, c.kind d ≠ .nested t) :
      CallStep c s i { s with
        signal := update s.signal d true
        calls := s.calls.set i .done
        wake := update s.wake d .signalled }
  /-- `_mpsc_daemon_queue_nested_wakeup` -/
  | enqueueChain (d t : Fin n) (hc : s.calls[i]? = some (.waking d))
      (hkind : c.kind d = .nested t) :
      CallStep c s i { s with
        calls := s.calls.set i (.start t (.chain d))
        wake := update s.wake d .chained
        place := update s.place (.chain d) (.hand i) }

/-- Where a drain goes on that has found the queue empty. -/
def Setup.leave (c : Setup n) (d : Fin n) : Drain n :=
  if c.kind d = .thread then .assertWait else .finish

/-- Both bits are flipped by one exclusive or, and checked. -/
abbrev State.begun (s : State n) (d : Fin n) : State n :=
  { s with
    draining := update s.draining d (!s.draining d)
    wakeup := update s.wakeup d (!s.wakeup d)
    drain := update s.drain d (if s.draining d = false ∧ s.wakeup d = true then .fetch false
      else .crashed)
    wake := update s.wake d .none }

abbrev State.invokedChain (s : State n) (d x : Fin n) (tail : Elem n) (tmp : Option (Elem n)) :
    State n :=
  { s with
    drain := update (update s.drain d (.invoking (.chain x) tmp tail)) x .begin
    invoked := update s.invoked d (s.invoked d ++ [.chain x])
    wake := update s.wake x .begun
    place := update s.place (.chain x) .free }

inductive DrainStep (c : Setup n) (s : State n) (d : Fin n) : State n → Prop where
  /-- The thread goes on after its wait, or the thread call is run. -/
  | run (hkind : ∀ t, c.kind d ≠ .nested t) (hd : s.drain d = .idle) (hsignal : s.signal d = true) :
      DrainStep c s d { s with
        signal := update s.signal d (decide (c.kind d = .thread))
        drain := update s.drain d .begin
        wake := update s.wake d .begun }
  | begin (hd : s.drain d = .begin) :
      DrainStep c s d (s.begun d)
  | fetchEmpty (took : Bool) (hd : s.drain d = .fetch took) (ht : s.tail d = none) :
      DrainStep c s d { s with
        drain := update s.drain d (if took && c.batch d then .batchEnd else c.leave d) }
  | batchEnd (hd : s.drain d = .batchEnd) :
      DrainStep c s d { s with drain := update s.drain d (c.leave d) }
  | fetchSome (took : Bool) (hd : s.drain d = .fetch took) (ht : s.tail d ≠ none) :
      DrainStep c s d { s with drain := update s.drain d .waitHead }
  | gotHead (h : Elem n) (hd : s.drain d = .waitHead) (hh : s.headNext d = .to h) :
      DrainStep c s d { s with
        drain := update s.drain d (.gotHead h)
        queue := update s.queue d (s.queue d).tail }
  | clearHead (h : Elem n) (hd : s.drain d = .gotHead h) :
      DrainStep c s d { s with
        headNext := update s.headNext d .null
        drain := update s.drain d (.clearedHead h) }
  | takeTail (h tail : Elem n) (hd : s.drain d = .clearedHead h) (ht : s.tail d = some tail) :
      DrainStep c s d { s with
        tail := update s.tail d none
        drain := update s.drain d (.next h tail)
        queue := update s.queue d []
        rest := update s.rest d (s.queue d) }
  | nextLast (cur : Elem n) (hd : s.drain d = .next cur cur) :
      DrainStep c s d { s with drain := update s.drain d (.mark cur none cur) }
  | nextLink (cur tail y : Elem n) (hd : s.drain d = .next cur tail) (hne : cur ≠ tail)
      (hy : s.next cur = .to y) :
      DrainStep c s d { s with
        drain := update s.drain d (.mark cur (some y) tail)
        rest := update s.rest d (s.rest d).tail }
  | mark (cur tail : Elem n) (tmp : Option (Elem n)) (hd : s.drain d = .mark cur tmp tail) :
      DrainStep c s d { s with
        next := update s.next cur .other
        drain := update s.drain d (.invoke cur tmp tail) }
  | invokeUser (k : Nat) (tail : Elem n) (tmp : Option (Elem n))
      (hd : s.drain d = .invoke (.user k) tmp tail) :
      DrainStep c s d { s with
        drain := update s.drain d (.invoking (.user k) tmp tail)
        invoked := update s.invoked d (s.invoked d ++ [.user k])
        place := update s.place (.user k) .free }
  /-- `mpsc_daemon_queue_nested_invoke` calls the drain of the queue. -/
  | invokeChain (q : Fin n) (tail : Elem n) (tmp : Option (Elem n))
      (hd : s.drain d = .invoke (.chain q) tmp tail) :
      DrainStep c s d (s.invokedChain d q tail tmp)
  /-- The invoke function returns; a nested drain has come to its end. -/
  | returned (cur tail : Elem n) (tmp : Option (Elem n)) (hd : s.drain d = .invoking cur tmp tail)
      (hover : ∀ q, cur = .chain q → s.drain q = .idle) :
      DrainStep c s d { s with
        drain := update s.drain d (tmp.elim (.fetch true) fun y => .next y tail) }
  | assertWait (hd : s.drain d = .assertWait) :
      DrainStep c s d { s with
        signal := update s.signal d false
        drain := update s.drain d .finish }
  /-- A wakeup has happened during the drain. -/
  | again (hd : s.drain d = .finish) (hwakeup : s.wakeup d = true) :
      DrainStep c s d { s with
        draining := update s.draining d false
        drain := update s.drain d (if c.kind d = .thread then .clearWait else .begin)
        wake := update s.wake d .begun }
  | finish (hd : s.drain d = .finish) (hwakeup : s.wakeup d = false) :
      DrainStep c s d { s with
        draining := update s.draining d false
        drain := update s.drain d .idle }
  | clearWait (hd : s.drain d = .clearWait) :
      DrainStep c s d { s with
        signal := update s.signal d true
        drain := update s.drain d .begin }

/-- A step of what has been begun. -/
inductive Work (c : Setup n) (s : State n) : State n → Prop where
  | call {t : State n} (i : Nat) (hstep : CallStep c s i t) : Work c s t
  | drain {t : State n} (d : Fin n) (hstep : DrainStep c s d t) : Work c s t

/-- A client may at any time enqueue an element that is not queued. -/
inductive Step (c : Setup n) (s : State n) : State n → Prop where
  | enqueue (d : Fin n) (k : Nat) (hfree : s.place (.user k) = .free) :
      Step c s { s with
        calls := s.calls ++ [.start d (.user k)]
        place := update s.place (.user k) (.hand s.calls.length) }
  | work {t : State n} (hwork : Work c s t) : Step c s t

def daemons (c : Setup n) : System (State n) where
  init s := s = initial n
  step := Step c

end XnuXzs.MpscQueue
