import XnuXzs.DataQueue.Layout

/-!
# A hostile mapper

Whoever maps the queue may change all of its memory between any two accesses of the kernel.
The capacity is kept outside of the mapped memory, and the copy of it in the header is never
loaded.
-/

namespace XnuXzs.DataQueue

open Lib List

/-- The queue, and the size of the buffer that the reader was last called with. -/
structure Watched where
  state : State
  buffer : Option Nat

def Call.buffer : Call → Option Nat
  | .peek => none
  | .dequeue buffer => buffer

inductive HostileStep (queueSize : Nat) (w : Watched) : Watched → Prop
  | tamper (head tail : UInt32) (mem : Nat → UInt8) :
      HostileStep queueSize w { w with
        state := { w.state with head := head.toNat, tail := tail.toNat, mem := mem } }
  | writer (t : State) (hstep : WriterStep queueSize w.state t) :
      HostileStep queueSize w { w with state := t }
  | call (call : Call) (hidle : w.state.reader = .idle) :
      HostileStep queueSize w ⟨{ w.state with reader := .loadTail call w.state.head }, call.buffer⟩
  | reader (t : State) (hbusy : w.state.reader ≠ .idle) (hstep : ReaderStep queueSize w.state t) :
      HostileStep queueSize w { w with state := t }

def hostile (queueSize : Nat) : System Watched where
  init w := (system queueSize).init w.state
  step := HostileStep queueSize

variable {queueSize : Nat} {s t : State} {buffer : Option Nat}

theorem placement_inside {tail head : Nat} {p : Placement} {data : List UInt8}
    (hq : queueSize ≤ uint32Max) (hp : placement queueSize tail head data.length = some p) {a : Nat}
    {b : UInt8} (hab : (a, b) ∈ p.stores data) : a < queueSize := by
  obtain ⟨-, hroom⟩ := placement_room hq hp
  rcases Placement.mem_stores hab with ⟨i, hi, rfl⟩ | ⟨m, hmarker, i, hi, rfl⟩
  · cases hroom with
    | behind => omega
    | front => omega
  cases hroom with
  | behind hoffset hnone =>
    rw [hnone] at hmarker
    cases hmarker
  | front hoffset hturn =>
    rw [hturn] at hmarker
    by_cases hfits : tail + headerSize ≤ queueSize
    · rw [if_pos hfits] at hmarker
      cases hmarker
      omega
    · rw [if_neg hfits] at hmarker
      cases hmarker

/-- The size is checked after its second load, so that nothing depends on the first. -/
theorem newHeadOffset_inside {headOffset entrySize newHead : Nat} {wrapped : Bool}
    (h : newHeadOffset queueSize headOffset wrapped entrySize = some newHead) :
    (if wrapped then 0 else headOffset) + headerSize + entrySize ≤ queueSize := by
  cases wrapped with
  | true =>
    simp only [newHeadOffset, if_true] at h ⊢
    split at h
    · cases h
    · omega
  | false =>
    simp only [newHeadOffset, Bool.false_eq_true, if_false] at h ⊢
    split at h
    · cases h
    · omega

/-- The stores that the writer has still to make. -/
def StoresInside (queueSize : Nat) (s : State) : Prop :=
  ∀ data p tail head stores, s.writer = .storing data p tail head stores →
    ∀ a b, (a, b) ∈ stores → a < queueSize

/-- What the reader knows of its caller's buffer, and of the range it copies. -/
def ReaderConfined (queueSize : Nat) (buffer : Option Nat) : Reader → Prop
  | .loadTail call _ => call.buffer = buffer
  | .reload => buffer = none
  | .loadHeadSize call _ _ => call.buffer = buffer
  | .loadEntrySize room _ _ _ => room = buffer
  | .copying entry entrySize _ read =>
    entry + headerSize + entrySize ≤ queueSize ∧ read.length ≤ entrySize ∧
      ∃ room, buffer = some room ∧ entrySize ≤ room
  | .storeHead _ (some copied) => ∃ room, buffer = some room ∧ copied.length ≤ room
  | .dequeued (some copied) => ∃ room, buffer = some room ∧ copied.length ≤ room
  | _ => True

structure HostileInv (queueSize : Nat) (w : Watched) : Prop where
  stores : StoresInside queueSize w.state
  reader : ReaderConfined queueSize w.buffer w.state.reader

theorem StoresInside.idle (hstoring : ∀ data p tail head stores,
    s.writer ≠ .storing data p tail head stores) : StoresInside queueSize s :=
  fun data p tail head stores hat => absurd hat (hstoring data p tail head stores)

theorem writer_inside (hq : queueSize ≤ uint32Max) (hs : StoresInside queueSize s)
    (hstep : WriterStep queueSize s t) : StoresInside queueSize t := by
  cases hstep with
  | enqueue | full | notify => exact .idle nofun
  | place data tail p hat hp =>
    intro data' p' tail' head' stores' hat' a b hab
    cases hat'
    exact placement_inside hq hp hab
  | store data p tail head before after address byte hat =>
    intro data' p' tail' head' stores' hat' a b hab
    cases hat'
    apply hs _ _ _ _ _ hat a b
    rcases mem_append.mp hab with h | h
    · exact mem_append_left _ h
    · exact mem_append_right _ (mem_cons_of_mem _ h)
  | publish | recheck =>
    apply StoresInside.idle
    intro data' p' tail' head' stores'
    dsimp only
    split <;> nofun

theorem nothing_confined (call : Call) (seen : Nat) (buffer : Option Nat) :
    ReaderConfined queueSize buffer (call.nothing seen) := by
  cases call with
  | peek | dequeue => trivial

theorem found_confined {call : Call} (hcall : call.buffer = buffer)
    (headOffset : Nat) (wrapped : Bool) (seen : Nat) :
    ReaderConfined queueSize buffer (call.found headOffset wrapped seen) := by
  cases call with
  | peek => trivial
  | dequeue => exact hcall

theorem afterSize_confined (buffer : Option Nat) (headOffset : Nat) (wrapped : Bool)
    (entrySize seen : Nat) :
    ReaderConfined queueSize buffer (afterSize queueSize buffer
      headOffset wrapped entrySize seen) := by
  unfold afterSize
  rcases h : newHeadOffset queueSize headOffset wrapped entrySize with _ | newHead
  · trivial
  rcases buffer with _ | room
  · trivial
  by_cases hroom : room < entrySize
  · simp only [if_pos hroom]
    trivial
  · simp only [if_neg hroom]
    exact ⟨newHeadOffset_inside h, Nat.zero_le _, room, rfl, Nat.le_of_not_lt hroom⟩

theorem reader_confined (hr : ReaderConfined queueSize buffer s.reader)
    (hbusy : s.reader ≠ .idle) (hstep : ReaderStep queueSize s t) :
    ReaderConfined queueSize buffer t.reader := by
  cases hstep with
  | begin call hidle => exact absurd hidle hbusy
  | empty => exact nothing_confined ..
  | peekTail headOffset hat hsome | reload hat hin =>
    rw [hat] at hr
    exact hr.symm
  | dequeueTail room headOffset hat hsome hin | headByte call headOffset read hat hmore
  | entryByte room headOffset wrapped read hat hmore =>
    rw [hat] at hr
    exact hr
  | dequeueOutside room headOffset hat hsome hout | peekOutside hat hout
  | leaveDequeued | leaveRefused | leavePeeked => trivial
  | headSize call headOffset read hat hall =>
    rw [hat] at hr
    exact found_confined hr ..
  | entrySize room headOffset wrapped read hat hall =>
    rw [hat] at hr
    cases hr
    exact afterSize_confined ..
  | copyByte entry entrySize newHead read hat hmore =>
    rw [hat] at hr
    obtain ⟨hin, -, hroom⟩ := hr
    refine ⟨hin, ?_, hroom⟩
    rw [length_append]
    exact hmore
  | copied entry entrySize newHead read hat hall =>
    rw [hat] at hr
    obtain ⟨-, hread, room, hbuffer, hroom⟩ := hr
    exact ⟨room, hbuffer, hread.trans hroom⟩
  | storeHead newHead copied hat =>
    rw [hat] at hr
    rcases copied with _ | copied
    · trivial
    · exact hr

theorem hostileInv_always (hq : queueSize ≤ uint32Max) :
    (hostile queueSize).Always (HostileInv queueSize) := by
  apply System.always_of_step
  · rintro w ⟨-, -, hwriter, hreader, -, -⟩
    refine ⟨.idle fun _ _ _ _ _ => ?_, ?_⟩
    · rw [hwriter]
      nofun
    · rw [hreader]
      trivial
  · intro w w' hinv hstep
    cases hstep with
    | tamper => exact ⟨hinv.stores, hinv.reader⟩
    | writer t hstep =>
      refine ⟨writer_inside hq hinv.stores hstep, ?_⟩
      rw [show t.reader = w.state.reader by cases hstep <;> rfl]
      exact hinv.reader
    | call => exact ⟨hinv.stores, rfl⟩
    | reader t hbusy hstep =>
      refine ⟨?_, reader_confined hinv.reader hbusy hstep⟩
      unfold StoresInside
      rw [show t.writer = w.state.writer by cases hstep <;> rfl]
      exact hinv.stores

/-- What the kernel may do to the memory of others. The writer also stores the tail, and the
reader the head. -/
structure Confined (queueSize : Nat) (w : Watched) : Prop where
  stores : StoresInside queueSize w.state
  written : ∀ t, WriterStep queueSize w.state t →
    t.head = w.state.head ∧ ∀ a, queueSize ≤ a → t.mem a = w.state.mem a
  onlyHead : ∀ t, ReaderStep queueSize w.state t → t.tail = w.state.tail ∧ t.mem = w.state.mem
  copies : ∀ entry entrySize newHead read, w.state.reader = .copying entry entrySize newHead read →
    entry + headerSize + entrySize ≤ queueSize ∧ ∃ room, w.buffer = some room ∧ entrySize ≤ room
  delivered : ∀ copied, w.state.reader = .dequeued (some copied) →
    ∃ room, w.buffer = some room ∧ copied.length ≤ room

/-- Whatever is stored into the mapped memory, and whenever. -/
theorem hostile_confined (queueSize : UInt32) :
    (hostile queueSize.toNat).Always (Confined queueSize.toNat) := by
  have hq := Nat.le_of_lt_succ queueSize.toNat_lt
  intro w hw
  have hinv := hostileInv_always hq w hw
  have hreader := hinv.reader
  refine ⟨hinv.stores, ?_, ?_, ?_, ?_⟩
  · intro t hstep
    cases hstep with
    | store data p tail head before after address byte hat =>
      refine ⟨rfl, fun a ha => Function.update_of_ne ?_ ..⟩
      rintro rfl
      have hin := hinv.stores _ _ _ _ _ hat a byte (mem_append_right _ (mem_cons_self ..))
      exact absurd hin (not_lt.mpr ha)
    | _ => exact ⟨rfl, fun _ _ => rfl⟩
  · intro t hstep
    cases hstep <;> exact ⟨rfl, rfl⟩
  · intro entry entrySize newHead read hat
    rw [hat] at hreader
    exact ⟨hreader.1, hreader.2.2⟩
  · intro copied hat
    rw [hat] at hreader
    exact hreader

end XnuXzs.DataQueue
