import XnuXzs.DataQueue.Interleaving

/-!
# Wake-ups

A dequeuer that finds the queue empty may sleep. `enqueue` notifies it if the queue was empty
when the call began, or if the head is found at the entry after the tail is stored.
-/

namespace XnuXzs.DataQueue

open Lib List Relation

variable {queueSize : Nat} {s t : State}

def TailLoaded (s : State) : Prop :=
  ∀ data p tail head stores, s.writer = .storing data p tail head stores → tail = s.tail

theorem tailLoaded_always (hq : queueSize ≤ uint32Max) : (system queueSize).Always TailLoaded := by
  intro s hs
  induction hs with
  | start h =>
    intro data p tail head stores hat
    rw [h.2.2.1] at hat
    cases hat
  | next hs hstep ih =>
    intro data p tail head stores hat
    rcases hstep with hstep | hstep
    · cases hstep with
      | place data tail p hload hp =>
        have hwriter := (inv_always hq _ hs).writer
        simp only [WriterInv, hload] at hwriter
        cases hat
        exact hwriter
      | store data p tail head before after address byte hstore =>
        cases hat
        exact ih _ _ _ _ _ hstore
      | publish | recheck => split at hat <;> cases hat
      | _ => cases hat
    · cases hstep <;> exact ih _ _ _ _ _ hat

/-- Nothing is left to read, unless the call under way will notify the reader. -/
def Attended (s : State) : Prop :=
  match s.writer with
  | .notify => True
  | .recheck tail => s.unread = [] ∨ s.head = tail ∧ s.unread.length = 1
  | _ => s.unread = []

theorem Attended.of_unread (h : s.unread = []) : Attended s := by
  unfold Attended
  split
  · trivial
  · exact .inl h
  · exact h

/-- A step that is not the call of `sendDataAvailableNotification`. -/
def Silent (queueSize : Nat) (s t : State) : Prop :=
  (system queueSize).step s t ∧ ¬ (s.writer = .notify ∧ t.writer = .idle)

theorem Attended.writer_step (hinv : Inv queueSize s) (htail : TailLoaded s) (h : Attended s)
    (hstep : WriterStep queueSize s t) (hsilent : ¬ (s.writer = .notify ∧ t.writer = .idle)) :
    Attended t := by
  cases hstep with
  | enqueue data hat | full data tail hat | place data tail p hat
  | store data p tail head before after address byte hat =>
    simp only [Attended, hat] at h
    exact h
  | publish data p tail head hat =>
    simp only [Attended, hat] at h
    have hempty := hinv.layout.eq_nil_iff.mp h
    have hunread : (s.sent ++ [(⟨p.offset, data⟩ : Entry)]).drop s.got.length =
        s.unread ++ [⟨p.offset, data⟩] := drop_append_of_le_length hinv.taken
    by_cases hne : tail ≠ head
    · simp only [Attended, if_pos hne]
      exact .inr ⟨hempty.trans (htail _ _ _ _ _ hat).symm, by rw [State.unread, hunread, h]; rfl⟩
    · simp [Attended, if_neg hne]
  | recheck tail hat =>
    simp only [Attended, hat] at h
    by_cases heq : tail = s.head
    · simp [Attended, if_pos heq]
    · simp only [Attended, if_neg heq]
      exact h.resolve_right fun hhead => heq hhead.1.symm
  | notify hat => exact absurd ⟨hat, rfl⟩ hsilent

theorem Attended.reader_step (hinv : Inv queueSize s) (h : Attended s)
    (hstep : ReaderStep queueSize s t) : Attended t := by
  cases hstep with
  | storeHead newHead copied hat =>
    have hreader := hinv.reader
    simp only [ReaderInv, hat] at hreader
    obtain ⟨e, rest, hunread, -⟩ := hreader
    unfold Attended at h ⊢
    split at h
    · rename_i hwriter
      simp only [hwriter]
    · -- the one entry that was unread has been taken
      rename_i tail hwriter
      simp only [hwriter]
      rcases h with h | ⟨-, h⟩
      · exact absurd (hunread.symm.trans h) (cons_ne_nil _ _)
      · left
        rw [hunread, length_cons, Nat.add_eq_right, length_eq_zero_iff] at h
        exact (State.unread_take hunread copied).trans h
    · exact absurd (hunread.symm.trans h) (cons_ne_nil _ _)
  | _ => exact h

theorem Attended.run (hq : queueSize ≤ uint32Max) (hs : (system queueSize).Reachable s)
    (h : Attended s) (hrun : ReflTransGen (Silent queueSize) s t) :
    (system queueSize).Reachable t ∧ Attended t := by
  induction hrun with
  | refl => exact ⟨hs, h⟩
  | tail _ hlast ih =>
    obtain ⟨hreach, h⟩ := ih
    obtain ⟨hstep, hsilent⟩ := hlast
    have hinv := inv_always hq _ hreach
    refine ⟨.next hreach hstep, ?_⟩
    rcases hstep with hstep | hstep
    · exact h.writer_step hinv (tailLoaded_always hq _ hreach) hstep hsilent
    · exact h.reader_step hinv hstep

/-- **No wake-up is lost.** In every run from a `dequeue` on that has found the queue empty
and returns false: when no `enqueue` is under way and no notification has been sent, every
entry that was published has been dequeued. -/
theorem wakeup_sent (queueSize : UInt32) {s t : State} {buffer : Option Nat} {headOffset : Nat}
    (hs : (system queueSize.toNat).Reachable s)
    (hat : s.reader = .loadTail (.dequeue buffer) headOffset) (hempty : headOffset = s.tail)
    (hrun : ReflTransGen (Silent queueSize.toNat)
      { s with reader := .refused buffer s.sent.length } t)
    (hdone : t.writer = .idle) : t.got.length = t.sent.length := by
  have hq := Nat.le_of_lt_succ queueSize.toNat_lt
  have hinv := inv_always hq s hs
  have hreader := hinv.reader
  simp only [ReaderInv, hat] at hreader
  have hnone := hinv.layout.eq_nil_iff.mpr (hreader.symm.trans hempty)
  obtain ⟨hreach, h⟩ :=
    Attended.run hq (.next hs (.inr (.empty _ _ hat hempty))) (.of_unread hnone) hrun
  simp only [Attended, hdone] at h
  exact le_antisymm (inv_always hq t hreach).taken (drop_eq_nil_iff.mp h)

/-- A queue whose memory is zero, as entries without data leave it. -/
def zeros (head tail : Nat) (writer : Writer) (reader : Reader) (sent : List Entry)
    (got : List (Option (List UInt8))) : State :=
  ⟨head, tail, fun _ => 0, writer, reader, sent, got⟩

theorem silent_of_reader (h : ReaderStep queueSize s t) (hwriter : t.writer = s.writer) :
    Silent queueSize s t :=
  ⟨.inr h, fun hcall => by cases hcall.1.symm.trans (hwriter.symm.trans hcall.2)⟩

variable {head tail : Nat} {writer : Writer} {reader : Reader} {sent : List Entry}
  {got : List (Option (List UInt8))}

theorem zeros_store (p : Placement) (tl hd : Nat) (stores : List (Nat × UInt8))
    (hzero : ∀ x ∈ stores, x.2 = 0) :
    ReflTransGen (Silent 16) (zeros head tail (.storing [] p tl hd stores) reader sent got)
      (zeros head tail (.storing [] p tl hd []) reader sent got) := by
  induction stores with
  | nil => exact .refl
  | cons x stores ih =>
    obtain ⟨address, byte⟩ := x
    obtain rfl : byte = 0 := hzero _ mem_cons_self
    have hstep : WriterStep 16
        (zeros head tail (.storing [] p tl hd ((address, 0) :: stores)) reader sent got)
        ⟨head, tail, Function.update (fun _ => 0) address 0, .storing [] p tl hd stores, reader,
          sent, got⟩ := .store [] p tl hd [] stores address 0 rfl
    rw [Function.update_eq_self address fun _ => (0 : UInt8)] at hstep
    exact .head ⟨.inl hstep, nofun⟩ (ih fun y hy => hzero y (mem_cons_of_mem _ hy))

/-- A whole `dequeue` of an entry without data. -/
theorem zeros_dequeue (hsome : head ≠ tail) (hin : head + 4 ≤ 16) :
    ReflTransGen (Silent 16) (zeros head tail writer .idle sent got)
      (zeros (head + 4) tail writer .idle sent (got ++ [none])) := by
  have hfound : wrapped 16 head 0 = false := by
    unfold wrapped uint32Max headerSize
    exact decide_eq_false (by omega)
  have hnew : newHeadOffset 16 head false 0 = some (head + 4) := by
    unfold newHeadOffset uint32Max headerSize
    rw [if_neg Bool.false_ne_true, if_neg (by omega)]
  refine .head (silent_of_reader (.begin (.dequeue none) rfl) rfl) ?_
  refine .head (silent_of_reader (.dequeueTail none head rfl hsome (by omega)) rfl) ?_
  refine .head (silent_of_reader (.headByte _ _ [] rfl (by decide)) rfl) ?_
  refine .head (silent_of_reader (.headByte _ _ [0] rfl (by decide)) rfl) ?_
  refine .head (silent_of_reader (.headByte _ _ [0, 0] rfl (by decide)) rfl) ?_
  refine .head (silent_of_reader (.headByte _ _ [0, 0, 0] rfl (by decide)) rfl) ?_
  refine .head (silent_of_reader (.headSize _ _ [0, 0, 0, 0] rfl rfl) rfl) ?_
  have hsize : leValue [0, 0, 0, 0] = 0 := rfl
  simp only [Call.found, hsize, hfound]
  refine .head (silent_of_reader (.entryByte none head false [] rfl (by decide)) rfl) ?_
  refine .head (silent_of_reader (.entryByte none head false [0] rfl (by decide)) rfl) ?_
  refine .head (silent_of_reader (.entryByte none head false [0, 0] rfl (by decide)) rfl) ?_
  refine .head (silent_of_reader (.entryByte none head false [0, 0, 0] rfl (by decide)) rfl) ?_
  refine .head (silent_of_reader (.entrySize none head false [0, 0, 0, 0] rfl rfl) rfl) ?_
  simp only [afterSize, hsize, hnew]
  refine .head (silent_of_reader (.storeHead (head + 4) none rfl) rfl) ?_
  exact .single (silent_of_reader (.leaveDequeued none rfl) rfl)

theorem reachable_of_silent (hs : (system queueSize).Reachable s)
    (hrun : ReflTransGen (Silent queueSize) s t) : (system queueSize).Reachable t := by
  induction hrun with
  | refl => exact hs
  | tail _ hlast ih => exact .next ih hlast.1

/-- One entry is there and the next one is begun when the first is taken. A `dequeue` finds the
queue empty, then the second entry is published and taken, and no notification is sent. -/
theorem wakeup_sent_taken : ∃ s t, (system 16).Reachable s ∧
    s.reader = .loadTail (.dequeue none) 4 ∧ s.tail = 4 ∧ s.sent.length = 1 ∧
    ReflTransGen (Silent 16) { s with reader := .refused none s.sent.length } t ∧
    t.sent.length = 2 ∧ t.got.length = t.sent.length := by
  have hstart : (system 16).Reachable (zeros 0 0 .idle .idle [] []) :=
    .start ⟨rfl, rfl, rfl, rfl, rfl, rfl⟩
  have hplaced := (hstart.next (.inl (.enqueue [] rfl (by decide)))).next
    (.inl (.place [] 0 ⟨0, none, 4⟩ rfl rfl))
  have hstored := reachable_of_silent hplaced (zeros_store _ _ _ _ (by decide))
  have hfirst := (hstored.next (.inl (.publish [] _ 0 0 rfl))).next (.inl (.notify rfl))
  have hsecond := (hfirst.next (.inl (.enqueue [] rfl (by decide)))).next
    (.inl (.place [] 4 ⟨4, none, 8⟩ rfl rfl))
  have hloaded := (reachable_of_silent hsecond (zeros_dequeue (by decide) (by decide))).next
    (.inr (.begin (.dequeue none) rfl))
  have hrun : ReflTransGen (Silent 16)
      (zeros 4 4 (.storing [] ⟨4, none, 8⟩ 4 0 (Placement.stores ⟨4, none, 8⟩ []))
        (.refused none 1) [⟨0, []⟩] [none])
      (zeros 8 8 .idle .idle [⟨0, []⟩, ⟨4, []⟩] [none, none]) := by
    refine (zeros_store _ _ _ _ (by decide)).trans ?_
    refine .head ⟨.inl (.publish [] _ 4 0 rfl), nofun⟩ ?_
    refine .head (silent_of_reader (.leaveRefused none 1 rfl) rfl) ?_
    refine (zeros_dequeue (by decide) (by decide)).trans ?_
    exact .single ⟨.inl (.recheck 4 rfl), nofun⟩
  exact ⟨_, _, hloaded, rfl, rfl, rfl, hrun, rfl, wakeup_sent 16 hloaded rfl rfl hrun rfl⟩

end XnuXzs.DataQueue
