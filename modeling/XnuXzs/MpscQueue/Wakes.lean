import XnuXzs.MpscQueue.BatchSteps

/-!
# No wakeup is lost

Once the wakeup bit of a queue is set while nobody drains it, exactly one thing under way will
start its drain: an enqueuer, the chain element, a thread, or a drain about to flip the bits.
-/

namespace XnuXzs.MpscQueue

open Lib Function

variable {n : Nat} {c : Setup n} {s t : State n} {d q : Fin n} {i : Nat}

/-- Between the two updates of `mpd_state`. -/
def Drain.Running : Drain n → Prop
  | .idle | .begin | .clearWait | .crashed => False
  | _ => True

theorem Drain.Running.ne {x : Drain n} (hx : x.Running) :
    x ≠ .begin ∧ x ≠ .clearWait ∧ x ≠ .idle ∧ x ≠ .crashed := by
  refine ⟨?_, ?_, ?_, ?_⟩ <;> rintro rfl <;> exact hx

structure WakeOk (c : Setup n) (s : State n) (d : Fin n) : Prop where
  draining : s.draining d = true ↔ (s.drain d).Running
  none : s.wake d = .none ↔ s.draining d = true ∨ s.wakeup d = false
  due : ∀ i, s.wake d = .due i ↔ s.At i (.waking d)
  chained : s.wake d = .chained ↔ s.place (.chain d) ≠ .free
  begun : s.wake d = .begun ↔ s.drain d = .begin ∨ s.drain d = .clearWait
  signalled : s.wake d = .signalled ↔ s.drain d = .idle ∧ s.signal d = true
  sound : s.drain d ≠ .crashed
  hand : ∀ i q, s.InHand i q (.chain d) → c.kind d = .nested q
  queued : ∀ q, s.place (.chain d) = .queued q → c.kind d = .nested q
  signal : s.signal d = true → c.kind d = .thread ∨ c.kind d = .threadCall ∧ s.drain d = .idle
  finish : s.drain d = .finish → s.signal d = false
  thread : s.drain d = .assertWait ∨ s.drain d = .clearWait → c.kind d = .thread
  invoking : ∀ q tmp tail, s.drain d = .invoking (.chain q) tmp tail → c.kind q = .nested d
  nested : ∀ q, c.kind d = .nested q → s.drain d ≠ .idle →
    ∃ tmp tail, s.drain q = .invoking (.chain d) tmp tail

/-- A drain is idle when something else is under way to start it. -/
theorem WakeOk.idle (h : WakeOk c s d) (hnone : s.wake d ≠ .none) (hbegun : s.wake d ≠ .begun) :
    s.drain d = .idle := by
  have hdraining : ¬ (s.drain d).Running := fun hrun =>
    hnone (h.none.mpr (.inl (h.draining.mpr hrun)))
  have hbegin := mt h.begun.mpr hbegun
  cases hd : s.drain d with
  | idle => rfl
  | «begin» => exact absurd (.inl hd) hbegin
  | clearWait => exact absurd (.inr hd) hbegin
  | crashed => exact absurd hd h.sound
  | _ =>
    rw [hd] at hdraining
    exact absurd trivial hdraining

/-- The fields of a queue that its wakeups have to do with. -/
structure SameWake (s t : State n) (d : Fin n) : Prop where
  draining : t.draining d = s.draining d
  wakeup : t.wakeup d = s.wakeup d
  signal : t.signal d = s.signal d
  wake : t.wake d = s.wake d

theorem WakeOk.frame (h : WakeOk c s d) (hw : SameWake s t d) (hd : t.drain d = s.drain d)
    (hat : ∀ i, t.At i (.waking d) ↔ s.At i (.waking d))
    (hin : ∀ i q, t.InHand i q (.chain d) → s.InHand i q (.chain d))
    (hfree : t.place (.chain d) = .free ↔ s.place (.chain d) = .free)
    (hqueued : ∀ q, t.place (.chain d) = .queued q → c.kind d = .nested q)
    (htarget : ∀ q, c.kind d = .nested q → s.drain d ≠ .idle → t.drain q = s.drain q) :
    WakeOk c t d where
  draining := by rw [hw.draining, hd, h.draining]
  none := by rw [hw.wake, hw.draining, hw.wakeup, h.none]
  due := fun i => by rw [hw.wake, h.due, hat]
  chained := by rw [hw.wake, Ne, hfree, h.chained]
  begun := by rw [hw.wake, hd, h.begun]
  signalled := by rw [hw.wake, hw.signal, hd, h.signalled]
  sound := by
    rw [hd]
    exact h.sound
  hand := fun i q hq => h.hand i q (hin i q hq)
  queued := hqueued
  signal := by
    rw [hw.signal, hd]
    exact h.signal
  finish := by
    rw [hw.signal, hd]
    exact h.finish
  thread := by
    rw [hd]
    exact h.thread
  invoking := by
    rw [hd]
    exact h.invoking
  nested := fun q hq hidle => by
    rw [hd] at hidle
    rw [htarget q hq hidle]
    exact h.nested q hq hidle

theorem WakeOk.go (h : WakeOk c s d) (hw : SameWake s t d) (hat : t.calls = s.calls)
    (hplace : t.place (.chain d) = s.place (.chain d)) (hrun : (s.drain d).Running)
    (hrun' : (t.drain d).Running) (hfinish : t.drain d ≠ .finish)
    (hassert : t.drain d = .assertWait → c.kind d = .thread)
    (hinvoking : ∀ q tmp tail, t.drain d = .invoking (.chain q) tmp tail → c.kind q = .nested d)
    (hothers : ∀ q, c.kind d = .nested q → t.drain q = s.drain q) : WakeOk c t d := by
  obtain ⟨hbegin, hclear, hidle, -⟩ := hrun.ne
  obtain ⟨hbegin', hclear', hidle', hcrash'⟩ := hrun'.ne
  refine ⟨?_, ?_, ?_, ?_, ?_, ?_, hcrash', ?_, ?_, ?_, fun hx =>
    absurd hx hfinish, ?_, hinvoking, ?_⟩
  · rw [hw.draining, h.draining]
    exact iff_of_true hrun hrun'
  · rw [hw.wake, hw.draining, hw.wakeup, h.none]
  · intro i
    rw [hw.wake, h.due, State.At, State.At, hat]
  · rw [hw.wake, hplace, h.chained]
  · rw [hw.wake, h.begun]
    simp [hbegin, hclear, hbegin', hclear']
  · rw [hw.wake, h.signalled]
    simp [hidle, hidle']
  · intro i q hin
    rw [State.InHand, State.At, State.At, hat] at hin
    exact h.hand i q hin
  · rw [hplace]
    exact h.queued
  · rw [hw.signal]
    intro hsignal
    obtain hthread | ⟨-, hx⟩ := h.signal hsignal
    · exact .inl hthread
    · exact absurd hx hidle
  · rintro (hx | hx)
    · exact hassert hx
    · exact absurd hx hclear'
  · intro q hq _
    rw [hothers q hq]
    exact h.nested q hq hidle

theorem WakeOk.other (h : WakeOk c s q) (hq : q ≠ d) (hw : SameWake s t q)
    (hcalls : t.calls = s.calls) (hplace : t.place (.chain q) = s.place (.chain q))
    (hdrain : ∀ x ≠ d, t.drain x = s.drain x)
    (hdone : c.kind q = .nested d → s.drain q = .idle) : WakeOk c t q := by
  refine h.frame hw (hdrain q hq) ?_ ?_ (by rw [hplace]) ?_ ?_
  · intro i
    rw [State.At, State.At, hcalls]
  · intro i x hin
    rw [State.InHand, State.At, State.At, hcalls] at hin
    exact hin
  · rw [hplace]
    exact h.queued
  intro x hx hidle
  apply hdrain x
  rintro rfl
  exact hidle (hdone hx)

/-- Only the drain that its target invokes is at work. -/
theorem WakeOk.idle_of (h : WakeOk c s q)
    (hd : ∀ tmp tail, s.drain d ≠ .invoking (.chain q) tmp tail) (hq : c.kind q = .nested d) :
    s.drain q = .idle := by
  by_contra hidle
  obtain ⟨tmp, tail, hx⟩ := h.nested d hq hidle
  exact hd tmp tail hx

theorem Moves.inHand {new : Call n} {j : Nat} {e : Elem n} (h : Moves s t i new)
    (hnew : ∀ q e, new = .start q e ∨ new = .cleared q e → s.InHand i q e) (hin : t.InHand j q e) :
    s.InHand j q e := by
  obtain hin | hin := hin
  · obtain ⟨rfl, heq⟩ | ⟨-, hat⟩ := (h j _).mp hin
    · exact hnew q e (.inl heq.symm)
    · exact .inl hat
  · obtain ⟨rfl, heq⟩ | ⟨-, hat⟩ := (h j _).mp hin
    · exact hnew q e (.inr heq.symm)
    · exact .inr hat

theorem wakeOk_initial (c : Setup n) (d : Fin n) : WakeOk c (initial n) d where
  draining := ⟨nofun, nofun⟩
  none := ⟨fun _ => .inr rfl, fun _ => rfl⟩
  due := fun _ => ⟨nofun, nofun⟩
  chained := ⟨nofun, absurd rfl⟩
  begun := ⟨nofun, nofun⟩
  signalled := ⟨nofun, nofun⟩
  sound := nofun
  hand := by
    rintro i q (h | h) <;> cases h
  queued := nofun
  signal := nofun
  finish := nofun
  thread := nofun
  invoking := nofun
  nested := fun _ _ h => absurd rfl h

end XnuXzs.MpscQueue
