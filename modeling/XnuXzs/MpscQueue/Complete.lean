import XnuXzs.MpscQueue.Delivery

/-!
# The end of the work

What is still to be done is priced: a step always costs more than the work it hands on to
others. Where nothing more can be done, nothing was left behind.
-/

namespace XnuXzs.MpscQueue

open Lib Function List Drain

variable {n : Nat} {c : Setup n} {s t : State n} {d : Fin n} {i : Nat}

def Drain.cost : Drain n → Nat
  | .idle => 0
  | .begin => 1
  | .clearWait => 2
  | .finish => 3
  | .assertWait => 4
  | .batchEnd => 5
  | .invoke _ _ _ => 5
  | .mark _ _ _ => 6
  | .next _ _ => 7
  | .clearedHead _ => 8
  | .gotHead _ => 9
  | .waitHead => 10
  | .fetch _ => 11
  | .invoking _ _ _ => 12
  | .crashed => 0

/-- The wakeup of a nested queue is an enqueue into a queue with a smaller index. -/
def Call.cost : Call n → Nat
  | .start d _ => 27 * d + 27
  | .cleared d _ => 27 * d + 26
  | .swapped d _ _ => 27 * d + 16
  | .appended d _ => 27 * d + 15
  | .waking d => 27 * d + 3
  | .done => 0

def State.queueCost (s : State n) (d : Fin n) : Nat :=
  (s.drain d).cost + 9 * (s.line d).length + (if s.wakeup d = true then 11 else 0) +
    (if s.wake d = .signalled then 2 else 0)

def State.cost (s : State n) : Nat := (s.calls.map Call.cost).sum + ∑ d, s.queueCost d

theorem sum_set {calls : List (Call n)} {old new : Call n} (h : calls[i]? = some old) :
    ((calls.set i new).map Call.cost).sum + old.cost = (calls.map Call.cost).sum + new.cost := by
  induction calls generalizing i with
  | nil => cases h
  | cons x xs ih =>
    cases i with
    | zero =>
      cases h
      simp only [set_cons_zero, map_cons, sum_cons]
      omega
    | succ i =>
      have := ih h
      simp only [set_cons_succ, map_cons, sum_cons]
      omega

theorem sum_change {f g : Fin n → Nat} (d : Fin n) (h : ∀ q ≠ d, g q = f q) :
    (∑ q, g q) + f d = (∑ q, f q) + g d := by
  have hrest : ∑ q ∈ Finset.univ.erase d, g q = ∑ q ∈ Finset.univ.erase d, f q :=
    Finset.sum_congr rfl fun q hq => h q (Finset.ne_of_mem_erase hq)
  rw [← Finset.add_sum_erase _ f (Finset.mem_univ d),
    ← Finset.add_sum_erase _ g (Finset.mem_univ d), hrest]
  omega

theorem cost_lt_of_call {old new : Call n} (hc : s.At i old) (hcalls : t.calls = s.calls.set i new)
    (hothers : ∀ q ≠ d, t.queueCost q = s.queueCost q)
    (hlt : new.cost + t.queueCost d < old.cost + s.queueCost d) : t.cost < s.cost := by
  have hsum := sum_change d hothers
  have hset := @sum_set n i s.calls old new hc
  rw [State.cost, State.cost, hcalls]
  omega

theorem cost_lt_of_drain (hothers : ∀ q ≠ d, t.queueCost q = s.queueCost q)
    (hlt : t.queueCost d < s.queueCost d) (hcalls : t.calls = s.calls := by rfl) :
    t.cost < s.cost := by
  have hsum := sum_change d hothers
  rw [State.cost, State.cost, hcalls]
  omega

theorem queueCost_congr (hdrain : t.drain d = s.drain d) (hrest : t.rest d = s.rest d)
    (hqueue : t.queue d = s.queue d) (hwakeup : t.wakeup d = s.wakeup d)
    (hwake : t.wake d = s.wake d) :
    t.queueCost d = s.queueCost d := by
  simp [State.queueCost, State.line, hdrain, hrest, hqueue, hwakeup, hwake]

theorem callStep_cost (hstep : CallStep c s i t) : t.cost < s.cost := by
  cases hstep with
  | clear d e hc | leave d hc =>
    refine cost_lt_of_call (d := d) hc rfl (fun _ _ => rfl) ?_
    simp only [Call.cost, State.queueCost, State.line]
    omega
  | exchange d e hc =>
    refine cost_lt_of_call (d := d) hc rfl (fun q hq => ?_) ?_
    · exact queueCost_congr rfl rfl (update_of_ne hq ..) rfl rfl
    · simp only [Call.cost, State.queueCost, State.line, update_self, length_append,
        length_singleton]
      omega
  | link d e prev hc =>
    have hsame : ∀ q, State.queueCost { s.setLink d prev (.to e) with
        calls := s.calls.set i (.appended d prev.isNone) } q = s.queueCost q := fun q => by
      cases prev <;> rfl
    refine cost_lt_of_call (d := d) hc rfl (fun q _ => hsame q) ?_
    rw [hsame]
    simp only [Call.cost]
    omega
  | updateOnly d hc hbits =>
    refine cost_lt_of_call (d := d) hc rfl (fun q hq => ?_) ?_
    · exact queueCost_congr rfl rfl rfl (update_of_ne hq ..) rfl
    · simp only [Call.cost, State.queueCost, State.line, update_self, if_true]
      omega
  | updateWake d hc =>
    refine cost_lt_of_call (d := d) hc rfl (fun q hq => ?_) ?_
    · exact queueCost_congr rfl rfl rfl (update_of_ne hq ..) (update_of_ne hq ..)
    · simp only [Call.cost, State.queueCost, State.line, update_self,
        if_true, reduceCtorEq, if_false]
      omega
  | signal d hc hkind =>
    refine cost_lt_of_call (d := d) hc rfl (fun q hq => ?_) ?_
    · exact queueCost_congr rfl rfl rfl rfl (update_of_ne hq ..)
    · simp only [Call.cost, State.queueCost, State.line, update_self, if_true]
      omega
  | enqueueChain d x hc hkind =>
    have hlt := c.target_lt d x hkind
    refine cost_lt_of_call (d := d) hc rfl (fun q hq => ?_) ?_
    · exact queueCost_congr rfl rfl rfl rfl (update_of_ne hq ..)
    · simp only [Call.cost, State.queueCost, State.line, update_self, reduceCtorEq, if_false]
      omega

theorem cost_lt_of_phase {x y : Drain n} (hy : s.drain d = y) (hd : t.drain = update s.drain d x)
    (hcost : x.cost < y.cost) (hline : (t.line d).length = (s.line d).length)
    (hothers : ∀ q ≠ d, t.rest q = s.rest q ∧
      t.queue q = s.queue q := by exact fun _ _ => ⟨rfl, rfl⟩)
    (hcalls : t.calls = s.calls := by rfl) (hwakeup : t.wakeup = s.wakeup := by rfl)
    (hwake : t.wake = s.wake := by rfl) : t.cost < s.cost := by
  subst hy
  refine cost_lt_of_drain (d := d) (fun q hq => ?_) ?_ hcalls
  · exact queueCost_congr (by rw [hd, update_of_ne hq]) (hothers q hq).1 (hothers q hq).2
      (congrFun hwakeup q) (congrFun hwake q)
  · simp only [State.queueCost, hline, hwakeup, hwake]
    rw [hd, update_self]
    omega

/-- The chain element pays for the beginning of the drain. -/
theorem cost_lt_of_invokeChain (h : Inv c s) {x : Fin n} {tail : Elem n} {tmp : Option (Elem n)}
    (hd : s.drain d = .invoke (.chain x) tmp tail) :
    (s.invokedChain d x tail tmp).cost < s.cost := by
  have hplace : s.place (.chain x) = .queued d :=
    (h.lists.queued d _).mp (by simp [State.line, hd, held])
  obtain ⟨hxd, hxidle, -⟩ := wakes_invokeChain h.wakes hd hplace
  have hwake : s.wake x = .chained := (h.wakes x).chained.mpr (by simp [hplace])
  let m : State n := { s with drain := update s.drain d (.invoking (.chain x) tmp tail) }
  let t := s.invokedChain d x tail tmp
  have hfirst := sum_change (f := s.queueCost) (g := m.queueCost) d fun q hq =>
    queueCost_congr (update_of_ne hq ..) rfl rfl rfl rfl
  have hsecond := sum_change (f := m.queueCost) (g := t.queueCost) x fun q hq =>
    queueCost_congr (update_of_ne hq ..) rfl rfl rfl (update_of_ne hq ..)
  have hd' : m.queueCost d + 2 = s.queueCost d := by
    simp only [m, State.queueCost, State.line, update_self, hd, cost, held, seen,
      length_append, length_cons]
    omega
  have hx' : t.queueCost x = m.queueCost x + 1 := by
    simp only [t, m, State.queueCost, State.line, update_self,
      update_of_ne hxd, hxidle, hwake, cost,
      held, seen, reduceCtorEq, if_false]
    omega
  change t.cost < s.cost
  have hcalls : t.calls = s.calls := rfl
  rw [State.cost, State.cost, hcalls]
  omega

theorem drainStep_cost (h : Inv c s) (hstep : DrainStep c s d t) : t.cost < s.cost := by
  have ok := h.lists.queue d
  cases hstep with
  | run hkind hd hsignal =>
    have hwake : s.wake d = .signalled := (h.wakes d).signalled.mpr ⟨hd, hsignal⟩
    refine cost_lt_of_drain (d := d) (fun q hq => ?_) ?_
    · exact queueCost_congr (update_of_ne hq ..) rfl rfl rfl (update_of_ne hq ..)
    · simp only [State.queueCost, State.line, update_self, hd, hwake, cost, held, seen,
        reduceCtorEq, if_false, if_true]
      omega
  | «begin» hd =>
    obtain ⟨hdraining, hwakeup, -⟩ := wakes_begin h.wakes hd
    have hwake : s.wake d = .begun := (h.wakes d).begun.mpr (.inl hd)
    refine cost_lt_of_drain (d := d) (fun q hq => ?_) ?_
    · exact queueCost_congr (update_of_ne hq ..) rfl rfl (update_of_ne hq ..) (update_of_ne hq ..)
    · simp only [State.queueCost, State.line, update_self, hd, hwake, hdraining, hwakeup, cost,
        held, seen, reduceCtorEq, if_false, if_true, and_self, Bool.not_true]
      omega
  | fetchEmpty took hd ht =>
    refine cost_lt_of_phase hd rfl ?_ ?_
    · unfold Setup.leave
      split_ifs <;> simp [cost]
    · unfold Setup.leave
      split_ifs <;> simp [State.line, hd, held, seen]
  | batchEnd hd =>
    refine cost_lt_of_phase hd rfl ?_ ?_
    · unfold Setup.leave
      split_ifs <;> simp [cost]
    · unfold Setup.leave
      split_ifs <;> simp [State.line, hd, held, seen]
  | fetchSome took hd ht | clearHead x hd | nextLast cur hd | mark cur tail tmp hd | assertWait hd
  | finish hd hwakeup | clearWait hd =>
    apply cost_lt_of_phase hd rfl (by simp [cost])
    simp [State.line, hd, held, seen]
  | gotHead x hd hx =>
    have hchain := ok.queueChain
    rw [hd] at hchain
    obtain ⟨ys, hys, -, -⟩ := hchain.follow hx
    refine cost_lt_of_phase hd rfl (by simp [cost]) ?_ (fun q hq => ⟨rfl, update_of_ne hq ..⟩)
    simp [State.line, hd, hys, held, seen]
  | takeTail x tail hd ht =>
    have hrest := ok.batchEnd (by rw [hd]; rfl)
    refine cost_lt_of_phase hd rfl (by simp [cost]) ?_ (fun q hq =>
      ⟨update_of_ne hq .., update_of_ne hq ..⟩)
    simp [State.line, hd, hrest, held, seen]
  | nextLink cur tail y hd hne hy =>
    obtain ⟨ys, hys, -, -⟩ := (ok.batchChain cur (by rw [hd]; rfl)).follow hy
    refine cost_lt_of_phase hd rfl (by simp [cost]) ?_ (fun q hq => ⟨update_of_ne hq .., rfl⟩)
    simp [State.line, hd, hys, held, seen]
  | invokeUser k tail tmp hd =>
    refine cost_lt_of_drain (d := d) (fun q hq => ?_) ?_
    · exact queueCost_congr (update_of_ne hq ..) rfl rfl rfl rfl
    · simp only [State.queueCost, State.line, update_self, hd, cost, held, seen,
        length_append, length_cons]
      omega
  | invokeChain x tail tmp hd => exact cost_lt_of_invokeChain h hd
  | returned cur tail tmp hd hover =>
    refine cost_lt_of_phase hd rfl ?_ ?_
    · cases tmp <;> simp [cost]
    · cases tmp <;> simp [State.line, hd, held, seen]
  | again hd hwakeup =>
    have hnone : s.wake d = .none :=
      (h.wakes d).none.mpr (.inl ((h.wakes d).draining.mpr (by simp [hd, Drain.Running])))
    refine cost_lt_of_drain (d := d) (fun q hq => ?_) ?_
    · exact queueCost_congr (update_of_ne hq ..) rfl rfl rfl (update_of_ne hq ..)
    · simp only [State.queueCost, State.line, update_self, hd, hnone, reduceCtorEq, if_false]
      split <;> simp [cost, held, seen]

theorem work_cost (h : Inv c s) (hwork : Work c s t) : t.cost < s.cost := by
  cases hwork with
  | call i hstep => exact callStep_cost hstep
  | drain d hstep => exact drainStep_cost h hstep

/-- The enqueuers and drains can take only so many steps before another element comes. -/
theorem work_bound {f : Nat → State n} (h : Inv c (f 0)) (k : Nat)
    (hwork : ∀ j < k, Work c (f j) (f (j + 1))) : Inv c (f k) ∧ k + (f k).cost ≤ (f 0).cost := by
  induction k with
  | zero => exact ⟨h, by omega⟩
  | succ k ih =>
    obtain ⟨hinv, hle⟩ := ih fun j hj => hwork j (by omega)
    have hstep := hwork k (by omega)
    have hlt := work_cost hinv hstep
    exact ⟨hinv.work hstep, by omega⟩

theorem calls_done (hend : ∀ t, ¬ Work c s t) {x : Call n} (hat : s.At i x) : x = .done := by
  cases x with
  | start d e => exact absurd (.call i (.clear d e hat)) (hend _)
  | cleared d e => exact absurd (.call i (.exchange d e hat)) (hend _)
  | swapped d e prev => exact absurd (.call i (.link d e prev hat)) (hend _)
  | appended d wasEmpty =>
    cases wasEmpty with
    | false => exact absurd (.call i (.leave d hat)) (hend _)
    | true =>
      by_cases hbits : s.draining d = true ∨ s.wakeup d = true
      · exact absurd (.call i (.updateOnly d hat hbits)) (hend _)
      · simp only [not_or, Bool.not_eq_true] at hbits
        exact absurd (.call i (.updateWake d hat hbits.1 hbits.2)) (hend _)
  | waking d =>
    cases hkind : c.kind d with
    | thread | threadCall => exact absurd (.call i (.signal d hat (by simp [hkind]))) (hend _)
    | nested x => exact absurd (.call i (.enqueueChain d x hat hkind)) (hend _)
  | done => rfl

theorem not_linking (hend : ∀ t, ¬ Work c s t) (e : Elem n) : ¬ s.Linking e := by
  rintro ⟨j, q, p, hat⟩
  cases calls_done hend hat

/-- No drain waits for a link, because every enqueuer has made its own, nor for a nested drain,
because none of a greater index is at work. -/
theorem drains_idle (hend : ∀ t, ¬ Work c s t) (h : Inv c s) (d : Fin n) : s.drain d = .idle := by
  induction d using WellFoundedGT.induction with
  | ind d ih =>
    have hno : ∀ {t : State n}, ¬ DrainStep c s d t := fun hstep => hend _ (.drain d hstep)
    have ok := h.lists.queue d
    cases hd : s.drain d with
    | idle => rfl
    | «begin» => exact absurd (.begin hd) hno
    | fetch took =>
      by_cases ht : s.tail d = none
      · exact absurd (.fetchEmpty took hd ht) hno
      · exact absurd (.fetchSome took hd ht) hno
    | batchEnd => exact absurd (.batchEnd hd) hno
    | waitHead =>
      have hchain := ok.queueChain
      cases hq : s.queue d with
      | nil => exact absurd hq (ok.wait hd)
      | cons x xs =>
        rw [hd, hq] at hchain
        obtain ⟨⟨hun, -⟩ | ⟨-, hx⟩, -⟩ := hchain
        · exact absurd hun (not_linking hend x)
        · exact absurd (.gotHead x hd hx) hno
    | gotHead x => exact absurd (.clearHead x hd) hno
    | clearedHead x =>
      cases ht : s.tail d with
      | none =>
        have hlast := ok.tail
        rw [hd, ht, lastOr] at hlast
        cases hx : (s.queue d).getLast? <;> simp [hx, seen] at hlast
      | some tail => exact absurd (.takeTail x tail hd ht) hno
    | next cur tail =>
      by_cases hne : cur = tail
      · subst hne
        exact absurd (.nextLast cur hd) hno
      have hchain := ok.batchChain cur (by rw [hd]; rfl)
      have hlast := ok.batchTail cur tail (by rw [hd]; rfl) (by rw [hd]; rfl)
      cases hr : s.rest d with
      | nil =>
        rw [hr] at hlast
        exact absurd (Option.some.inj hlast) hne
      | cons y ys =>
        rw [hr] at hchain
        obtain ⟨⟨hun, -⟩ | ⟨-, hy⟩, -⟩ := hchain
        · exact absurd hun (not_linking hend y)
        · exact absurd (.nextLink cur tail y hd hne hy) hno
    | mark cur tmp tail => exact absurd (.mark cur tail tmp hd) hno
    | invoke cur tmp tail =>
      cases cur with
      | user k => exact absurd (.invokeUser k tail tmp hd) hno
      | chain q => exact absurd (.invokeChain q tail tmp hd) hno
    | invoking cur tmp tail =>
      refine absurd (.returned cur tail tmp hd ?_) hno
      rintro q rfl
      exact ih q (c.target_lt q d ((h.wakes d).invoking q tmp tail hd))
    | assertWait => exact absurd (.assertWait hd) hno
    | finish =>
      cases hwakeup : s.wakeup d with
      | true => exact absurd (.again hd hwakeup) hno
      | false => exact absurd (.finish hd hwakeup) hno
    | clearWait => exact absurd (.clearWait hd) hno
    | crashed => exact absurd hd (h.wakes d).sound

/-- A queue with something in it would have been woken, or its target would not be empty. -/
theorem lines_empty (hend : ∀ t, ¬ Work c s t) (h : Inv c s) (d : Fin n) : s.line d = [] := by
  induction d using WellFoundedLT.induction with
  | ind d ih =>
    have hidle := drains_idle hend h d
    have hw := h.wakes d
    have hrest : s.rest d = [] := (h.lists.queue d).batchEnd (by rw [hidle]; rfl)
    have hline : s.line d = s.queue d := by
      simp [State.line, hidle, hrest, held, seen]
    rw [hline]
    by_contra hne
    have hwakeup : s.wakeup d = true := by
      obtain hcheck | hbit | ⟨j, ⟨e, hat⟩ | hat⟩ := h.charge d hne
      · rw [hidle] at hcheck
        exact absurd hcheck id
      · exact hbit
      · cases calls_done hend hat
      · cases calls_done hend hat
    cases hwake : s.wake d with
    | none =>
      obtain hdraining | hbit := hw.none.mp hwake
      · have hrun := hw.draining.mp hdraining
        rw [hidle] at hrun
        exact hrun
      · simp [hwakeup] at hbit
    | due j => cases calls_done hend ((hw.due j).mp hwake)
    | chained =>
      have hplace := hw.chained.mp hwake
      cases hp : s.place (.chain d) with
      | free => exact hplace hp
      | hand j =>
        obtain ⟨q, hat | hat⟩ := (h.lists.hand j _).mp hp <;> cases calls_done hend hat
      | queued q =>
        have hmem := (h.lists.queued q _).mpr hp
        rw [ih q (c.target_lt d q (hw.queued q hp))] at hmem
        cases hmem
    | signalled =>
      obtain ⟨-, hsignal⟩ := hw.signalled.mp hwake
      have hkind : ∀ x, c.kind d ≠ .nested x := by
        intro x hx
        obtain hthread | ⟨hcall, -⟩ := hw.signal hsignal
        · simp [hx] at hthread
        · simp [hx] at hcall
      exact hend _ (.drain d (.run hkind hidle hsignal))
    | begun =>
      obtain hd | hd := hw.begun.mp hwake <;> simp [hidle] at hd

/-- Something is under way that starts the drain of the queue. -/
def State.Woken (s : State n) (c : Setup n) (d : Fin n) : Prop :=
  (∃ i, s.At i (.waking d)) ∨
  (∃ q, c.kind d = .nested q ∧ ((∃ i, s.InHand i q (.chain d)) ∨ .chain d ∈ s.line q)) ∨
  (s.drain d = .idle ∧ s.signal d = true) ∨
  s.drain d = .begin ∨ s.drain d = .clearWait

theorem WakeOk.woken (h : WakeOk c s d) (hlists : Lists s) (hdraining : s.draining d = false)
    (hwakeup : s.wakeup d = true) : s.Woken c d := by
  cases hwake : s.wake d with
  | none =>
    have := h.none.mp hwake
    simp [hdraining, hwakeup] at this
  | due i => exact .inl ⟨i, (h.due i).mp hwake⟩
  | chained =>
    refine .inr (.inl ?_)
    have hplace := h.chained.mp hwake
    cases hp : s.place (.chain d) with
    | free => exact absurd hp hplace
    | hand j =>
      obtain ⟨q, hin⟩ := (hlists.hand j _).mp hp
      exact ⟨q, h.hand j q hin, .inl ⟨j, hin⟩⟩
    | queued q => exact ⟨q, h.queued q hp, .inr ((hlists.queued q _).mpr hp)⟩
  | signalled => exact .inr (.inr (.inl (h.signalled.mp hwake)))
  | begun => exact .inr (.inr (.inr (h.begun.mp hwake)))

/-- What a state of a run shows of the queues. -/
structure Served (c : Setup n) (s : State n) : Prop where
  /-- The `k`-th element invoked is the `k`-th one whose append exchanged the tail. -/
  order : ∀ d, s.invoked d <+: s.appended d
  /-- No assertion of a drain fails. -/
  sound : ∀ d, s.drain d ≠ .crashed
  /-- A queue that is not empty has somebody in charge. -/
  inCharge : ∀ d, s.tail d ≠ none → s.draining d = true ∨ s.wakeup d = true ∨ ∃ i, s.Owes i d
  /-- A wakeup that is not consumed by a drain will start one. -/
  woken : ∀ d, s.draining d = false → s.wakeup d = true → s.Woken c d
  /-- The enqueuers and drains come to an end. -/
  bounded : ∀ (f : Nat → State n) (k : Nat), f 0 = s → (∀ j < k, Work c (f j) (f (j + 1))) →
    k ≤ s.cost
  /-- At the end all calls have returned and all that was appended has been invoked. -/
  complete : (∀ t, ¬ Work c s t) →
    (∀ i x, s.At i x → x = .done) ∧ ∀ d, s.drain d = .idle ∧ s.invoked d = s.appended d

theorem daemons_serve (c : Setup n) : (daemons c).Always (Served c) := by
  intro s hs
  have h := daemons_inv c s hs
  refine ⟨fun d => ?_, fun d => (h.wakes d).sound, fun d ht => ?_, fun d hdraining hwakeup => ?_,
    fun f k hf hwork => ?_, fun hend => ⟨fun i x hat => calls_done hend hat, fun d => ⟨?_, ?_⟩⟩⟩
  · rw [(h.lists.queue d).log]
    exact prefix_append ..
  · by_cases hqueue : s.queue d = []
    · -- only the head that the drain has loaded is left
      refine .inl ((h.wakes d).draining.mpr ?_)
      rw [(h.lists.queue d).tail, hqueue] at ht
      cases hd : s.drain d with
      | gotHead | clearedHead => trivial
      | _ =>
        rw [hd] at ht
        exact absurd rfl ht
    · obtain hcheck | hrest := h.charge d hqueue
      · exact .inl ((h.wakes d).draining.mpr (WillCheck.running hcheck))
      · exact .inr hrest
  · exact (h.wakes d).woken h.lists hdraining hwakeup
  · subst hf
    have := (work_bound h k hwork).2
    omega
  · exact drains_idle hend h d
  · rw [(h.lists.queue d).log, lines_empty hend h d, append_nil]

end XnuXzs.MpscQueue
