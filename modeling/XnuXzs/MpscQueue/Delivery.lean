import XnuXzs.MpscQueue.Progress

/-!
# Delivery

The invariant holds along every run, the enqueuers and drains come to an end of their
work, and at that end every element has been invoked.
-/

namespace XnuXzs.MpscQueue

open Lib Function

variable {n : Nat} {c : Setup n} {s t : State n} {d : Fin n} {i : Nat} {x y : Drain n}

theorem Lists.pass (h : Lists s) (hd : t.drain = update s.drain d x)
    (hx : SameDrain (s.drain d) x) (hnull : ∀ y, x ≠ .clearedHead y := by simp)
    (hwait : x = .waitHead → s.queue d ≠ [] := by simp)
    (hq : ∀ q, SameQueue s t q := by exact fun _ => ⟨rfl, rfl, rfl, rfl, rfl, rfl⟩)
    (hnext : t.next = s.next := by rfl) (hplace : t.place = s.place := by rfl)
    (hcalls : t.calls = s.calls := by rfl) : Lists t := by
  have hother : ∀ q ≠ d, t.drain q = s.drain q := fun q hq => by rw [hd, update_of_ne hq]
  have hown : t.drain d = x := by rw [hd, update_self]
  refine h.frame hq (fun q => ?_) (fun q y hy => ?_) (fun q hy => ?_) hnext hplace fun j e _ => ?_
  · by_cases hqd : q = d
    · subst hqd
      rw [hown]
      exact hx
    · rw [hother q hqd]
      exact .refl _
  · by_cases hqd : q = d
    · subst hqd
      exact absurd (hown.symm.trans hy) (hnull y)
    · rw [(hq q).headNext]
      exact (h.queue q).headNull y ((hother q hqd).symm.trans hy)
  · by_cases hqd : q = d
    · subst hqd
      exact hwait (hown.symm.trans hy)
    · exact (h.queue q).wait ((hother q hqd).symm.trans hy)
  · rw [State.At, State.At, hcalls]

theorem charge_own (h : ∀ q, InCharge s q) (hown : InCharge t d)
    (hqueue : ∀ q ≠ d, t.queue q = s.queue q) (hdrain : ∀ q ≠ d, t.drain q = s.drain q)
    (hwakeup : ∀ q ≠ d, t.wakeup q = s.wakeup q) (hcalls : t.calls = s.calls) (q : Fin n) :
    InCharge t q := by
  by_cases hq : q = d
  · subst hq
    exact hown
  refine (h q).mono (by rw [hqueue q hq]; exact id) (by rw [hdrain q hq]; exact id)
    (by rw [hwakeup q hq]; exact id) fun j hj => ?_
  rw [State.Owes, State.At] at hj ⊢
  simp only [State.At] at hj ⊢
  rw [hcalls]
  exact hj

/-- While the drain will look again, it is in charge itself. -/
theorem charge_check (h : ∀ q, InCharge s q) (hown : (t.drain d).WillCheck)
    (hqueue : ∀ q ≠ d, t.queue q = s.queue q) (hdrain : ∀ q ≠ d, t.drain q = s.drain q)
    (hwakeup : ∀ q ≠ d, t.wakeup q = s.wakeup q) (hcalls : t.calls = s.calls) : ∀ q, InCharge t q :=
  charge_own h (fun _ => .inl hown) hqueue hdrain hwakeup hcalls

/-- Behind its last look at the tail it is somebody else. -/
theorem charge_leave (h : ∀ q, InCharge s q) (hold : ¬ (s.drain d).WillCheck)
    (hqueue : t.queue = s.queue) (hdrain : ∀ q ≠ d, t.drain q = s.drain q)
    (hwakeup : t.wakeup = s.wakeup) (hcalls : t.calls = s.calls) : ∀ q, InCharge t q := by
  refine charge_own h ?_ (fun q _ => congrFun hqueue q) hdrain (fun q _ =>
    congrFun hwakeup q) hcalls
  refine (h d).mono (by rw [hqueue]; exact id) (fun hx =>
    absurd hx hold) (by rw [hwakeup]; exact id) ?_
  intro j hj
  simp only [State.Owes, State.At] at hj ⊢
  rw [hcalls]
  exact hj

theorem queue_of_tail_none (h : Lists s) (ht : s.tail d = none) : s.queue d = [] := by
  have hlast := (h.queue d).tail
  rw [ht, lastOr] at hlast
  cases hx : (s.queue d).getLast? with
  | none => exact List.getLast?_eq_none_iff.mp hx
  | some x =>
    rw [hx] at hlast
    cases hlast

/-- A step of the drain before its last look at the tail. -/
theorem Inv.inner (h : Inv c s) (hd : s.drain d = y) (hlists : Lists t)
    (ht : t.drain = update s.drain d x) (hy : y.WillCheck) (hx : x.WillCheck)
    (hdone : ∀ q, c.kind q = .nested d → s.drain q = .idle)
    (hchain : ∀ q tmp tail, x ≠ .invoking (.chain q) tmp tail := by simp)
    (hqueue : ∀ q ≠ d, t.queue q = s.queue q := by exact fun _ _ => rfl)
    (hplace : ∀ q, t.place (.chain q) = s.place (.chain q) := by exact fun _ => rfl)
    (hsame : ∀ q, SameWake s t q := by exact fun _ => ⟨rfl, rfl, rfl, rfl⟩)
    (hcalls : t.calls = s.calls := by rfl) : Inv c t := by
  subst hd
  have hother : ∀ q ≠ d, t.drain q = s.drain q := fun q hq => by rw [ht, update_of_ne hq]
  have hown : t.drain d = x := by rw [ht, update_self]
  refine ⟨hlists, wakes_go (d := d) h.wakes hsame hcalls hplace
    hother (WillCheck.running hy) ?_ ?_ ?_ ?_
    hdone, charge_check (d := d) h.charge ?_ hqueue hother (fun q _ => (hsame q).wakeup) hcalls⟩
  · rw [hown]
    exact WillCheck.running hx
  · rw [hown]
    rintro rfl
    exact hx
  · rw [hown]
    rintro rfl
    exact absurd hx id
  · rw [hown]
    exact hchain
  · rw [hown]
    exact hx

theorem Inv.alone (h : Inv c s) (hd : s.drain d = y)
    (hy : ∀ e tmp tail, y ≠ .invoking e tmp tail := by simp) (q : Fin n) :
    c.kind q = .nested d → s.drain q = .idle :=
  (h.wakes q).idle_of fun tmp tail => hd ▸ hy _ tmp tail

theorem SameDrain.unanchored (hheld : y.held = x.held) (hx : x.anchor = none)
    (hy : y.anchor = none) (hseen : y.seen = x.seen) : SameDrain x y :=
  ⟨hheld, by rw [hx, hy], hseen, by simp [hy]⟩

theorem empty_of_not_willCheck (hx : ¬ x.WillCheck) :
    x.held = [] ∧ x.anchor = none ∧ x.seen = none := by
  cases x <;> first | exact ⟨rfl, rfl, rfl⟩ | exact absurd trivial hx

theorem SameDrain.of_not_willCheck (hx : ¬ x.WillCheck) (hy : ¬ y.WillCheck) :
    SameDrain x y := by
  obtain ⟨hheld, hanchor, hseen⟩ := empty_of_not_willCheck hx
  obtain ⟨hheld', hanchor', hseen'⟩ := empty_of_not_willCheck hy
  exact .unanchored (by rw [hheld, hheld']) hanchor hanchor' (by rw [hseen, hseen'])

/-- A step of the drain outside its looks at the tail. -/
theorem Inv.outer (h : Inv c s) (hd : s.drain d = y) (hwakes : ∀ q, WakeOk c t q)
    (ht : t.drain = update s.drain d x) (hy : ¬ y.WillCheck) (hx : ¬ x.WillCheck)
    (hq : ∀ q, SameQueue s t q := by exact fun _ => ⟨rfl, rfl, rfl, rfl, rfl, rfl⟩)
    (hnext : t.next = s.next := by rfl) (hplace : t.place = s.place := by rfl)
    (hcalls : t.calls = s.calls := by rfl) (hwakeup : t.wakeup = s.wakeup := by rfl) : Inv c t := by
  subst hd
  refine ⟨?_, hwakes, ?_⟩
  · refine h.lists.pass ht (.of_not_willCheck hy hx) ?_ ?_ hq hnext hplace hcalls
    · rintro y rfl
      exact hx trivial
    · rintro rfl
      exact absurd trivial hx
  · refine charge_leave h.charge hy (funext fun q => (hq q).queue) (fun q hq => ?_) hwakeup hcalls
    rw [ht, update_of_ne hq]

theorem leave_not_willCheck (c : Setup n) (d : Fin n) : ¬ (c.leave d).WillCheck := by
  unfold Setup.leave
  split <;> exact id

/-- A drain that finds the queue empty does not look again. -/
theorem Inv.last {took : Bool} (h : Inv c s) (hd : s.drain d = .fetch took) (ht : s.tail d = none)
    (hx : ¬ x.WillCheck) (hwakes : ∀ q, WakeOk c { s with drain := update s.drain d x } q) :
    Inv c { s with drain := update s.drain d x } := by
  obtain ⟨hheld, hanchor, hseen⟩ := empty_of_not_willCheck hx
  refine ⟨?_, hwakes, ?_⟩
  · refine h.lists.pass rfl (by rw [hd]; exact .unanchored hheld rfl hanchor hseen) ?_ ?_
    · rintro y rfl
      exact hx trivial
    · rintro rfl
      exact absurd trivial hx
  · refine charge_own (d := d) h.charge ?_ (fun _ _ => rfl) (fun q hq => update_of_ne hq ..)
      (fun _ _ => rfl) rfl
    exact fun hne => absurd (queue_of_tail_none h.lists ht) hne

theorem Inv.drain (h : Inv c s) (hstep : DrainStep c s d t) : Inv c t := by
  cases hstep with
  | run hkind hd hsignal => exact h.outer hd (wakes_run h.wakes hkind hd hsignal) rfl id id
  | «begin» hd =>
    obtain ⟨hdraining, hwakeup, hwakes⟩ := wakes_begin h.wakes hd
    rw [State.begun, if_pos ⟨hdraining, hwakeup⟩] at hwakes ⊢
    refine ⟨?_, hwakes, ?_⟩
    · exact h.lists.pass rfl (by rw [hd]; exact .unanchored rfl rfl rfl rfl)
    · exact charge_check (d := d) h.charge (by simp [Drain.WillCheck]) (fun _ _ => rfl)
        (fun q hq => update_of_ne hq ..) (fun q hq => update_of_ne hq ..) rfl
  | fetchEmpty took hd ht =>
    have hrun : (s.drain d).Running := by simp [hd, Drain.Running]
    split_ifs
    · apply h.last hd ht id
      exact wakes_go (d := d) h.wakes (fun _ => ⟨rfl, rfl, rfl, rfl⟩) rfl (fun _ => rfl)
        (fun x hx => update_of_ne hx ..) hrun (by simp [Drain.Running])
          (by simp) (by simp) (by simp)
        (h.alone hd)
    · exact h.last hd ht (leave_not_willCheck c d) (wakes_leave h.wakes hrun (by simp [hd]))
  | batchEnd hd =>
    have hrun : (s.drain d).Running := by simp [hd, Drain.Running]
    exact h.outer hd (wakes_leave h.wakes hrun (by simp [hd])) rfl id (leave_not_willCheck c d)
  | fetchSome took hd ht =>
    refine h.inner hd ?_ rfl trivial trivial (h.alone hd)
    refine h.lists.pass rfl (by rw [hd]; exact .unanchored rfl rfl rfl rfl) (by simp) ?_
    intro _ hnil
    have hlast := (h.lists.queue d).tail
    rw [hd, hnil] at hlast
    exact ht hlast
  | gotHead x hd hx =>
    exact h.inner hd (h.lists.gotHead hd hx) rfl trivial trivial (h.alone hd) (by simp) fun q hq =>
      update_of_ne hq ..
  | clearHead x hd => exact h.inner hd (h.lists.clearHead hd) rfl trivial trivial (h.alone hd)
  | takeTail x tail hd ht =>
    exact h.inner hd (h.lists.takeTail hd ht) rfl trivial trivial (h.alone hd) (by simp) fun q hq =>
      update_of_ne hq ..
  | nextLast cur hd => exact h.inner hd (h.lists.nextLast hd) rfl trivial trivial (h.alone hd)
  | nextLink cur tail y hd hne hy =>
      exact h.inner hd (h.lists.nextLink hd hy) rfl trivial trivial (h.alone hd)
  | mark cur tail tmp hd => exact h.inner hd (h.lists.mark hd) rfl trivial trivial (h.alone hd)
  | invokeUser k tail tmp hd =>
    refine h.inner hd ?_ rfl trivial trivial (h.alone hd) (by simp) (fun _ _ => rfl) fun _ =>
      by simp
    refine h.lists.invoke hd (update_self ..) rfl rfl (fun q hq => ?_) rfl rfl rfl rfl rfl rfl rfl
    simp only [update_of_ne hq]
    exact ⟨.refl _, fun _ => id, id⟩
  | invokeChain x tail tmp hd =>
    have hplace : s.place (.chain x) = .queued d :=
      (h.lists.queued d _).mp (by simp [State.line, hd, Drain.held])
    obtain ⟨hxd, hxidle, hwakes⟩ := wakes_invokeChain h.wakes hd hplace
    have hown : update (update s.drain d (.invoking (.chain x) tmp tail)) x .begin d =
        .invoking (.chain x) tmp tail := by
      rw [update_of_ne hxd.symm, update_self]
    refine ⟨?_, hwakes, fun q => ?_⟩
    · refine h.lists.invoke hd hown rfl rfl (fun q hq => ?_) rfl rfl rfl rfl rfl rfl rfl
      by_cases hqx : q = x
      · subst hqx
        simp only [update_self, hxidle]
        exact ⟨.unanchored rfl rfl rfl rfl, by simp, by simp⟩
      · simp only [update_of_ne hqx, update_of_ne hq]
        exact ⟨.refl _, fun _ => id, id⟩
    · by_cases hqd : q = d
      · subst hqd
        exact fun _ => .inl (by simp [hown, Drain.WillCheck])
      refine (h.charge q).mono id ?_ id fun _ => id
      by_cases hqx : q = x
      · subst hqx
        simp [hxidle, Drain.WillCheck]
      · simp [hqx, hqd]
  | returned cur tail tmp hd hover =>
    have hdone : ∀ q, c.kind q = .nested d → s.drain q = .idle := by
      intro q hq
      by_contra hbusy
      obtain ⟨tmp', tail', hx⟩ := (h.wakes q).nested d hq hbusy
      rw [hd] at hx
      cases hx
      exact hbusy (hover q rfl)
    have hsame : SameDrain (s.drain d) (tmp.elim (.fetch true) fun y => .next y tail) := by
      rw [hd]
      cases tmp with
      | none => exact .unanchored rfl rfl rfl rfl
      | some => exact ⟨rfl, rfl, rfl, fun _ _ _ => id⟩
    refine h.inner hd ?_ rfl trivial ?_ hdone ?_
    · refine h.lists.pass rfl hsame ?_ ?_
      · cases tmp <;> simp
      · cases tmp <;> simp
    · cases tmp <;> exact trivial
    · cases tmp <;> simp
  | assertWait hd => exact h.outer hd (wakes_assertWait h.wakes hd) rfl id id
  | again hd hwakeup =>
    apply h.outer hd (wakes_again h.wakes hd hwakeup) rfl id
    split <;> exact id
  | finish hd hwakeup => exact h.outer hd (wakes_finish h.wakes hd hwakeup) rfl id id
  | clearWait hd => exact h.outer hd (wakes_clearWait h.wakes hd) rfl id id

theorem Inv.work (h : Inv c s) (hwork : Work c s t) : Inv c t := by
  cases hwork with
  | call i hstep => exact h.call hstep
  | drain d hstep => exact h.drain hstep

theorem daemons_inv (c : Setup n) : (daemons c).Always (Inv c) := by
  apply System.always_of_step
  · rintro s rfl
    exact inv_initial c
  intro s t h hstep
  cases hstep with
  | enqueue d k hfree => exact h.enqueue hfree
  | work hwork => exact h.work hwork

end XnuXzs.MpscQueue
