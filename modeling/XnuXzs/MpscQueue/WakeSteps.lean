import XnuXzs.MpscQueue.Wakes

/-!
# Every step keeps the wakeups
-/

namespace XnuXzs.MpscQueue

open Lib Function

variable {n : Nat} {c : Setup n} {s t : State n} {d x : Fin n} {i : Nat}

theorem WakeOk.free (h : WakeOk c s d) (hne : s.wake d ≠ .chained) :
    s.place (.chain d) = .free := by
  by_contra hplace
  exact hne (h.chained.mpr hplace)

theorem WakeOk.not_due {w : Wake} (h : WakeOk c s d) (hne : ∀ i, s.wake d ≠ .due i)
    (hw : ∀ i, w ≠ .due i) (i : Nat) :
    w = .due i ↔ s.At i (.waking d) :=
  iff_of_false (hw i) (mt (h.due i).mpr (hne i))

theorem WakeOk.bits (h : WakeOk c s d) (hne : s.wake d ≠ .none) :
    s.draining d = false ∧ s.wakeup d = true := by
  simpa using mt h.none.mpr hne

theorem wakes_call (hw : ∀ q, WakeOk c s q) {old new : Call n} (hc : s.At i old)
    (hcalls : t.calls = s.calls.set i new) (hold : ∀ q, old ≠ .waking q)
    (hnew : ∀ q, new ≠ .waking q)
    (hhand : ∀ q e, new = .start q e ∨ new = .cleared q e → s.InHand i q e)
    (hsame : ∀ q, SameWake s t q) (hdrain : t.drain = s.drain) (hplace : t.place = s.place)
    (q : Fin n) :
    WakeOk c t q := by
  have hmoves : Moves s t i new := .of_set hc hcalls
  refine (hw q).frame (hsame q) (congrFun hdrain q) ?_ ?_ (by rw [hplace]) ?_ fun x _ _ =>
    congrFun hdrain x
  · intro j
    exact hmoves.iff (fun hat => hold q (At.inj hc hat)) (hnew q).symm
  · intro j x hin
    exact hmoves.inHand hhand hin
  · rw [hplace]
    exact (hw q).queued

theorem wakes_exchange (hw : ∀ q, WakeOk c s q) {e : Elem n} (hc : s.At i (.cleared d e))
    (hhand : s.place e = .hand i) (q : Fin n) : WakeOk c (s.exchanged i d e) q := by
  have hmoves : Moves s (s.exchanged i d e) i (.swapped d e (s.tail d)) := .of_set hc rfl
  refine (hw q).frame ⟨rfl, rfl, rfl, rfl⟩ rfl ?_ ?_ ?_ ?_ fun _ _ _ => rfl
  · intro j
    exact hmoves.iff (fun hat => nomatch At.inj hc hat) nofun
  · intro j x hin
    exact hmoves.inHand nofun hin
  · by_cases he : .chain q = e
    · subst he
      simp [hhand]
    · simp [he]
  intro x hx
  by_cases he : .chain q = e
  · subst he
    simp only [update_self, Place.queued.injEq] at hx
    subst hx
    exact (hw q).hand i d (.inr hc)
  · simp only [update_of_ne he] at hx
    exact (hw q).queued x hx

theorem wakes_updateOnly (hw : ∀ q, WakeOk c s q) (hc : s.At i (.appended d true))
    (hbits : s.draining d = true ∨ s.wakeup d = true) (q : Fin n) :
    WakeOk c { s with
      wakeup := update s.wakeup d true
      calls := s.calls.set i .done } q := by
  have hmoves {t : State n} : t.calls = s.calls.set i .done → Moves s t i .done := Moves.of_set hc
  have hat {t : State n} (ht : t.calls = s.calls.set i .done) (j : Nat) : t.At j (.waking q) ↔
      s.At j (.waking q) :=
    (hmoves ht).iff (fun hat => nomatch At.inj hc hat) nofun
  by_cases hq : q = d
  · subst hq
    have h := hw q
    refine { h with
      none := ?_
      due := fun j => (h.due j).trans (hat rfl j).symm
      hand := fun j x hin => h.hand j x ((hmoves rfl).inHand nofun hin) }
    apply h.none.trans
    obtain hbits | hbits := hbits <;> simp [hbits]
  · exact (hw q).frame ⟨rfl, update_of_ne hq .., rfl, rfl⟩ rfl (hat rfl)
      (fun j x hin => (hmoves rfl).inHand nofun hin) Iff.rfl (hw q).queued fun _ _ _ => rfl

/-- The enqueuer that sets the bit first owes a wakeup. -/
theorem wakes_updateWake (hw : ∀ q, WakeOk c s q) (hc : s.At i (.appended d true))
    (hdraining : s.draining d = false) (hwakeup : s.wakeup d = false) (q : Fin n) :
    WakeOk c { s with
      wakeup := update s.wakeup d true
      calls := s.calls.set i (.waking d)
      wake := update s.wake d (.due i) } q := by
  have hmoves {t : State n} : t.calls = s.calls.set i (.waking d) → Moves s t i (.waking d) :=
    Moves.of_set hc
  by_cases hq : q = d
  · subst hq
    have h := hw q
    have hnone := h.none.mpr (.inr hwakeup)
    refine { h with
      none := by simp [hdraining]
      due := fun j => ?_
      chained := by simp [h.free (by simp [hnone])]
      begun := by simp [← h.begun, hnone]
      signalled := by simp [← h.signalled, hnone]
      hand := fun j x hin => h.hand j x ((hmoves rfl).inHand nofun hin) }
    rw [hmoves rfl]
    have hout := mt (h.due j).mpr (by simp [hnone])
    simp [hout, eq_comm]
  · refine (hw q).frame ⟨rfl, update_of_ne hq .., rfl, update_of_ne hq ..⟩ rfl ?_
      (fun j x hin => (hmoves rfl).inHand nofun hin) Iff.rfl (hw q).queued fun _ _ _ => rfl
    intro j
    refine (hmoves rfl).iff (fun hat => nomatch At.inj hc hat) ?_
    rintro ⟨⟩
    exact hq rfl

theorem wakes_signal (hw : ∀ q, WakeOk c s q) (hc : s.At i (.waking d))
    (hkind : ∀ x, c.kind d ≠ .nested x) (q : Fin n) :
    WakeOk c { s with
      signal := update s.signal d true
      calls := s.calls.set i .done
      wake := update s.wake d .signalled } q := by
  have hmoves {t : State n} : t.calls = s.calls.set i .done → Moves s t i .done := Moves.of_set hc
  by_cases hq : q = d
  · subst hq
    have h := hw q
    have hdue : s.wake q = .due i := (h.due i).mpr hc
    have hidle := h.idle (by simp [hdue]) (by simp [hdue])
    refine { h with
      none := by simp [h.bits (by simp [hdue])]
      due := fun j => ?_
      chained := by simp [h.free (by simp [hdue])]
      begun := by simp [hidle]
      signalled := by simp [hidle]
      hand := fun j x hin => h.hand j x ((hmoves rfl).inHand nofun hin)
      signal := fun _ => ?_
      finish := by simp [hidle] }
    · rw [(hmoves rfl).left (c := .waking q) nofun, ← h.due, hdue]
      simp only [update_self, reduceCtorEq, false_iff, Wake.due.injEq, not_and]
      exact fun hji hij => hji hij.symm
    cases hk : c.kind q with
    | thread => exact .inl rfl
    | threadCall => exact .inr ⟨rfl, hidle⟩
    | nested x => exact absurd hk (hkind x)
  · refine (hw q).frame ⟨rfl, rfl, update_of_ne hq .., update_of_ne hq ..⟩ rfl ?_
      (fun j x hin => (hmoves rfl).inHand nofun hin) Iff.rfl (hw q).queued fun _ _ _ => rfl
    intro j
    refine (hmoves rfl).iff (fun hat => ?_) nofun
    cases At.inj hc hat
    exact hq rfl

/-- The wakeup of a nested queue becomes an enqueue into its target. -/
theorem wakes_enqueueChain (hw : ∀ q, WakeOk c s q) (hc : s.At i (.waking d))
    (hkind : c.kind d = .nested x) (q : Fin n) :
    WakeOk c { s with
      calls := s.calls.set i (.start x (.chain d))
      wake := update s.wake d .chained
      place := update s.place (.chain d) (.hand i) } q := by
  have hmoves {t : State n} : t.calls = s.calls.set i (.start x (.chain d)) →
    Moves s t i (.start x (.chain d)) := Moves.of_set hc
  by_cases hq : q = d
  · subst hq
    have h := hw q
    have hdue : s.wake q = .due i := (h.due i).mpr hc
    refine { h with
      none := by simp [h.bits (by simp [hdue])]
      due := fun j => ?_
      chained := by simp
      begun := by simp [← h.begun, hdue]
      signalled := by simp [← h.signalled, hdue]
      hand := fun j y hin => ?_
      queued := by simp }
    · rw [(hmoves rfl).left (c := .waking q) nofun, ← h.due, hdue]
      simp only [update_self, reduceCtorEq, false_iff, Wake.due.injEq, not_and]
      exact fun hji hij => hji hij.symm
    obtain hin | hin := hin
    · obtain ⟨-, heq⟩ | ⟨-, hat⟩ := (hmoves rfl j _).mp hin
      · cases heq
        exact hkind
      · exact h.hand j y (.inl hat)
    · exact h.hand j y (.inr (((hmoves rfl).left (c := .cleared y (.chain q)) nofun).mp hin).2)
  · have hne : Elem.chain q ≠ .chain d := by
      rintro ⟨⟩
      exact hq rfl
    refine (hw q).frame ⟨rfl, rfl, rfl, update_of_ne hq ..⟩ rfl ?_ ?_ ?_ ?_ fun _ _ _ => rfl
    · intro j
      refine (hmoves rfl).iff (fun hat => ?_) nofun
      cases At.inj hc hat
      exact hq rfl
    · rintro j y (hin | hin)
      · obtain ⟨-, heq⟩ | ⟨-, hat⟩ := (hmoves rfl j _).mp hin
        · cases heq
          exact absurd rfl hne
        · exact .inl hat
      · exact .inr (((hmoves rfl).left (c := .cleared y (.chain q)) nofun).mp hin).2
    · simp [hne]
    · simp only [update_of_ne hne]
      exact (hw q).queued

/-- The drain of `d` takes a step that changes no other queue. -/
theorem wakes_own (hw : ∀ q, WakeOk c s q) (hown : WakeOk c t d)
    (hsame : ∀ q ≠ d, SameWake s t q) (hcalls : t.calls = s.calls)
    (hplace : ∀ q, t.place (.chain q) = s.place (.chain q))
    (hdrain : ∀ x ≠ d, t.drain x = s.drain x)
    (hdone : ∀ q, c.kind q = .nested d → s.drain q = .idle) (q : Fin n) : WakeOk c t q := by
  by_cases hq : q = d
  · subst hq
    exact hown
  · exact (hw q).other hq (hsame q hq) hcalls (hplace q) hdrain (hdone q)

theorem wakes_alone {x : Drain n} (hw : ∀ q, WakeOk c s q)
    (hd : ∀ e tmp tail, s.drain d ≠ .invoking e tmp tail) (hown : WakeOk c t d)
    (hsame : ∀ q ≠ d, SameWake s t q) (hdrain : t.drain = update s.drain d x)
    (hcalls : t.calls = s.calls := by rfl) (hplace : t.place = s.place := by rfl) (q : Fin n) :
    WakeOk c t q := by
  refine wakes_own hw hown hsame hcalls (fun q => by rw [hplace]) (fun x hx => ?_) (fun q =>
    (hw q).idle_of (hd _)) q
  rw [hdrain, update_of_ne hx]

theorem not_target_self (hx : c.kind d = .nested x) : x ≠ d := (c.target_lt d x hx).ne

theorem WakeOk.invoked {y : Drain n} (h : WakeOk c s d) (hd : s.drain d ≠ .idle) (x : Fin n)
    (hx : c.kind d = .nested x) (_ : update s.drain d y d ≠ .idle) :
    ∃ tmp tail, update s.drain d y x = .invoking (.chain d) tmp tail := by
  rw [update_of_ne (not_target_self hx)]
  exact h.nested x hx hd

theorem wakes_run (hw : ∀ q, WakeOk c s q) (hkind : ∀ x, c.kind d ≠ .nested x)
    (hd : s.drain d = .idle) (hsignal : s.signal d = true) :
    ∀ q, WakeOk c { s with
      signal := update s.signal d (decide (c.kind d = .thread))
      drain := update s.drain d .begin
      wake := update s.wake d .begun } q := by
  have h := hw d
  have hwake : s.wake d = .signalled := h.signalled.mpr ⟨hd, hsignal⟩
  refine wakes_alone hw (by simp [hd]) ?_ (fun q hq =>
    ⟨rfl, rfl, update_of_ne hq .., update_of_ne hq ..⟩) rfl
  have hbits := h.bits (by simp [hwake])
  exact { h with
    draining := by simp [hbits, Drain.Running]
    none := by simp [hbits]
    due := h.not_due (by simp [hwake]) (by simp)
    chained := by simp [h.free (by simp [hwake])]
    begun := by simp
    signalled := by simp
    sound := by simp
    signal := by simp
    finish := by simp
    thread := by simp
    invoking := by simp
    nested := fun x hx => absurd hx (hkind x) }

/-- The bits are as the assertion demands, and the wakeup is consumed. -/
theorem wakes_begin (hw : ∀ q, WakeOk c s q) (hd : s.drain d = .begin) :
    s.draining d = false ∧ s.wakeup d = true ∧ ∀ q, WakeOk c (s.begun d) q := by
  have h := hw d
  have hwake := h.begun.mpr (.inl hd)
  obtain ⟨hdraining, hwakeup⟩ := h.bits (by simp [hwake])
  refine ⟨hdraining, hwakeup, ?_⟩
  rw [State.begun, if_pos ⟨hdraining, hwakeup⟩]
  refine wakes_alone hw (by simp [hd]) ?_ (fun q hq =>
    ⟨update_of_ne hq .., update_of_ne hq .., rfl, update_of_ne hq ..⟩) rfl
  refine { h with
    draining := by simp [hdraining, Drain.Running]
    none := by simp [hdraining]
    due := h.not_due (by simp [hwake]) (by simp)
    chained := by simp [h.free (by simp [hwake])]
    begun := by simp
    signalled := by simp
    sound := by simp
    signal := fun hsignal => .inl ?_
    finish := by simp
    thread := by simp
    invoking := by simp
    nested := h.invoked (by simp [hd]) }
  obtain hthread | ⟨-, hidle⟩ := h.signal hsignal
  · exact hthread
  · simp [hd] at hidle

theorem wakes_go (hw : ∀ q, WakeOk c s q) (hsame : ∀ q, SameWake s t q)
    (hcalls : t.calls = s.calls) (hplace : ∀ q, t.place (.chain q) = s.place (.chain q))
    (hdrain : ∀ x ≠ d, t.drain x = s.drain x) (hrun : (s.drain d).Running)
    (hrun' : (t.drain d).Running) (hfinish : t.drain d ≠ .finish)
    (hassert : t.drain d = .assertWait → c.kind d = .thread)
    (hinvoking : ∀ q tmp tail, t.drain d ≠ .invoking (.chain q) tmp tail)
    (hdone : ∀ q, c.kind q = .nested d → s.drain q = .idle) (q : Fin n) : WakeOk c t q := by
  refine wakes_own (d := d) hw ?_ (fun q _ => hsame q) hcalls hplace hdrain hdone q
  exact (hw d).go (hsame d) hcalls (hplace d) hrun hrun' hfinish hassert
    (fun x tmp tail hx => absurd hx (hinvoking x tmp tail))
    fun x hx => hdrain x (not_target_self hx)

theorem wakes_leave (hw : ∀ q, WakeOk c s q) (hrun : (s.drain d).Running)
    (hd : ∀ e tmp tail, s.drain d ≠ .invoking e tmp tail) :
    ∀ q, WakeOk c { s with drain := update s.drain d (c.leave d) } q := by
  have h := hw d
  obtain ⟨hbegin, hclear, hidle, -⟩ := hrun.ne
  unfold Setup.leave
  split_ifs with hkind
  · exact wakes_go (d := d) hw (fun _ => ⟨rfl, rfl, rfl, rfl⟩) rfl (fun _ => rfl)
      (fun x hx => update_of_ne hx ..) hrun (by simp [Drain.Running]) (by simp) (fun _ => hkind)
      (by simp) fun q => (hw q).idle_of (hd _)
  refine wakes_alone hw hd ?_ (fun q hq => ⟨rfl, rfl, rfl, rfl⟩) rfl
  have hsignal : ¬ s.signal d = true := fun hsignal => by
    obtain hthread | ⟨-, hx⟩ := h.signal hsignal
    · exact hkind hthread
    · exact hidle hx
  refine { h with
    draining := ?_
    begun := by simpa [hbegin, hclear] using h.begun
    signalled := by simpa [hidle] using h.signalled
    sound := by simp
    signal := fun hx => absurd hx hsignal
    finish := by simpa using hsignal
    thread := by simp
    invoking := by simp
    nested := h.invoked hidle }
  simpa [Drain.Running] using h.draining.mpr hrun

theorem wakes_assertWait (hw : ∀ q, WakeOk c s q) (hd : s.drain d = .assertWait) :
    ∀ q, WakeOk c { s with
      signal := update s.signal d false
      drain := update s.drain d .finish } q := by
  have h := hw d
  refine wakes_alone hw (by simp [hd]) ?_ (fun q hq => ⟨rfl, rfl, update_of_ne hq .., rfl⟩) rfl
  refine { h with
    draining := ?_
    begun := by simpa [hd] using h.begun
    signalled := by simpa [hd] using h.signalled
    sound := by simp
    signal := by simp
    finish := by simp
    thread := by simp
    invoking := by simp
    nested := h.invoked (by simp [hd]) }
  simpa [hd, Drain.Running] using h.draining

/-- A wakeup that came during the drain is left to the drain itself. -/
theorem wakes_again (hw : ∀ q, WakeOk c s q) (hd : s.drain d = .finish)
    (hwakeup : s.wakeup d = true) :
    ∀ q, WakeOk c { s with
      draining := update s.draining d false
      drain := update s.drain d (if c.kind d = .thread then .clearWait else .begin)
      wake := update s.wake d .begun } q := by
  have h := hw d
  have hnone := h.none.mpr (.inl (h.draining.mpr (by simp [hd, Drain.Running])))
  have hsignal := h.finish hd
  refine wakes_alone hw (by simp [hd]) ?_ (fun q hq =>
    ⟨update_of_ne hq .., rfl, rfl, update_of_ne hq ..⟩) rfl
  generalize hphase : (if c.kind d = .thread then Drain.clearWait else Drain.begin) = phase
  have hcases : phase = .begin ∨ phase = .clearWait ∧ c.kind d = .thread := by
    split at hphase
    · exact .inr ⟨hphase.symm, ‹_›⟩
    · exact .inl hphase.symm
  refine { h with
    draining := ?_
    none := by simp [hwakeup]
    due := h.not_due (by simp [hnone]) (by simp)
    chained := by simp [h.free (by simp [hnone])]
    begun := ?_
    signalled := by simp [hsignal]
    sound := ?_
    signal := by simp [hsignal]
    finish := fun _ => hsignal
    thread := ?_
    invoking := ?_
    nested := h.invoked (by simp [hd]) }
  · obtain rfl | ⟨rfl, -⟩ := hcases <;> simp [Drain.Running]
  · obtain rfl | ⟨rfl, -⟩ := hcases <;> simp
  · obtain rfl | ⟨rfl, -⟩ := hcases <;> simp
  · obtain rfl | ⟨rfl, hthread⟩ := hcases
    · simp
    · exact fun _ => hthread
  · obtain rfl | ⟨rfl, -⟩ := hcases <;> simp

theorem wakes_finish (hw : ∀ q, WakeOk c s q) (hd : s.drain d = .finish)
    (hwakeup : s.wakeup d = false) :
    ∀ q, WakeOk c { s with
      draining := update s.draining d false
      drain := update s.drain d .idle } q := by
  have h := hw d
  have hnone := h.none.mpr (.inr hwakeup)
  have hsignal := h.finish hd
  refine wakes_alone hw (by simp [hd]) ?_ (fun q hq => ⟨update_of_ne hq .., rfl, rfl, rfl⟩) rfl
  exact { h with
    draining := by simp [Drain.Running]
    none := by simp [hnone, hwakeup]
    begun := by simp [hnone]
    signalled := by simp [hnone, hsignal]
    sound := by simp
    signal := by simp [hsignal]
    finish := by simp
    thread := by simp
    invoking := by simp
    nested := by simp }

theorem wakes_clearWait (hw : ∀ q, WakeOk c s q) (hd : s.drain d = .clearWait) :
    ∀ q, WakeOk c { s with
      signal := update s.signal d true
      drain := update s.drain d .begin } q := by
  have h := hw d
  have hthread := h.thread (.inr hd)
  have hwake := h.begun.mpr (.inr hd)
  refine wakes_alone hw (by simp [hd]) ?_ (fun q hq => ⟨rfl, rfl, update_of_ne hq .., rfl⟩) rfl
  refine { h with
    draining := ?_
    begun := by simp [hwake]
    signalled := by simp [hwake]
    sound := by simp
    signal := fun _ => .inl hthread
    finish := by simp
    thread := by simp
    invoking := by simp
    nested := by simp [hthread] }
  simpa [hd, Drain.Running] using h.draining

theorem wakes_invokeChain (hw : ∀ q, WakeOk c s q) {tail : Elem n} {tmp : Option (Elem n)}
    (hd : s.drain d = .invoke (.chain x) tmp tail) (hx : s.place (.chain x) = .queued d) :
    x ≠ d ∧ s.drain x = .idle ∧ ∀ q, WakeOk c (s.invokedChain d x tail tmp) q := by
  have hkind : c.kind x = .nested d := (hw x).queued d hx
  have hne := not_target_self hkind
  have hwake : s.wake x = .chained := (hw x).chained.mpr (by simp [hx])
  have hidle : s.drain x = .idle := (hw x).idle (by simp [hwake]) (by simp [hwake])
  refine ⟨hne.symm, hidle, fun q => ?_⟩
  by_cases hqx : q = x
  · subst hqx
    have h := hw q
    have hbits := h.bits (by simp [hwake])
    refine { h with
      draining := by simp [hbits, Drain.Running]
      none := by simp [hbits]
      due := h.not_due (by simp [hwake]) (by simp)
      chained := by simp
      begun := by simp
      signalled := by simp
      sound := by simp
      queued := by simp
      signal := fun hsignal => ?_
      finish := by simp
      thread := by simp
      invoking := by simp
      nested := fun y hy _ => ?_ }
    · obtain hthread | ⟨hcall, -⟩ := h.signal hsignal
      · exact .inl hthread
      · simp [hkind] at hcall
    · rw [hkind] at hy
      cases hy
      exact ⟨tmp, tail, by simp [hne]⟩
  · have hchain : Elem.chain q ≠ .chain x := by
      rintro ⟨⟩
      exact hqx rfl
    by_cases hqd : q = d
    · subst hqd
      refine (hw q).go ⟨rfl, rfl, rfl, update_of_ne hqx ..⟩ rfl (update_of_ne hchain ..)
        (by simp [hd, Drain.Running]) (by simp [hne, Drain.Running])
          (by simp [hne]) (by simp [hne]) ?_ ?_
      · simp only [update_of_ne hne, update_self, Drain.invoking.injEq, Elem.chain.injEq]
        rintro y _ _ ⟨rfl, -, -⟩
        exact hkind
      intro y hy
      have hyx : y ≠ x := by
        rintro rfl
        exact absurd ((c.target_lt q y hy).trans (c.target_lt y q hkind)) (lt_irrefl _)
      simp [update_of_ne hyx, update_of_ne (not_target_self hy)]
    · refine (hw q).frame ⟨rfl, rfl, rfl, update_of_ne hqx ..⟩ ?_ (fun _ =>
        Iff.rfl) (fun _ _ => id) ?_ ?_ ?_
      · simp [update_of_ne hqx, update_of_ne hqd]
      · simp [update_of_ne hchain]
      · simp only [update_of_ne hchain]
        exact (hw q).queued
      -- neither the invoked queue nor its target was invoking another one
      intro y hy hbusy
      obtain ⟨tmp', tail', hinvoking⟩ := (hw q).nested y hy hbusy
      have hyx : y ≠ x := by
        rintro rfl
        simp [hidle] at hinvoking
      have hyd : y ≠ d := by
        rintro rfl
        simp [hd] at hinvoking
      simp [update_of_ne hyx, update_of_ne hyd]

end XnuXzs.MpscQueue
