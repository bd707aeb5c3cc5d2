import XnuXzs.MpscQueue.WakeSteps

/-!
# Every element is invoked

A queue that is not empty has somebody in charge. Every step uses up a finite amount of work,
and when none is left, every queue has invoked all that was appended.
-/

namespace XnuXzs.MpscQueue

open Lib Function

variable {n : Nat} {c : Setup n} {s t : State n} {d : Fin n} {i : Nat} {new : Call n}

/-- The drain will look at the tail again. -/
def Drain.WillCheck : Drain n → Prop
  | .fetch _ | .waitHead | .gotHead _ | .clearedHead _ => True
  | .next _ _ | .mark _ _ _ | .invoke _ _ _ | .invoking _ _ _ => True
  | _ => False

/-- The enqueuer has appended to the empty queue, and has not yet updated the state. -/
def State.Owes (s : State n) (i : Nat) (d : Fin n) : Prop :=
  (∃ e, s.At i (.swapped d e none)) ∨ s.At i (.appended d true)

def InCharge (s : State n) (d : Fin n) : Prop :=
  s.queue d ≠ [] → (s.drain d).WillCheck ∨ s.wakeup d = true ∨ ∃ i, s.Owes i d

theorem InCharge.mono (h : InCharge s d) (hqueue : t.queue d ≠ [] → s.queue d ≠ [])
    (hdrain : (s.drain d).WillCheck → (t.drain d).WillCheck)
    (hwakeup : s.wakeup d = true → t.wakeup d = true) (howes : ∀ i, s.Owes i d → t.Owes i d) :
    InCharge t d := by
  intro hne
  obtain hcheck | hbit | ⟨i, hi⟩ := h (hqueue hne)
  · exact .inl (hdrain hcheck)
  · exact .inr (.inl (hwakeup hbit))
  · exact .inr (.inr ⟨i, howes i hi⟩)

theorem Moves.owes {j : Nat} (h : Moves s t i new) (hold : ¬ s.Owes i d) (hj : s.Owes j d) :
    t.Owes j d := by
  have hji : j ≠ i := by
    rintro rfl
    exact hold hj
  obtain ⟨e, hat⟩ | hat := hj
  · exact .inl ⟨e, (h j _).mpr (.inr ⟨hji, hat⟩)⟩
  · exact .inr ((h j _).mpr (.inr ⟨hji, hat⟩))

theorem not_owes {old : Call n} (hat : s.At i old)
    (hswapped : ∀ e, old ≠ .swapped d e none := by simp)
    (happended : old ≠ .appended d true := by simp) : ¬ s.Owes i d := by
  rintro (⟨e, h⟩ | h)
  · exact hswapped e (At.inj hat h)
  · exact happended (At.inj hat h)

/-- An enqueuer that owes the update of the state makes it, and the wakeup bit is set. -/
theorem InCharge.update {q : Fin n} (h : InCharge s q) (hc : s.At i (.appended d true))
    (hcalls : t.calls = s.calls.set i new) (hqueue : t.queue = s.queue)
    (hdrain : t.drain = s.drain) (hwakeup : t.wakeup = Function.update s.wakeup d true) :
    InCharge t q := by
  by_cases hq : q = d
  · subst hq
    exact fun _ => .inr (.inl (by simp [hwakeup]))
  refine h.mono (hqueue ▸ id) (hdrain ▸ id) (by simp [hwakeup, hq]) fun j =>
    (Moves.of_set hc hcalls).owes (not_owes hc (by simp) ?_)
  rintro ⟨⟩
  exact hq rfl

theorem WillCheck.running {x : Drain n} (h : x.WillCheck) : x.Running := by
  cases x <;> first | exact trivial | exact absurd h id

structure Inv (c : Setup n) (s : State n) : Prop where
  lists : Lists s
  wakes : ∀ d, WakeOk c s d
  charge : ∀ d, InCharge s d

theorem inv_initial (c : Setup n) : Inv c (initial n) :=
  ⟨lists_initial n, wakeOk_initial c, fun _ h => absurd rfl h⟩

theorem Inv.enqueue (h : Inv c s) {k : Nat} (hfree : s.place (.user k) = .free) :
    Inv c { s with
      calls := s.calls ++ [.start d (.user k)]
      place := update s.place (.user k) (.hand s.calls.length) } := by
  have hmoves := Moves.of_append (t := { s with
    calls := s.calls ++ [.start d (.user k)]
    place := update s.place (.user k) (.hand s.calls.length) }) rfl
  have hnone : ∀ x, ¬ s.At s.calls.length x := fun x hat => by
    simp [State.At] at hat
  refine ⟨?_, fun q => ?_, fun q => ?_⟩
  · exact h.lists.take hfree (fun x hat => absurd hat (hnone x))
      (fun _ => ⟨rfl, rfl, rfl, rfl, rfl, rfl⟩) rfl rfl rfl hmoves
  · refine (h.wakes q).frame ⟨rfl, rfl, rfl, rfl⟩ rfl (fun j => hmoves.iff (hnone _)) ?_ ?_ ?_
      fun _ _ _ => rfl
    · rintro j x (hin | hin)
      · exact .inl ((hmoves.iff (c := .start x (.chain q)) (hnone _)).mp hin)
      · exact .inr ((hmoves.iff (c := .cleared x (.chain q)) (hnone _)).mp hin)
    · simp
    · simpa using (h.wakes q).queued
  · refine (h.charge q).mono id id id fun j hj => hmoves.owes ?_ hj
    rintro (⟨e, hat⟩ | hat)
    · exact hnone _ hat
    · exact hnone _ hat

theorem Lists.inCharge_exchange (h : Lists s) {e : Elem n} (hcharge : ∀ q, InCharge s q)
    (hc : s.At i (.cleared d e)) (q : Fin n) : InCharge (s.exchanged i d e) q := by
  have howes : ∀ j x, s.Owes j x → State.Owes _ j x := fun j x =>
    (Moves.of_set (t := s.exchanged i d e) hc rfl).owes (not_owes hc)
  by_cases hq : q = d
  · subst hq
    cases htail : s.tail q with
    | none =>
      refine fun _ => .inr (.inr ⟨i, .inl ⟨e, ?_⟩⟩)
      exact ((Moves.of_set hc rfl) i _).mpr (.inl ⟨rfl, htail ▸ rfl⟩)
    | some x =>
      intro _
      cases hqueue : s.queue q with
      | nil =>
        -- the tail is then the head that the drain has loaded
        have hlast := (h.queue q).tail
        rw [htail, hqueue] at hlast
        refine .inl ?_
        cases hd : s.drain q with
        | gotHead | clearedHead => simp [Drain.WillCheck]
        | _ =>
          rw [hd] at hlast
          cases hlast
      | cons y ys =>
        obtain hcheck | hbit | ⟨j, hj⟩ := hcharge q (by simp [hqueue])
        · exact .inl hcheck
        · exact .inr (.inl hbit)
        · exact .inr (.inr ⟨j, howes j q hj⟩)
  · exact (hcharge q).mono (by simp [hq]) id id fun j => howes j q

theorem Inv.call (h : Inv c s) (hstep : CallStep c s i t) : Inv c t := by
  cases hstep with
  | clear d e hc =>
    refine ⟨h.lists.clear hc, ?_, fun q => ?_⟩
    · refine wakes_call h.wakes hc rfl (by simp) (by simp) ?_ (fun _ =>
        ⟨rfl, rfl, rfl, rfl⟩) rfl rfl
      rintro q x (heq | heq)
      · cases heq
      · cases heq
        exact .inl hc
    · exact (h.charge q).mono id id id fun j => (Moves.of_set hc rfl).owes (not_owes hc)
  | exchange d e hc =>
    have hhand : s.place e = .hand i := (h.lists.hand i e).mpr ⟨d, .inr hc⟩
    exact ⟨h.lists.exchange hc, wakes_exchange h.wakes hc hhand,
      h.lists.inCharge_exchange h.charge hc⟩
  | link d e prev hc =>
    have hfields : (s.setLink d prev (.to e)).drain = s.drain ∧
        (s.setLink d prev (.to e)).queue = s.queue ∧ (s.setLink d prev (.to e)).place = s.place ∧
        (s.setLink d prev (.to e)).wakeup = s.wakeup ∧
        ∀ q, SameWake s { s.setLink d prev (.to e) with
          calls := s.calls.set i (.appended d prev.isNone) } q := by
      cases prev <;> exact ⟨rfl, rfl, rfl, rfl, fun _ => ⟨rfl, rfl, rfl, rfl⟩⟩
    obtain ⟨hdrain, hqueue, hplace, hwakeup, hsame⟩ := hfields
    have hmoves := Moves.of_set (t := { s.setLink d prev (.to e) with
      calls := s.calls.set i (.appended d prev.isNone) }) hc rfl
    refine ⟨h.lists.link hc, wakes_call h.wakes hc rfl (by simp)
      (by simp) (by simp) hsame hdrain hplace, fun q => ?_⟩
    refine (h.charge q).mono (by simp [hqueue]) (by simp [hdrain])
      (by simp [hwakeup]) fun j hj => ?_
    by_cases hji : j = i
    · subst hji
      obtain ⟨x, hat⟩ | hat := hj
      · cases At.inj hc hat
        exact .inr ((hmoves j _).mpr (.inl ⟨rfl, rfl⟩))
      · cases At.inj hc hat
    · obtain ⟨x, hat⟩ | hat := hj
      · exact .inl ⟨x, (hmoves j _).mpr (.inr ⟨hji, hat⟩)⟩
      · exact .inr ((hmoves j _).mpr (.inr ⟨hji, hat⟩))
  | leave d hc =>
    refine ⟨?_, ?_, fun q => ?_⟩
    · exact h.lists.quiet hc rfl trivial trivial
    · exact wakes_call h.wakes hc rfl (by simp) (by simp) (by simp) (fun _ =>
        ⟨rfl, rfl, rfl, rfl⟩) rfl rfl
    · exact (h.charge q).mono id id id fun j =>
        (Moves.of_set hc rfl).owes (not_owes hc)
  | updateOnly d hc hbits =>
    refine ⟨?_, wakes_updateOnly h.wakes hc hbits, fun q => ?_⟩
    · exact h.lists.quiet hc rfl trivial trivial
    · exact (h.charge q).update hc rfl rfl rfl rfl
  | updateWake d hc hdraining hwakeup =>
    refine ⟨?_, wakes_updateWake h.wakes hc hdraining hwakeup, fun q => ?_⟩
    · exact h.lists.quiet hc rfl trivial trivial
    · exact (h.charge q).update hc rfl rfl rfl rfl
  | signal d hc hkind =>
    refine ⟨?_, wakes_signal h.wakes hc hkind, fun q => ?_⟩
    · exact h.lists.quiet hc rfl trivial trivial
    · exact (h.charge q).mono id id id fun j =>
        (Moves.of_set hc rfl).owes (not_owes hc)
  | enqueueChain d x hc hkind =>
    have hdue : s.wake d = .due i := ((h.wakes d).due i).mpr hc
    have hfree : s.place (.chain d) = .free := by
      have := (h.wakes d).chained
      simpa [hdue] using this
    refine ⟨?_, wakes_enqueueChain h.wakes hc hkind, fun q => ?_⟩
    · refine h.lists.take hfree ?_ (fun _ => ⟨rfl, rfl, rfl, rfl, rfl, rfl⟩) rfl rfl rfl
        (Moves.of_set hc rfl)
      intro y hy
      cases At.inj hc hy
      trivial
    · exact (h.charge q).mono id id id fun j =>
        (Moves.of_set hc rfl).owes (not_owes hc)

end XnuXzs.MpscQueue
