import XnuXzs.MpscQueue.ListSteps

/-!
# Steps of a drain

A drain learns the head of the queue, takes the tail, and then goes through the batch. Up
to the invocation of an element its steps leave the line as it is.
-/

namespace XnuXzs.MpscQueue

open Lib Function List Drain State

variable {n : Nat} {s t : State n} {d : Fin n} {x tail cur : Elem n} {tmp : Option (Elem n)}

section

variable (h : Lists s)
include h

theorem Lists.keep (hcalls : t.calls = s.calls) (hplace : t.place = s.place)
    (hothers : ∀ q ≠ d, SameQueue s t q ∧ t.drain q = s.drain q)
    (hnext : ∀ e, e ∉ s.line d → t.next e = s.next e) (hline : t.line d = s.line d)
    (hopen : ∀ p e, s.Linking e → (p, e) ∈ s.open d → (p, e) ∈ t.open d)
    (happended : t.appended d = s.appended d) (hinvoked : t.invoked d = s.invoked d)
    (hstands : (∀ e, t.Linking e ↔ s.Linking e) → Stands t d) : Lists t := by
  have hat : ∀ j c, t.At j c ↔ s.At j c := fun j c => by rw [State.At, State.At, hcalls]
  have hlinking : ∀ e, t.Linking e ↔ s.Linking e := fun e =>
    exists_congr fun j => exists_congr fun q => exists_congr fun p => hat j _
  have hsame : ∀ q ≠ d, SameDrain (s.drain q) (t.drain q) := fun q hq =>
    (hothers q hq).2 ▸ .refl _
  have hlines : ∀ q, t.line q = s.line q := by
    intro q
    by_cases hq : q = d
    · rw [hq, hline]
    · exact (hothers q hq).1.line (hsame q hq)
  refine ⟨fun q => ?_, fun q e => ?_, fun j e => ?_, fun j q e hc => ?_, fun j q e p hc => ?_, ?_⟩
  · by_cases hq : q = d
    · subst hq
      refine ⟨hstands hlinking, ?_, ?_⟩
      · rw [happended, hinvoked, hline, (h.queue q).log]
      · rw [hline]
        exact (h.queue q).nodup
    · obtain ⟨hfields, hdrain⟩ := hothers q hq
      refine (h.queue q).frame hfields (hsame q hq) ?_ ?_ (fun e he => hnext e ?_) fun e _ =>
        hlinking e
      · rw [hdrain, hfields.headNext]
        exact (h.queue q).headNull
      · rw [hdrain]
        exact (h.queue q).wait
      intro he'
      rw [h.queued] at he he'
      rw [he] at he'
      cases he'
      exact hq rfl
  · rw [hlines, hplace, h.queued]
  · rw [hplace, h.hand]
    exact exists_congr fun q => or_congr (hat j _).symm (hat j _).symm
  · have hc' := (hat j _).mp hc
    rw [hnext e (h.not_mem ((h.hand j e).mpr ⟨q, .inr hc'⟩) d)]
    exact h.cleared j q e hc'
  · have hc' := (hat j _).mp hc
    by_cases hq : q = d
    · subst hq
      exact hopen p e ⟨j, q, p, hc'⟩ (h.linking j q e p hc')
    · rw [(hothers q hq).1.open (hsame q hq)]
      exact h.linking j q e p hc'
  · intro j k q q' e p p' hj hk
    exact h.unique j k q q' e p p' ((hat j _).mp hj) ((hat k _).mp hk)

theorem Lists.gotHead (hd : s.drain d = .waitHead) (hx : s.headNext d = .to x) :
    Lists { s with
      drain := update s.drain d (.gotHead x)
      queue := update s.queue d (s.queue d).tail } := by
  have ok := h.queue d
  have hchain := ok.queueChain
  rw [hd] at hchain
  obtain ⟨ys, hys, hx', hchain⟩ := hchain.follow hx
  have hrest := ok.batchEnd (by rw [hd]; rfl)
  refine h.keep (d := d) rfl rfl (fun q hq => ⟨⟨rfl, rfl, update_of_ne hq .., rfl, rfl, rfl⟩,
    update_of_ne hq ..⟩) (fun _ _ => rfl) ?_ ?_ rfl rfl ?_
  · simp [line, hd, hrest, hys, held, seen]
  · intro p e he hpair
    simp only [State.open, hd, hys, seen, anchor, pairs, Option.elim, append_nil,
      mem_cons, Prod.mk.injEq] at hpair
    obtain ⟨-, rfl⟩ | hpair := hpair
    · exact absurd he hx'
    · simp [State.open, hys, hpair, seen]
  · intro hlinking
    refine ⟨?_, ?_, ?_, ?_, ?_, ?_, ?_, ?_⟩
    · have htail := ok.tail
      rw [hd, hys] at htail
      simp only [update_self, hys, tail_cons]
      exact htail.trans (lastOr_cons none x ys)
    · simp only [update_self, hys, tail_cons]
      exact hchain.congr rfl (fun _ _ => rfl) fun y _ => hlinking y
    · simp
    · simp [anchor]
    · simp [hrest]
    · simp [anchor]
    · simp [hlinking, hx', held, seen]
    · simp

theorem Lists.clearHead (hd : s.drain d = .gotHead x) :
    Lists { s with
      headNext := update s.headNext d .null
      drain := update s.drain d (.clearedHead x) } := by
  have ok := h.queue d
  have hrest := ok.batchEnd (by rw [hd]; rfl)
  refine h.keep (d := d) rfl rfl (fun q hq => ⟨⟨update_of_ne hq .., rfl, rfl, rfl, rfl, rfl⟩,
    update_of_ne hq ..⟩) (fun _ _ => rfl) ?_ ?_ rfl rfl ?_
  · simp [line, hd, held, seen]
  · intro p e _ hpair
    simpa [State.open, hd, seen, anchor] using hpair
  intro hlinking
  refine ⟨?_, ?_, ?_, ?_, ?_, ?_, ?_, ?_⟩
  · have htail := ok.tail
    rw [hd] at htail
    simpa [seen] using htail
  · have hchain := ok.queueChain
    rw [hd] at hchain
    simp only [update_self]
    exact hchain.congr rfl (fun _ _ => rfl) fun y _ => hlinking y
  · simp
  · simp [anchor]
  · simp [hrest]
  · simp [anchor]
  · have hknown := ok.known x (.inr (by simp [hd, seen]))
    simp [hlinking, hknown, held, seen]
  · simp

theorem Lists.takeTail (hd : s.drain d = .clearedHead x) (ht : s.tail d = some tail) :
    Lists { s with
      tail := update s.tail d none
      drain := update s.drain d (.next x tail)
      queue := update s.queue d []
      rest := update s.rest d (s.queue d) } := by
  have ok := h.queue d
  have hrest := ok.batchEnd (by rw [hd]; rfl)
  have hchain := ok.queueChain
  have htail := ok.tail
  rw [hd] at hchain htail
  refine h.keep (d := d) rfl rfl (fun q hq => ⟨⟨rfl, update_of_ne hq .., update_of_ne hq ..,
    update_of_ne hq .., rfl, rfl⟩, update_of_ne hq ..⟩) (fun _ _ => rfl) ?_ ?_ rfl rfl ?_
  · simp [line, hd, hrest, held, seen]
  · intro p e _ hpair
    simpa [State.open, hd, seen, anchor, pairs] using hpair
  intro hlinking
  refine ⟨?_, ?_, ?_, ?_, ?_, ?_, ?_, ?_⟩
  · simp [seen, lastOr]
  · simp only [update_self]
    exact ok.headNull x hd
  · simp
  · simp only [update_self, anchor, Option.some.injEq]
    rintro y rfl
    exact hchain.congr rfl (fun _ _ => rfl) fun y _ => hlinking y
  · simp [anchor]
  · simp only [update_self, anchor, batchTail, Option.some.injEq]
    rintro y z rfl rfl
    exact htail.symm.trans ht
  · have hknown := ok.known x (.inr (by simp [hd, seen]))
    simp [hlinking, hknown, held, seen]
  · simp

theorem Lists.nextLast (hd : s.drain d = .next cur cur) :
    Lists { s with drain := update s.drain d (.mark cur none cur) } := by
  have ok := h.queue d
  have hrest : s.rest d = [] := by
    have hlast := ok.batchTail cur cur (by rw [hd]; rfl) (by rw [hd]; rfl)
    have hnodup := ok.nodup
    simp only [line, hd, held, cons_append, nil_append, nodup_cons, mem_append, not_or] at hnodup
    cases hx : (s.rest d).getLast? with
    | none => exact getLast?_eq_none_iff.mp hx
    | some x =>
      rw [lastOr, hx] at hlast
      cases hlast
      exact absurd (mem_of_getLast? hx) hnodup.1.1
  have hchain := ok.queueChain
  have htail := ok.tail
  rw [hd] at hchain htail
  refine h.keep (d := d) rfl rfl (fun q hq => ⟨⟨rfl, rfl, rfl, rfl, rfl, rfl⟩, update_of_ne hq ..⟩)
    (fun _ _ => rfl) ?_ ?_ rfl rfl ?_
  · simp [line, hd, hrest, held, seen]
  · intro p e _ hpair
    simpa [State.open, hd, hrest, seen, anchor, pairs] using hpair
  intro hlinking
  refine ⟨?_, ?_, ?_, ?_, ?_, ?_, ?_, ?_⟩
  · simpa [seen] using htail
  · simp only [update_self]
    exact hchain.congr rfl (fun _ _ => rfl) fun y _ => hlinking y
  · simp
  · simp [anchor]
  · simp [hrest]
  · simp [anchor]
  · have hknown := ok.known cur (.inl (by simp [hd, held]))
    simp [hlinking, hknown, held, seen]
  · simp

theorem Lists.nextLink {y : Elem n} (hd : s.drain d = .next cur tail) (hy : s.next cur = .to y) :
    Lists { s with
      drain := update s.drain d (.mark cur (some y) tail)
      rest := update s.rest d (s.rest d).tail } := by
  have ok := h.queue d
  have hchain := ok.queueChain
  have htail := ok.tail
  rw [hd] at hchain htail
  have hlast := ok.batchTail cur tail (by rw [hd]; rfl) (by rw [hd]; rfl)
  obtain ⟨ys, hys, hy', hbatch⟩ := (ok.batchChain cur (by rw [hd]; rfl)).follow hy
  refine h.keep (d := d) rfl rfl (fun q hq => ⟨⟨rfl, rfl, rfl, update_of_ne hq .., rfl, rfl⟩,
    update_of_ne hq ..⟩) (fun _ _ => rfl) ?_ ?_ rfl rfl ?_
  · simp [line, hd, hys, held, seen]
  · intro p e he hpair
    simp only [State.open, hd, hys, seen, anchor, pairs, Option.elim, mem_append,
      mem_cons, Prod.mk.injEq] at hpair
    obtain hpair | ⟨-, rfl⟩ | hpair := hpair
    · simp [State.open, seen, hpair]
    · exact absurd he hy'
    · simp [State.open, hys, anchor, hpair]
  · intro hlinking
    refine ⟨?_, ?_, ?_, ?_, ?_, ?_, ?_, ?_⟩
    · simpa [seen] using htail
    · simp only [update_self]
      exact hchain.congr rfl (fun _ _ => rfl) fun z _ => hlinking z
    · simp
    · simp only [update_self, anchor, Option.some.injEq, hys, tail_cons]
      rintro z rfl
      exact hbatch.congr rfl (fun _ _ => rfl) fun z _ => hlinking z
    · simp [anchor]
    · simp only [update_self, anchor, batchTail, Option.some.injEq, hys, tail_cons]
      rintro z w rfl rfl
      rw [hys, lastOr_cons] at hlast
      exact hlast
    · have hknown := ok.known cur (.inl (by simp [hd, held]))
      simp [hlinking, hknown, hy', held, seen]
    · simp

/-- The marker goes into an element that nothing in the line stands behind any more. -/
theorem Lists.mark (hd : s.drain d = .mark cur tmp tail) :
    Lists { s with
      next := update s.next cur .other
      drain := update s.drain d (.invoke cur tmp tail) } := by
  have ok := h.queue d
  have hchain := ok.queueChain
  have htail := ok.tail
  have hbatchEnd := ok.batchEnd
  have hbatchTail := ok.batchTail
  have hbatchChain := ok.batchChain
  have hknown := ok.known
  have hnodup := ok.nodup
  have hline : s.line d = cur :: (tmp.toList ++ s.rest d ++ s.queue d) := by
    simp [line, hd, held, seen]
  rw [hd] at hchain htail hbatchEnd hbatchTail hbatchChain hknown
  rw [hline] at hnodup
  have hother : ∀ e ∈ tmp.toList ++ s.rest d ++ s.queue d,
      update s.next cur .other e = s.next e := by
    intro e he
    refine update_of_ne ?_ ..
    rintro rfl
    exact (nodup_cons.mp hnodup).1 he
  refine h.keep (d := d) rfl rfl (fun q hq => ⟨⟨rfl, rfl, rfl, rfl, rfl, rfl⟩, update_of_ne hq ..⟩)
    ?_ ?_ ?_ rfl rfl ?_
  · intro e he
    refine update_of_ne ?_ ..
    rintro rfl
    exact he (by simp [hline])
  · simp [line, hd, held, seen]
  · intro p e _ hpair
    simpa [State.open, hd, seen, anchor] using hpair
  intro hlinking
  refine ⟨?_, ?_, ?_, ?_, ?_, ?_, ?_, ?_⟩
  · simpa [seen] using htail
  · simp only [update_self]
    exact hchain.congr rfl (fun y hy => hother y (by simp [hy])) fun y _ => hlinking y
  · simp
  · simp only [update_self, anchor]
    rintro y rfl
    exact (hbatchChain y rfl).congr (hother y (by simp)) (fun z hz => hother z (by simp [hz]))
      fun z _ => hlinking z
  · simpa [anchor] using hbatchEnd
  · simpa [anchor, batchTail] using hbatchTail
  · simpa [hlinking, held, seen] using hknown
  · simp

theorem Lists.invoke (hd : s.drain d = .invoke cur tmp tail)
    (htd : t.drain d = .invoking cur tmp tail)
    (hinvoked : t.invoked = update s.invoked d (s.invoked d ++ [cur]))
    (hplace : t.place = update s.place cur .free)
    (hothers : ∀ q ≠ d, SameDrain (s.drain q) (t.drain q) ∧ (∀ x, t.drain q = .clearedHead x →
      s.drain q = .clearedHead x) ∧ (t.drain q = .waitHead → s.drain q = .waitHead))
    (hnext : t.next = s.next) (hhead : t.headNext = s.headNext) (htail : t.tail = s.tail)
    (hqueue : t.queue = s.queue) (hrest : t.rest = s.rest) (happended : t.appended = s.appended)
    (hcalls : t.calls = s.calls) : Lists t := by
  have hat : ∀ j c, t.At j c ↔ s.At j c := fun j c => by rw [State.At, State.At, hcalls]
  have hlinking : ∀ e, t.Linking e ↔ s.Linking e := fun e =>
    exists_congr fun j => exists_congr fun q => exists_congr fun p => hat j _
  have hsame : ∀ q ≠ d, SameQueue s t q := fun q hq =>
    ⟨congrFun hhead q, congrFun htail q, congrFun hqueue q, congrFun hrest q, congrFun happended q,
      by rw [hinvoked, update_of_ne hq]⟩
  have hptr : ∀ q x, t.ptr q x = s.ptr q x := by
    rintro q (_ | x)
    · exact congrFun hhead q
    · exact congrFun hnext x
  have hline : s.line d = cur :: t.line d := by
    simp [line, hd, htd, hqueue, hrest, held, seen]
  have hopen : t.open d = s.open d := by
    simp [State.open, hd, htd, hqueue, hrest, anchor, seen]
  have ok := h.queue d
  have hnodup := ok.nodup
  rw [hline] at hnodup
  have hcur : s.place cur = .queued d := (h.queued d cur).mp (by simp [hline])
  refine ⟨fun q => ?_, fun q e => ?_, fun j e => ?_, fun j q e hc => ?_, fun j q e p hc => ?_, ?_⟩
  · by_cases hq : q = d
    · subst hq
      refine ⟨⟨?_, ?_, ?_, ?_, ?_, ?_, ?_, ?_⟩, ?_, ?_⟩
      · simpa [htd, hd, htail, hqueue, seen] using ok.tail
      · have hchain := ok.queueChain
        rw [hd] at hchain
        rw [htd, hqueue]
        exact hchain.congr (hptr q _) (fun x _ => hptr q _) fun x _ => hlinking x
      · simp [htd]
      · rw [htd, hrest]
        intro x hx
        exact (ok.batchChain x (by rw [hd]; exact hx)).congr (hptr q _) (fun y _ => hptr q _)
          fun y _ => hlinking y
      · rw [htd, hrest]
        exact fun hx => ok.batchEnd (by rw [hd]; exact hx)
      · rw [htd, hrest]
        exact fun x y hx hy => ok.batchTail x y (by rw [hd]; exact hx) (by rw [hd]; exact hy)
      · rw [htd]
        intro e he
        rw [hlinking]
        apply ok.known e
        rw [hd]
        exact he.imp (mem_cons_of_mem cur) id
      · simp [htd]
      · rw [happended, hinvoked, ok.log, hline]
        simp
      · exact (nodup_cons.mp hnodup).2
    · obtain ⟨hdrain, hcleared, hwait⟩ := hothers q hq
      refine (h.queue q).frame (hsame q hq) hdrain (fun x hx => ?_) (fun hx => ?_)
        (fun e _ => congrFun hnext e) fun e _ => hlinking e
      · rw [hhead]
        exact (h.queue q).headNull x (hcleared x hx)
      · exact (h.queue q).wait (hwait hx)
  · by_cases hq : q = d
    · subst hq
      rw [hplace]
      by_cases he : e = cur
      · subst he
        simp [(nodup_cons.mp hnodup).1]
      · rw [update_of_ne he, ← h.queued, hline, mem_cons, or_iff_right he]
    · rw [(hsame q hq).line (hothers q hq).1, h.queued, hplace]
      by_cases he : e = cur
      · subst he
        simp [hcur, Ne.symm hq]
      · rw [update_of_ne he]
  · have hin : ∀ q, t.InHand j q e ↔ s.InHand j q e := fun q => or_congr (hat j _) (hat j _)
    simp only [hin]
    rw [← h.hand, hplace]
    by_cases he : e = cur
    · subst he
      simp [hcur]
    · rw [update_of_ne he]
  · rw [hnext]
    exact h.cleared j q e ((hat j _).mp hc)
  · have hmem := h.linking j q e p ((hat j _).mp hc)
    by_cases hq : q = d
    · subst hq
      rw [hopen]
      exact hmem
    · rw [(hsame q hq).open (hothers q hq).1]
      exact hmem
  · intro j k q q' e p p' hj hk
    exact h.unique j k q q' e p p' ((hat j _).mp hj) ((hat k _).mp hk)

end

end XnuXzs.MpscQueue
