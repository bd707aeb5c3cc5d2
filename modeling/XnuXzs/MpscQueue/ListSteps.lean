import XnuXzs.MpscQueue.Lists

/-!
# Steps that change the lines

An enqueuer appends to the line of a queue with its exchange and completes it with its
link; a drain learns the line from the front, takes it over as a batch, and invokes it.
-/

namespace XnuXzs.MpscQueue

open Lib Function List State

variable {n : Nat} {s t s : State n} {d d : Fin n} {i j : Nat} {new c old : Call n} {e : Elem n}
  {prev : Option (Elem n)} {l : Link (Elem n)}

/-- The enqueuer `i` is now at `new`, and the others are where they were. -/
def Moves (s t : State n) (i : Nat) (new : Call n) : Prop :=
  ∀ j c, t.At j c ↔ j = i ∧ c = new ∨ j ≠ i ∧ s.At j c

theorem Moves.of_set (hold : s.At i old) (ht : t.calls = s.calls.set i new) : Moves s t i new := by
  intro j c
  rw [State.At, State.At, ht, set_eq_some hold, eq_comm (a := new)]

theorem Moves.of_append (ht : t.calls = s.calls ++ [new]) : Moves s t s.calls.length new := by
  intro j c
  rw [State.At, State.At, ht]
  obtain hlt | heq | hgt := lt_trichotomy j s.calls.length
  · rw [getElem?_append_left hlt]
    simp [hlt.ne]
  · subst heq
    simp [eq_comm]
  · have hnone : (s.calls ++ [new])[j]? = none := getElem?_eq_none (by simpa using hgt)
    have hnone' : s.calls[j]? = none := getElem?_eq_none hgt.le
    simp [hnone, hnone', hgt.ne']

theorem Moves.iff (h : Moves s t i new) (hold : ¬ s.At i c) (hnew : c ≠ new := by simp) :
    t.At j c ↔ s.At j c := by
  rw [h]
  constructor
  · rintro (⟨-, hc⟩ | ⟨-, hat⟩)
    · exact absurd hc hnew
    · exact hat
  intro hat
  refine .inr ⟨?_, hat⟩
  rintro rfl
  exact hold hat

theorem Moves.left (h : Moves s t i new) (hnew : c ≠ new := by simp) :
    t.At j c ↔ j ≠ i ∧ s.At j c := by
  rw [h]
  constructor
  · rintro (⟨-, hc⟩ | hat)
    · exact absurd hc hnew
    · exact hat
  · exact .inr

theorem At.inj {c' : Call n} (h : s.At i c) (h' : s.At i c') : c = c' :=
  Option.some.inj (h.symm.trans h')

theorem Lists.not_mem (h : Lists s) (he : s.place e = .hand i) (q : Fin n) : e ∉ s.line q := by
  intro hmem
  rw [(h.queued q e).mp hmem] at he
  cases he

theorem mem_open {p : Option (Elem n)} (h : (p, e) ∈ s.open d) :
    e ∈ s.line d ∧ ∀ x, p = some x → x ∈ s.line d := by
  rw [State.open, mem_append] at h
  obtain h | h := h
  · obtain ⟨he, hp⟩ := mem_of_pairs h
    refine ⟨by simp [line, he], ?_⟩
    rintro x rfl
    obtain hx | ⟨y, hy, hx⟩ := hp
    · simp [line, ← hx]
    · cases hx
      simp [line, hy]
  · cases ha : (s.drain d).anchor with
    | none =>
      rw [ha] at h
      cases h
    | some a =>
      rw [ha] at h
      obtain ⟨he, hp⟩ := mem_of_pairs h
      refine ⟨by simp [line, he], ?_⟩
      rintro x rfl
      obtain hx | ⟨y, hy, hx⟩ := hp
      · cases hx
        simp [line, Drain.anchor_mem ha]
      · cases hx
        simp [line, hy]

theorem Lists.linking_mem (h : Lists s) (he : s.Linking e) : ∃ q, e ∈ s.line q := by
  obtain ⟨j, q, p, hat⟩ := he
  exact ⟨q, (mem_open (h.linking j q e p hat)).1⟩

theorem Lists.quiet (h : Lists s) (hc : s.At i old)
    (hcalls : t.calls = s.calls.set i new) (hold : old.Quiet) (hnew : new.Quiet)
    (hq : ∀ q, SameQueue s t q := by exact fun _ => ⟨rfl, rfl, rfl, rfl, rfl, rfl⟩)
    (hd : t.drain = s.drain := by rfl) (hnext : t.next = s.next := by rfl)
    (hplace : t.place = s.place := by rfl) : Lists t := by
  refine h.frame hq (fun q => hd ▸ .refl _) (fun q => ?_) (fun q => ?_) hnext hplace
    (.set hc hold hnew hcalls)
  · rw [hd, (hq q).headNext]
    exact (h.queue q).headNull
  · rw [hd]
    exact (h.queue q).wait

theorem Lists.take (h : Lists s) {e : Elem n} (hfree : s.place e = .free)
    (hquiet : ∀ c, s.At i c → c.Quiet) (hq : ∀ q, SameQueue s t q) (hd : t.drain = s.drain)
    (hnext : t.next = s.next) (hplace : t.place = update s.place e (.hand i))
    (hcalls : Moves s t i (.start d e)) : Lists t := by
  have hswapped : ∀ j q x p, t.At j (.swapped q x p) ↔ s.At j (.swapped q x p) := fun j q x p =>
    hcalls.iff (hquiet _)
  have hcleared : ∀ j q x, t.At j (.cleared q x) ↔ s.At j (.cleared q x) := fun j q x =>
    hcalls.iff (hquiet _)
  have hlinking : ∀ x, t.Linking x ↔ s.Linking x := fun x =>
    exists_congr fun j => exists_congr fun q => exists_congr fun p => hswapped j q x p
  have hsame : ∀ q, SameDrain (s.drain q) (t.drain q) := fun q => hd ▸ SameDrain.refl _
  refine ⟨fun q => ?_, fun q x => ?_, fun j x => ?_, fun j q x hc => ?_, fun j q x p hc => ?_, ?_⟩
  · refine (h.queue q).frame (hq q) (hsame q) ?_ ?_ (fun x _ => by rw [hnext]) fun x _ => hlinking x
    · intro x hx
      rw [hd] at hx
      exact (hq q).headNext.trans ((h.queue q).headNull x hx)
    · rw [hd]
      exact (h.queue q).wait
  · rw [(hq q).line (hsame q), h.queued, hplace]
    by_cases hxe : x = e
    · subst hxe
      simp [hfree]
    · rw [update_of_ne hxe]
  · rw [hplace]
    by_cases hxe : x = e
    · subst hxe
      rw [update_self]
      have hnone : ∀ q, ¬ s.InHand j q x := fun q hin => by
        have := (h.hand j x).mpr ⟨q, hin⟩
        rw [hfree] at this
        cases this
      constructor
      · rintro ⟨⟩
        exact ⟨d, .inl ((hcalls _ _).mpr (.inl ⟨rfl, rfl⟩))⟩
      rintro ⟨q, hin | hin⟩
      · obtain ⟨rfl, -⟩ | ⟨-, hat⟩ := (hcalls j _).mp hin
        · rfl
        · exact absurd (.inl hat) (hnone q)
      · exact absurd (.inr ((hcleared j q x).mp hin)) (hnone q)
    · rw [update_of_ne hxe, h.hand]
      refine exists_congr fun q => or_congr ?_ (hcleared j q x).symm
      refine (hcalls.iff (hquiet _) ?_).symm
      rintro ⟨⟩
      exact hxe rfl
  · rw [hnext]
    exact h.cleared j q x ((hcleared j q x).mp hc)
  · rw [(hq q).open (hsame q)]
    exact h.linking j q x p ((hswapped j q x p).mp hc)
  · intro j k q q' x p p' hj hk
    exact h.unique j k q q' x p p' ((hswapped j q x p).mp hj) ((hswapped k q' x p').mp hk)

theorem Lists.clear (h : Lists s) (hc : s.At i (.start d e)) :
    Lists { s with next := update s.next e .null, calls := s.calls.set i (.cleared d e) } := by
  set t : State n := { s with next := update s.next e .null, calls := s.calls.set i (.cleared d e) }
  have hcalls : Moves s t i (.cleared d e) := .of_set hc rfl
  have hswapped : ∀ j q x p, t.At j (.swapped q x p) ↔ s.At j (.swapped q x p) := fun j q x p =>
    hcalls.iff (fun h => by cases At.inj hc h)
  have hlinking : ∀ x, t.Linking x ↔ s.Linking x := fun x =>
    exists_congr fun j => exists_congr fun q => exists_congr fun p => hswapped j q x p
  have hhand : s.place e = .hand i := (h.hand i e).mpr ⟨d, .inl hc⟩
  have hnext : ∀ x ≠ e, t.next x = s.next x := fun x hx => update_of_ne hx ..
  refine ⟨fun q => ?_, h.queued, fun j x => ?_, fun j q x hx => ?_,
    fun j q x p hx => h.linking j q x p ((hswapped j q x p).mp hx), ?_⟩
  · refine (h.queue q).frame ⟨rfl, rfl, rfl, rfl, rfl, rfl⟩ (.refl _) (h.queue q).headNull
      (h.queue q).wait ?_ fun x _ => hlinking x
    intro x hx
    apply hnext x
    rintro rfl
    exact h.not_mem hhand q hx
  · apply (h.hand j x).trans
    by_cases hji : j = i
    · subst hji
      constructor
      · rintro ⟨q, hin | hin⟩
        · cases At.inj hc hin
          exact ⟨d, .inr ((hcalls _ _).mpr (.inl ⟨rfl, rfl⟩))⟩
        · cases At.inj hc hin
      rintro ⟨q, hin | hin⟩
      · exact absurd rfl ((hcalls.left (c := .start q x)).mp hin).1
      obtain ⟨-, heq⟩ | ⟨hne, -⟩ := (hcalls _ _).mp hin
      · cases heq
        exact ⟨d, .inl hc⟩
      · exact absurd rfl hne
    · refine exists_congr fun q => or_congr ?_ ?_
      · simp [hcalls j, hji]
      · simp [hcalls j, hji]
  · obtain ⟨-, heq⟩ | ⟨hji, hat⟩ := (hcalls j _).mp hx
    · cases heq
      exact update_self ..
    refine (hnext x ?_).trans (h.cleared j q x hat)
    rintro rfl
    have := (h.hand j x).mpr ⟨q, .inr hat⟩
    rw [hhand] at this
    cases this
    exact hji rfl
  · intro j k q q' x p p' hj hk
    exact h.unique j k q q' x p p' ((hswapped j q x p).mp hj) ((hswapped k q' x p').mp hk)

theorem QueueOk.exchange (h : QueueOk s d) (he : e ∉ s.line d) (hnull : s.next e = .null)
    (hnext : t.next = s.next) (hhead : t.headNext d = s.headNext d) (hd : t.drain d = s.drain d)
    (hrest : t.rest d = s.rest d) (hinvoked : t.invoked d = s.invoked d) (htail : t.tail d = some e)
    (hqueue : t.queue d = s.queue d ++ [e]) (happended : t.appended d = s.appended d ++ [e])
    (hlinking : ∀ x, t.Linking x ↔ x = e ∨ s.Linking x) : QueueOk t d := by
  have hline : t.line d = s.line d ++ [e] := by
    simp [line, hd, hrest, hqueue]
  have hptr : ∀ x, t.ptr d x = s.ptr d x := by
    rintro (_ | x)
    · exact hhead
    · exact congrFun hnext x
  have hun : ∀ x ∈ s.line d, t.Linking x ↔ s.Linking x := by
    intro x hx
    rw [hlinking]
    apply or_iff_right
    rintro rfl
    exact he hx
  refine ⟨⟨?_, ?_, ?_, ?_, ?_, ?_, ?_, ?_⟩, ?_, ?_⟩
  · rw [htail, hqueue, lastOr, getLast?_concat]
    rfl
  · rw [hd, hqueue]
    refine h.queueChain.append (hptr _) (fun x _ => hptr _) ?_ ((hlinking e).mpr (.inl rfl)) ?_
    · intro x hx
      exact hun x (by simp [line, hx])
    · exact (hptr _).trans hnull
  · rw [hd, hhead]
    exact h.headNull
  · rw [hd, hrest]
    intro x hx
    refine (h.batchChain x hx).congr (hptr _) (fun y _ => hptr _) ?_
    intro y hy
    exact hun y (by simp [line, hy])
  · rw [hd, hrest]
    exact h.batchEnd
  · rw [hd, hrest]
    exact h.batchTail
  · rw [hd]
    intro x hx
    rw [hun x ?_]
    · exact h.known x hx
    · obtain hx | hx := hx
      · simp [line, hx]
      · simp [line, Option.mem_def.mp hx]
  · rw [hqueue]
    simp
  · rw [happended, hinvoked, hline, h.log, append_assoc]
  · rw [hline]
    refine nodup_append.mpr ⟨h.nodup, nodup_singleton e, ?_⟩
    rintro x hx y hy rfl
    exact he (mem_singleton.mp hy ▸ hx)

theorem Lists.exchange (h : Lists s) (hc : s.At i (.cleared d e)) : Lists (s.exchanged i d e) := by
  set t := s.exchanged i d e
  have hcalls : Moves s t i (.swapped d e (s.tail d)) := .of_set hc rfl
  have hhand : s.place e = .hand i := (h.hand i e).mpr ⟨d, .inr hc⟩
  have hfresh : ¬ s.Linking e := fun hl => by
    obtain ⟨q, hq⟩ := h.linking_mem hl
    exact h.not_mem hhand q hq
  have hlinking : ∀ x, t.Linking x ↔ x = e ∨ s.Linking x := by
    intro x
    constructor
    · rintro ⟨j, q, p, hat⟩
      obtain ⟨-, heq⟩ | ⟨-, hat⟩ := (hcalls j _).mp hat
      · cases heq
        exact .inl rfl
      · exact .inr ⟨j, q, p, hat⟩
    · rintro (rfl | ⟨j, q, p, hat⟩)
      · exact ⟨i, d, s.tail d, (hcalls i _).mpr (.inl ⟨rfl, rfl⟩)⟩
      · refine ⟨j, q, p, (hcalls j _).mpr (.inr ⟨?_, hat⟩)⟩
        rintro rfl
        cases At.inj hc hat
  have hother : ∀ q ≠ d, SameQueue s t q := fun q hq =>
    ⟨rfl, update_of_ne hq .., update_of_ne hq .., rfl, update_of_ne hq .., rfl⟩
  refine ⟨fun q => ?_, fun q x => ?_, fun j x => ?_, fun j q x hx => ?_, fun j q x p hx => ?_, ?_⟩
  · by_cases hq : q = d
    · subst hq
      exact (h.queue q).exchange (h.not_mem hhand q) (h.cleared i q e hc) rfl rfl rfl rfl rfl
        (update_self ..) (update_self ..) (update_self ..) hlinking
    refine (h.queue q).frame (hother q hq) (.refl _) (h.queue q).headNull (h.queue q).wait
      (fun _ _ => rfl) ?_
    intro x hx
    rw [hlinking]
    apply or_iff_right
    rintro rfl
    exact h.not_mem hhand q hx
  · by_cases hq : q = d
    · subst hq
      have hline : t.line q = s.line q ++ [e] := by
        simp [line, t]
      rw [hline, mem_append, mem_singleton, h.queued]
      by_cases hxe : x = e <;> simp [t, hxe]
    · rw [(hother q hq).line (.refl _)]
      by_cases hxe : x = e
      · subst hxe
        simp [t, h.not_mem hhand q, Ne.symm hq]
      · rw [h.queued]
        simp [t, hxe]
  · have hin : ∀ q, t.InHand j q x ↔ j ≠ i ∧ s.InHand j q x := fun q => by
      rw [State.InHand, State.InHand, hcalls.left (c := .start q x),
        hcalls.left (c := .cleared q x), and_or_left]
    simp only [hin]
    by_cases hxe : x = e
    · subst hxe
      simp only [t, update_self, reduceCtorEq, false_iff]
      rintro ⟨q, hji, hin⟩
      have := (h.hand j x).mpr ⟨q, hin⟩
      rw [hhand] at this
      cases this
      exact hji rfl
    · simp only [t, update_of_ne hxe, h.hand]
      refine exists_congr fun q => (and_iff_right_of_imp ?_).symm
      rintro (hat | hat) rfl
      · cases At.inj hc hat
      · cases At.inj hc hat
        exact hxe rfl
  · exact h.cleared j q x ((hcalls.left (c := .cleared q x)).mp hx).2
  · obtain ⟨-, heq⟩ | ⟨-, hat⟩ := (hcalls j _).mp hx
    · cases heq
      simp [State.open, t, pairs_append, (h.queue d).tail]
    have := h.linking j q x p hat
    by_cases hq : q = d
    · subst hq
      simp only [State.open, t, update_self, pairs_append, mem_append] at this ⊢
      tauto
    · rw [(hother q hq).open (.refl _)]
      exact this
  · intro j k q q' x p p' hj hk
    obtain ⟨hji, heq⟩ | ⟨-, hat⟩ := (hcalls j _).mp hj
    · cases heq
      obtain ⟨hki, -⟩ | ⟨-, hat'⟩ := (hcalls k _).mp hk
      · exact hji.trans hki.symm
      · exact absurd ⟨k, q', p', hat'⟩ hfresh
    obtain ⟨-, heq⟩ | ⟨-, hat'⟩ := (hcalls k _).mp hk
    · cases heq
      exact absurd ⟨j, q, p, hat⟩ hfresh
    · exact h.unique j k q q' x p p' hat hat'

theorem QueueOk.link (h : QueueOk s d) (hopen : (prev, e) ∈ s.open d) (hprev : t.ptr d prev = .to e)
    (hptr : ∀ x ≠ prev, t.ptr d x = s.ptr d x) (hd : t.drain d = s.drain d)
    (hqueue : t.queue d = s.queue d) (hrest : t.rest d = s.rest d) (htail : t.tail d = s.tail d)
    (happended : t.appended d = s.appended d) (hinvoked : t.invoked d = s.invoked d)
    (hlinking : ∀ x, t.Linking x ↔ s.Linking x ∧ x ≠ e) : QueueOk t d := by
  have hline : t.line d = s.line d := by
    simp [line, hd, hqueue, hrest]
  obtain ⟨hfront, hback, hdisjoint⟩ := nodup_append.mp h.nodup
  have hunseen : ∀ x ∈ s.queue d, (s.drain d).seen ≠ some x := by
    intro x hx hseen
    rw [hseen] at hback
    exact (nodup_cons.mp hback).1 hx
  have hunheld : ∀ x a, (s.drain d).anchor = some a → x ∈ s.rest d → a ≠ x := by
    intro x a ha hx
    exact (nodup_append.mp hfront).2.2 a (Drain.anchor_mem ha) x hx
  -- the link is made in the queue or in the batch, and the other one of the two is framed
  rw [State.open, mem_append] at hopen
  have hchains : Threaded (t.ptr d) t.Linking (s.drain d).seen (s.queue d) ∧
      (∀ a, (s.drain d).anchor = some a → Threaded (t.ptr d) t.Linking (some a) (s.rest d)) ∧
      (∀ x, (s.drain d).seen = some x → prev ≠ none) := by
    obtain hpair | hpair := hopen
    · obtain ⟨he, hp⟩ := mem_of_pairs hpair
      have hprevBack : ∀ x, prev = some x → x ∈ (s.drain d).seen.toList ++ s.queue d := by
        rintro x rfl
        obtain hx | ⟨y, hy, hx⟩ := hp
        · simp [← hx]
        · cases hx
          simp [hy]
      refine ⟨?_, ?_, ?_⟩
      · exact h.queueChain.link hpair hunseen (nodup_append.mp hback).2.1 hprev hptr hlinking
      · intro a ha
        have hout : ∀ y ∈ (s.drain d).held ++ s.rest d, some y ≠ prev := fun y hy heq =>
          hdisjoint y hy y (hprevBack y heq.symm) rfl
        refine (h.batchChain a ha).congr (hptr _ ?_) (fun y hy => hptr _ ?_) fun y hy => ?_
        · exact hout a (mem_append_left _ (Drain.anchor_mem ha))
        · exact hout y (mem_append_right _ hy)
        rw [hlinking]
        apply and_iff_left
        rintro rfl
        exact hdisjoint y (mem_append_right _ hy) y (mem_append_right _ he) rfl
      · rintro x hx rfl
        obtain hp | ⟨y, -, hp⟩ := hp
        · rw [hx] at hp
          cases hp
        · cases hp
    · cases ha : (s.drain d).anchor with
      | none =>
        rw [ha] at hpair
        cases hpair
      | some a =>
        rw [ha] at hpair
        obtain ⟨he, hp⟩ := mem_of_pairs hpair
        have hprevFront : ∃ x, prev = some x ∧ x ∈ (s.drain d).held ++ s.rest d := by
          obtain hx | ⟨y, hy, hx⟩ := hp
          · exact ⟨a, hx, mem_append_left _ (Drain.anchor_mem ha)⟩
          · exact ⟨y, hx, mem_append_right _ hy⟩
        obtain ⟨x, rfl, hx⟩ := hprevFront
        have hout : ∀ y, y ∈ (s.drain d).seen.toList ++ s.queue d → y ≠ x := fun y hy heq =>
          hdisjoint x hx y hy heq.symm
        refine ⟨?_, ?_, ?_⟩
        · refine h.queueChain.congr (hptr _ ?_) (fun y hy => hptr _ ?_) fun y hy => ?_
          · intro hseen
            exact hout x (by simp [hseen]) rfl
          · intro heq
            exact hout y (mem_append_right _ hy) (Option.some.inj heq)
          rw [hlinking]
          apply and_iff_left
          rintro rfl
          exact hdisjoint y (mem_append_right _ he) y (mem_append_right _ hy) rfl
        · rintro a' ⟨⟩
          refine (h.batchChain a ha).link hpair ?_ (nodup_append.mp hfront).2.1 hprev hptr hlinking
          intro y hy heq
          exact hunheld y a ha hy (Option.some.inj heq)
        · exact fun _ _ => Option.some_ne_none x
  obtain ⟨hqueueChain, hbatchChain, hnone⟩ := hchains
  refine ⟨⟨?_, ?_, ?_, ?_, ?_, ?_, ?_, ?_⟩, ?_, ?_⟩
  · rw [htail, hd, hqueue, h.tail]
  · rw [hd, hqueue]
    exact hqueueChain
  · rw [hd]
    intro x hx
    exact (hptr none (hnone x (by rw [hx]; rfl)).symm).trans (h.headNull x hx)
  · rw [hd, hrest]
    exact hbatchChain
  · rw [hd, hrest]
    exact h.batchEnd
  · rw [hd, hrest]
    exact h.batchTail
  · rw [hd]
    intro x hx hl
    exact h.known x hx ((hlinking x).mp hl).1
  · rw [hd, hqueue]
    exact h.wait
  · rw [happended, hinvoked, hline, h.log]
  · rw [hline]
    exact h.nodup

theorem setLink_ptr (s : State n) (d : Fin n) (prev : Option (Elem n)) (l : Link (Elem n)) :
    (s.setLink d prev l).ptr d prev = l := by
  cases prev with
  | none | some => exact update_self ..

theorem setLink_ptr_of_ne {x : Option (Elem n)} (hx : x ≠ prev) :
    (s.setLink d prev l).ptr d x = s.ptr d x := by
  cases prev with
  | none =>
    cases x with
    | none => exact absurd rfl hx
    | some => rfl
  | some y =>
    cases x with
    | none => rfl
    | some => exact update_of_ne (fun heq => hx (congrArg some heq)) ..

theorem setLink_other {q : Fin n} (hq : q ≠ d) :
    (s.setLink d prev l).headNext q = s.headNext q := by
  cases prev with
  | none => exact update_of_ne hq ..
  | some => rfl

theorem setLink_next {x : Elem n} (hx : prev ≠ some x) :
    (s.setLink d prev l).next x = s.next x := by
  cases prev with
  | none => rfl
  | some => exact update_of_ne (fun heq => hx (congrArg some heq.symm)) ..

theorem Lists.link (h : Lists s) {b : Bool} (hc : s.At i (.swapped d e prev)) :
    Lists { s.setLink d prev (.to e) with calls := s.calls.set i (.appended d b) } := by
  set t : State n := { s.setLink d prev (.to e) with calls := s.calls.set i (.appended d b) }
  have hfields : t.drain = s.drain ∧ t.queue = s.queue ∧ t.rest = s.rest ∧ t.tail = s.tail ∧
      t.appended = s.appended ∧ t.invoked = s.invoked ∧ t.place = s.place := by
    cases prev <;> exact ⟨rfl, rfl, rfl, rfl, rfl, rfl, rfl⟩
  obtain ⟨hdrain, hqueue, hrest, htail, happended, hinvoked, hplace⟩ := hfields
  have hsame : ∀ q, SameDrain (s.drain q) (t.drain q) := fun q => hdrain ▸ .refl _
  have hline : ∀ q, t.line q = s.line q := fun q => by
    simp [line, hdrain, hqueue, hrest]
  have hopen : ∀ q, t.open q = s.open q := fun q => by
    simp [State.open, hdrain, hqueue, hrest]
  have hcalls : Moves s t i (.appended d b) := .of_set hc rfl
  have hin : ∀ j q x, t.InHand j q x ↔ s.InHand j q x := fun j q x =>
    or_congr (hcalls.iff (fun h => by cases At.inj hc h))
      (hcalls.iff (fun h => by cases At.inj hc h))
  have hswapped : ∀ j q x p, t.At j (.swapped q x p) ↔ j ≠ i ∧ s.At j (.swapped q x p) :=
    fun j q x p => hcalls.left
  have hlinking : ∀ x, t.Linking x ↔ s.Linking x ∧ x ≠ e := by
    intro x
    constructor
    · rintro ⟨j, q, p, hat⟩
      obtain ⟨hji, hold⟩ := (hswapped j q x p).mp hat
      refine ⟨⟨j, q, p, hold⟩, ?_⟩
      rintro rfl
      exact hji (h.unique j i q d x p prev hold hc)
    · rintro ⟨⟨j, q, p, hat⟩, hxe⟩
      refine ⟨j, q, p, (hswapped j q x p).mpr ⟨?_, hat⟩⟩
      rintro rfl
      cases At.inj hc hat
      exact hxe rfl
  have hmem := h.linking i d e prev hc
  have hnext : ∀ x, x ∉ s.line d → t.next x = s.next x := fun x hx =>
    setLink_next fun heq => hx ((mem_open hmem).2 x heq)
  refine ⟨fun q => ?_, fun q x => ?_, fun j x => ?_, fun j q x hx => ?_, fun j q x p hx => ?_, ?_⟩
  · by_cases hq : q = d
    · subst hq
      exact (h.queue q).link hmem (setLink_ptr ..) (fun x hx => setLink_ptr_of_ne hx)
        (congrFun hdrain q) (congrFun hqueue q) (congrFun hrest q) (congrFun htail q)
        (congrFun happended q) (congrFun hinvoked q) hlinking
    have hhead : t.headNext q = s.headNext q := setLink_other hq
    have hout : ∀ x ∈ s.line q, x ∉ s.line d := by
      intro x hx hx'
      rw [h.queued] at hx hx'
      rw [hx] at hx'
      cases hx'
      exact hq rfl
    refine (h.queue q).frame ⟨hhead, congrFun htail q, congrFun hqueue q, congrFun hrest q,
      congrFun happended q, congrFun hinvoked q⟩ (hsame q) ?_ ?_ (fun x hx =>
        hnext x (hout x hx)) ?_
    · rw [hhead, hdrain]
      exact (h.queue q).headNull
    · rw [hdrain]
      exact (h.queue q).wait
    intro x hx
    rw [hlinking]
    apply and_iff_left
    rintro rfl
    exact hout x hx (mem_open hmem).1
  · rw [hline, hplace, h.queued]
  · rw [hplace, h.hand]
    exact exists_congr fun q => (hin j q x).symm
  · have hat : s.At j (.cleared q x) := ((hcalls.left (c := .cleared q x)).mp hx).2
    rw [hnext x (h.not_mem ((h.hand j x).mpr ⟨q, .inr hat⟩) d)]
    exact h.cleared j q x hat
  · rw [hopen]
    exact h.linking j q x p ((hswapped j q x p).mp hx).2
  · intro j k q q' x p p' hj hk
    exact h.unique j k q q' x p p' ((hswapped j q x p).mp hj).2 ((hswapped k q' x p').mp hk).2

end XnuXzs.MpscQueue
