import XnuXzs.Pipe.Calls

/-!
# The stream of a pipe

In every run of reads and writes, what readers get is what writers gave, in order, and
the bytes of an atomic write stand together.
-/

namespace XnuXzs.Pipe

open Lib List Function

def bytesOf (t : Nat) (log : List (Nat × UInt8)) : List UInt8 := (log.filter (·.1 = t)).map (·.2)

/-- No other call's bytes stand between those of the call. -/
def Together (t : Nat) (log : List (Nat × UInt8)) : Prop :=
  ∃ before own after, log = before ++ (own ++ after) ∧ (∀ x ∈ own, x.1 = t) ∧
    ∀ x ∈ before ++ after, x.1 ≠ t

variable {t t' : Nat} {log : List (Nat × UInt8)} {bytes : List UInt8} {call : Call}

theorem bytesOf_append_self : bytesOf t (log ++ bytes.map (t, ·)) = bytesOf t log ++ bytes := by
  simp [bytesOf, filter_map, comp_def]

theorem bytesOf_append_of_ne (h : t ≠ t') :
    bytesOf t (log ++ bytes.map (t', ·)) = bytesOf t log := by
  simp [bytesOf, filter_map, comp_def, h.symm]

theorem not_mem_of_bytesOf_nil (h : bytesOf t log = []) : ∀ x ∈ log, x.1 ≠ t := by
  simpa [bytesOf] using h

theorem Together.append_of_ne (h : Together t log) (hne : t ≠ t') :
    Together t (log ++ bytes.map (t', ·)) := by
  obtain ⟨before, own, after, rfl, hown, hothers⟩ := h
  refine ⟨before, own, after ++ bytes.map (t', ·), by simp, hown, ?_⟩
  intro x hx
  rw [← append_assoc, mem_append] at hx
  rcases hx with hx | hx
  · exact hothers x hx
  · obtain ⟨b, -, rfl⟩ := mem_map.mp hx
    exact hne.symm

theorem Together.of_nil (h : bytesOf t log = []) : Together t (log ++ bytes.map (t, ·)) := by
  refine ⟨log, bytes.map (t, ·), [], by simp, ?_, ?_⟩
  · intro x hx
    obtain ⟨b, -, rfl⟩ := mem_map.mp hx
    rfl
  · rw [append_nil]
    exact not_mem_of_bytesOf_nil h

theorem Call.step_sound {o : Oracle} {p : Pipebuf} {taken given : List UInt8}
    {result : Except Failure Effect} (hlayout : Layout p) (hok : call.Ok taken given p)
    (hlocked : call.Holds → p.locked = true) (hstep : call.step o p = some result) :
    ∃ e, result = .ok e ∧ Sound p call taken given e := by
  -- Where the call waits for `pipeio_lock`, a step means that it got it or gave up.
  have hgot : ∀ {x : Except Failure Effect}, (if p.locked = true ∧ ¬o.interrupted = true then none
      else some x) = some result → result = x ∧ (p.locked = true → o.interrupted = true) := by
    intro x hx
    split at hx
    · cases hx
    · rename_i hfree
      exact ⟨(Option.some.inj hx).symm, fun h => by_contra fun hno => hfree ⟨h, hno⟩⟩
  cases call with
  | idle => cases hstep
  | writing w =>
    obtain ⟨hok, rfl⟩ := hok
    have hheld := hlocked
    cases hpc : w.pc with
    | start =>
      simp only [Call.step, hpc, Option.some.injEq] at hstep
      exact ⟨_, hstep.symm, Write.start_sound hlayout hpc hok⟩
    | resize pipeSize =>
      simp only [Call.step, hpc] at hstep
      obtain ⟨rfl, hfree⟩ := hgot hstep
      exact Write.resize_sound hlayout hpc hok hfree
    | top =>
      simp only [Call.step, hpc, Option.some.injEq] at hstep
      exact ⟨_, hstep.symm, Write.top_sound hlayout hpc hok⟩
    | lock space =>
      simp only [Call.step, hpc] at hstep
      obtain ⟨rfl, hfree⟩ := hgot hstep
      exact Write.lock_sound hlayout hpc hok hfree
    | first size seg =>
      simp only [Call.step, hpc, Option.some.injEq] at hstep
      exact hstep ▸ Write.first_sound hlayout hpc hok (hheld (by simp [Call.Holds, hpc]))
    | firstDone =>
      simp only [Call.step, hpc, Option.some.injEq] at hstep
      exact hstep ▸ Write.firstDone_sound hlayout hpc hok (hheld (by simp [Call.Holds, hpc]))
    | second =>
      simp only [Call.step, hpc, Option.some.injEq] at hstep
      exact hstep ▸ Write.second_sound hlayout hpc hok (hheld (by simp [Call.Holds, hpc]))
    | secondDone =>
      simp only [Call.step, hpc, Option.some.injEq] at hstep
      simp only [Write.Ok, hpc] at hok
      exact hstep ▸ Write.update_sound hlayout (by simp [Call.Holds, hpc]) hok.1 hok.2.1 hok.2.2
    | finished => simp [Call.step, hpc] at hstep
  | reading r =>
    obtain ⟨rfl, hok⟩ := hok
    have hheld := hlocked
    cases hpc : r.pc with
    | lock =>
      simp only [Call.step, hpc] at hstep
      obtain ⟨rfl, hfree⟩ := hgot hstep
      exact ⟨_, rfl, Read.lock_sound hlayout hpc hok hfree⟩
    | top =>
      simp only [Call.step, hpc, Option.some.injEq] at hstep
      exact ⟨_, hstep.symm, Read.top_sound hlayout hpc hok (hheld (by simp [Call.Holds, hpc]))⟩
    | copy size =>
      simp only [Call.step, hpc, Option.some.injEq] at hstep
      exact hstep ▸ Read.copy_sound hlayout hpc hok (hheld (by simp [Call.Holds, hpc]))
    | copied size moved =>
      simp only [Call.step, hpc, Option.some.injEq] at hstep
      exact ⟨_, hstep.symm, Read.copied_sound hlayout hpc hok (hheld (by simp [Call.Holds, hpc]))⟩
    | finished => simp [Call.step, hpc] at hstep

structure Inv (s : State) : Prop where
  failure : s.failure = none
  layout : Layout s.pipe
  stream : s.delivered.map (·.2) ++ unread s.pipe = s.accepted.map (·.2)
  calls : ∀ t, (s.calls t).Ok (bytesOf t s.accepted) (bytesOf t s.delivered) s.pipe
  locked : ∀ t, (s.calls t).Holds → s.pipe.locked = true
  one : ∀ t t', (s.calls t).Holds → (s.calls t').Holds → t = t'
  together : ∀ t w, s.calls t = .writing w → w.Small → Together t s.accepted

variable {s : State} {e : Effect}

theorem Inv.init (h : pipeSystem.init s) : Inv s := by
  obtain ⟨⟨buffer, hpipe⟩, hidle, haccepted, hdelivered, hfailure⟩ := h
  have hlayout : Layout s.pipe ∧ unread s.pipe = [] := by
    rw [hpipe]
    cases buffer with
    | none => exact ⟨.inl ⟨rfl, rfl, rfl, rfl, rfl⟩, rfl⟩
    | some mem =>
      have hmem := choosePipespace_mem 0 0
      refine ⟨.inr ⟨_, rfl, rfl, hmem, Nat.zero_le _, ?_, ?_, fun _ => rfl⟩, rfl⟩
      · exact lt_of_lt_of_le (show 0 < 512 by decide) (mem_blocks_bounds hmem).1
      · simp
  refine ⟨hfailure, hlayout.1, ?_, ?_, ?_, ?_, ?_⟩
  · rw [hlayout.2, haccepted, hdelivered]
    rfl
  · intro t
    rw [hidle t, haccepted, hdelivered]
    exact ⟨rfl, rfl⟩
  · intro t h
    rw [hidle t] at h
    exact h.elim
  · intro t t' h
    rw [hidle t] at h
    exact h.elim
  · intro t w h
    rw [hidle t] at h
    cases h

theorem Inv.begin (h : Inv s) (hidle : s.calls t = .idle) (hnot : ¬call.Holds)
    (hok : call.Ok [] [] s.pipe) :
    Inv { s with calls := update s.calls t call } := by
  have hmine := h.calls t
  rw [hidle] at hmine
  obtain ⟨htaken, hgiven⟩ := hmine
  have hholds : ∀ u, (update s.calls t call u).Holds → (s.calls u).Holds := by
    intro u hu
    by_cases hut : u = t
    · subst hut
      rw [update_self] at hu
      exact absurd hu hnot
    · rwa [update_of_ne hut] at hu
  refine ⟨h.failure, h.layout, h.stream, fun u => ?_, fun u hu => h.locked u (hholds u hu),
    fun u u' hu hu' => h.one u u' (hholds u hu) (hholds u' hu'), fun u w hw hsmall => ?_⟩
  · by_cases hut : u = t
    · subst hut
      dsimp only
      rw [update_self, htaken, hgiven]
      exact hok
    · dsimp only
      rw [update_of_ne hut]
      exact h.calls u
  · by_cases hut : u = t
    · subst hut
      have hnil := @Together.of_nil u s.accepted [] htaken
      rwa [map_nil, append_nil] at hnil
    · dsimp only at hw
      rw [update_of_ne hut] at hw
      exact h.together u w hw hsmall

/-- A call that holds `pipeio_lock` keeps the others from the pipe. -/
theorem Inv.pipe_eq_of_holds {u : Nat} (h : Inv s)
    (hsound : Sound s.pipe (s.calls t) (bytesOf t s.accepted) (bytesOf t s.delivered) e)
    (hut : u ≠ t) (hu : (s.calls u).Holds) : e.pipe = s.pipe :=
  hsound.untouched (h.locked u hu) fun ht => hut (h.one u t hu ht)

theorem Inv.apply (h : Inv s)
    (hsound : Sound s.pipe (s.calls t) (bytesOf t s.accepted) (bytesOf t s.delivered) e) :
    Inv (s.apply t e) := by
  -- With a holder that is not `t`, the step of `t` did not take the lock.
  have hexclusive : ∀ u ≠ t, (s.calls u).Holds → ¬e.call.Holds := by
    intro u hut hu he
    have hlocked := h.locked u hu
    rw [hsound.acquired he fun ht => hut (h.one u t hu ht)] at hlocked
    cases hlocked
  have hself : (s.apply t e).calls t = e.call := update_self ..
  have hother : ∀ {u}, u ≠ t → (s.apply t e).calls u = s.calls u := fun hut =>
    update_of_ne hut ..
  refine ⟨h.failure, hsound.layout, ?_, fun u => ?_, fun u hu => ?_, fun u u' hu hu' => ?_,
    fun u w hw hsmall => ?_⟩
  · simp only [State.apply, map_append, map_map, comp_def, map_id']
    rw [append_assoc, ← hsound.stream, ← append_assoc, h.stream]
  · by_cases hut : u = t
    · subst hut
      rw [hself]
      simp only [State.apply, bytesOf_append_self]
      exact hsound.ok
    rw [hother hut]
    simp only [State.apply, bytesOf_append_of_ne hut]
    by_cases hu : (s.calls u).Holds
    · rw [h.pipe_eq_of_holds hsound hut hu]
      exact h.calls u
    · exact (h.calls u).of_not_holds hu
  · by_cases hut : u = t
    · subst hut
      rw [hself] at hu
      exact hsound.locked hu
    rw [hother hut] at hu
    show e.pipe.locked = true
    rw [h.pipe_eq_of_holds hsound hut hu]
    exact h.locked u hu
  · by_cases hut : u = t
    · by_cases hut' : u' = t
      · exact hut.trans hut'.symm
      · rw [hut, hself] at hu
        rw [hother hut'] at hu'
        exact absurd hu (hexclusive u' hut' hu')
    · rw [hother hut] at hu
      by_cases hut' : u' = t
      · rw [hut', hself] at hu'
        exact absurd hu' (hexclusive u hut hu)
      · rw [hother hut'] at hu'
        exact h.one u u' hu hu'
  · by_cases hut : u = t
    · subst hut
      rw [hself] at hw
      obtain ⟨w', hw', hdata⟩ := hsound.same w hw
      show Together u (s.accepted ++ e.accepted.map (u, ·))
      rcases hsound.small w hw hsmall with hnone | hnil
      · rw [hnone, map_nil, append_nil]
        exact h.together u w' hw' (by rw [Write.Small, hdata]; exact hsmall)
      · exact Together.of_nil hnil
    · rw [hother hut] at hw
      exact (h.together u w hw hsmall).append_of_ne hut

theorem Inv.step {s' : State} (h : Inv s) (hstep : PipeStep s s') : Inv s' := by
  cases hstep with
  | write t data hidle =>
    apply h.begin hidle id
    exact ⟨⟨rfl, fun _ => .inl rfl⟩, rfl⟩
  | read t resid hidle =>
    apply h.begin hidle id
    exact ⟨rfl, rfl⟩
  | run t o e hstep =>
    obtain ⟨e', he, hsound⟩ := Call.step_sound h.layout (h.calls t) (h.locked t) hstep
    cases he
    exact h.apply hsound
  | fail t o f hstep =>
    obtain ⟨e, he, -⟩ := Call.step_sound h.layout (h.calls t) (h.locked t) hstep
    cases he

theorem inv_always : pipeSystem.Always Inv :=
  System.always_of_step (fun _ => Inv.init) fun _ _ => Inv.step

structure Streams (s : State) : Prop where
  /-- No panic, and no copy outside of a buffer. -/
  failure : s.failure = none
  /-- What was delivered and what is unread is what was accepted. -/
  order : s.delivered.map (·.2) ++ unread s.pipe = s.accepted.map (·.2)
  /-- `cnt`, `in` and `out` describe the unread bytes. -/
  layout : Layout s.pipe
  /-- A writer that has finished gave what is not left of its data. -/
  writers : ∀ t w, s.calls t = .writing w → w.pc = .finished →
    w.data = bytesOf t s.accepted ++ w.left
  /-- A reader that has finished got what was delivered to it. -/
  readers : ∀ t r, s.calls t = .reading r → r.pc = .finished → r.got = bytesOf t s.delivered
  atomic : ∀ t w, s.calls t = .writing w → w.data.length ≤ pipeBuf → Together t s.accepted

theorem pipe_streams : pipeSystem.Always Streams := by
  intro s hs
  have h := inv_always s hs
  refine ⟨h.failure, h.stream, h.layout, fun t w hw hpc => ?_, fun t r hr hpc => ?_, h.together⟩
  · have hcall := h.calls t
    rw [hw] at hcall
    have hok := hcall.1
    simp only [Write.Ok, hpc] at hok
    exact hok.data
  · have hcall := h.calls t
    rw [hr] at hcall
    have hok := hcall.2
    simp only [Read.Ok, hpc] at hok
    exact hok

end XnuXzs.Pipe
