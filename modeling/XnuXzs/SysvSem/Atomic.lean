import XnuXzs.SysvSem.Rollback

/-!
# Calls that fail leave nothing behind

A call of `semop` that fails leaves no trace if and only if its vector has no effect before a
number that is too large, and loses no adjustment before one without room.
-/

namespace XnuXzs.SysvSem

open List

/-- All values and all adjustments are as they were. -/
structure Restored (s s' : State) : Prop where
  values : ∀ id n, vals (s'.set id).sems n = vals (s.set id).sems n
  undo : SameUndo s'.undo s.undo

/-- The call does not fail with a part of its vector applied, nor bring the system down. -/
def Atomic (s : State) : State × Outcome → Prop
  | (s', .failed _) => Restored s s'
  | (_, .panics) => False
  | _ => True

theorem prepare_spec (c : Call) (set : SemSet) (k : Acquired) :
    (prepare c set k).1.nsems = set.nsems ∧ vals (prepare c set k).1.sems = vals set.sems := by
  cases k with
  | first => exact ⟨rfl, rfl⟩
  | woken =>
    rw [prepare]
    split
    · exact ⟨rfl, rfl⟩
    · exact ⟨rfl, vals_countWaiters ..⟩

theorem restored_update_iff {s : State} {id : Nat} {set' : SemSet} {u' : Semu} :
    Restored s ⟨Function.update s.set id set', u'⟩ ↔
      (∀ n, vals set'.sems n = vals (s.set id).sems n) ∧ SameUndo u' s.undo := by
  constructor
  · rintro ⟨hvals, hundo⟩
    refine ⟨fun n => ?_, hundo⟩
    simpa using hvals id n
  rintro ⟨hvals, hundo⟩
  refine ⟨fun id' n => ?_, hundo⟩
  by_cases hid : id' = id
  · subst hid
    simpa using hvals n
  · simp [hid]

section
variable [Limits]

/-- No effect comes before an operation with too large a number, and an adjustment is refused
only if those before it are found again. -/
structure Safe (c : Call) (set : SemSet) (u : Semu) : Prop where
  number : ∀ front op back, c.ops = front ++ op :: back → set.nsems ≤ op.num →
    Performable set.nsems front (vals set.sems) → ∀ n, netChange front n = 0
  entry : ∀ front op back u' e, c.ops = front ++ op :: back →
    Performable set.nsems c.ops (vals set.sems) → adjustOps c [] front u = .ok u' →
    op.skipped = false →
    semundoAdjust c.grows u' c.proc c.semid op.num.toNat (-op.op.toInt) = .error e →
    ∀ x ∈ front, large x = false

variable {c : Call} {undos : Bool} {set : SemSet} {u : Semu} {front back : List Sembuf}
  {op : Sembuf} {p : Progress} {e : Errno}

def AtomicRound (set : SemSet) (u : Semu) : SemSet × Semu × Outcome → Prop
  | (set', u', .failed _) => (∀ n, vals set'.sems n = vals set.sems n) ∧ SameUndo u' u
  | (_, _, .panics) => False
  | _ => True

theorem attempt_tooBig (hops : c.ops = front ++ op :: back) (hbig : set.nsems ≤ op.num)
    (hdone : performOps set.nsems front 0 ⟨set.sems, false, undos⟩ = .done p) :
    attempt c undos set u = ({ set with sems := p.sems }, u, .failed .efbig) := by
  have hloop : performOps set.nsems c.ops 0 ⟨set.sems, false, undos⟩ = .tooBig p := by
    rw [hops, performOps_append _ hdone, performOps, if_pos hbig]
  simp [attempt, hloop]

theorem attempt_refused {u' : Semu} (hops : c.ops = front ++ op :: back)
    (hdone : performOps set.nsems c.ops 0 ⟨set.sems, false, undos⟩ = .done p)
    (hok : adjustOps c [] front u = .ok u') (hskip : op.skipped = false)
    (hrefused : semundoAdjust c.grows u' c.proc c.semid op.num.toNat (-op.op.toInt) = .error e) :
    attempt c undos set u = match unadjustOps c front.reverse u' with
      | none => ({ set with sems := p.sems }, u', .panics)
      | some v => ({ set with sems := rollback c.ops p.sems }, v, .failed e) := by
  have hundos : p.undos = true := by
    rw [(performOps_done hdone).undos, hops]
    simp [hskip]
  have hadjust : adjustOps c [] c.ops u = .failed e front.reverse u' := by
    rw [hops, adjustOps_append _ hok, adjustOps_refused _ hskip hrefused, append_nil]
  cases hback : unadjustOps c front.reverse u' <;>
    simp [attempt, hdone, finish, hundos, hadjust, hback]

theorem safe_of_atomic (hsound : Sound u.active)
    (hatomic : AtomicRound set u (attempt c undos set u)) : Safe c set u := by
  constructor
  · intro front op back hops hbig hfront n
    obtain ⟨p, hdone⟩ := @Performable.done _ 0 ⟨set.sems, false, undos⟩ _ hfront
    rw [attempt_tooBig hops hbig hdone] at hatomic
    have hval := hatomic.1 n
    rw [(performOps_done hdone).values n] at hval
    exact UInt16.add_eq_left.mp hval
  · intro front op back u' e hops hall hok hskip hrefused
    obtain ⟨p, hdone⟩ := @Performable.done _ 0 ⟨set.sems, false, undos⟩ _ hall
    rw [attempt_refused hops hdone hok hskip hrefused] at hatomic
    cases hback : unadjustOps c front.reverse u' with
    | none =>
      rw [hback] at hatomic
      exact hatomic.elim
    | some v =>
      rw [hback] at hatomic
      -- Entries that are not found again only become more.
      obtain ⟨hsound', hlost⟩ := adjustOps_lost hsound hok
      have hmore := (unadjustOps_lost hsound' hback).2
      have hsame : lost (entriesOf c.proc v.active) = lost (entriesOf c.proc u.active) :=
        (hatomic.2 c.proc).countP_eq _
      have hnone : front.countP large = 0 := by omega
      intro x hx
      simpa using countP_eq_zero.mp hnone x hx

theorem atomic_of_safe (hsound : Sound u.active) (hsafe : Safe c set u) :
    AtomicRound set u (attempt c undos set u) := by
  have hrollback : ∀ {front : List Sembuf} {p : Progress},
      performOps set.nsems front 0 ⟨set.sems, false, undos⟩ = .done p →
      ∀ n, vals (rollback front p.sems) n = vals set.sems n := by
    intro front p hdone n
    rw [vals_rollback, (performOps_done hdone).values, UInt16.add_sub_cancel]
  cases hloop : performOps set.nsems c.ops 0 ⟨set.sems, false, undos⟩ with
  | tooBig p =>
    obtain ⟨front, op, back, hops, hbig, hdone⟩ := performOps_tooBig hloop
    rw [attempt_tooBig hops hbig hdone]
    refine ⟨fun n => ?_, fun _ => .rfl⟩
    have hperformed := performOps_done hdone
    rw [hperformed.values, hsafe.number front op back hops hbig hperformed.performable n,
      UInt16.add_zero]
  | blocked i op p =>
    obtain ⟨front, back, hops, rfl, hdone⟩ := performOps_blocked hloop
    have htake : c.ops.take (0 + front.length) = front := by simp [hops]
    simp only [attempt, hloop, htake]
    split
    · exact ⟨hrollback hdone, fun _ => .rfl⟩
    · trivial
  | done p =>
    by_cases hundos : p.undos = true
    · cases hadjust : adjustOps c [] c.ops u with
      | ok u' =>
        simp only [attempt, hloop, finish, hundos, if_true, hadjust]
        trivial
      | failed e ops' u' =>
        obtain ⟨front, op, back, hops, hok, hskip, hrefused⟩ := adjustOps_failed hadjust
        have hfits := hsafe.entry front op back u' e hops (performOps_done hloop).performable hok
          hskip hrefused
        obtain ⟨v, hback, hsame, -⟩ := unadjustOps_restores hsound hfits hok
        rw [attempt_refused hops hloop hok hskip hrefused, hback]
        exact ⟨hrollback hloop, hsame⟩
    · simp only [attempt, hloop, finish, hundos, Bool.false_eq_true, if_false]
      trivial

theorem attempt_sound (hsound : Sound u.active) : Sound (attempt c undos set u).2.1.active := by
  unfold attempt
  split
  · exact hsound
  · dsimp only
    split <;> exact hsound
  unfold finish
  split
  · cases hadjust : adjustOps c [] c.ops u with
    | ok => exact (adjustOps_lost hsound hadjust).1
    | failed e ops' u' =>
      obtain ⟨front, op, back, -, hok, -⟩ := adjustOps_failed hadjust
      have hsound' := (adjustOps_lost hsound hok).1
      cases hback : unadjustOps c ops' u' with
      | none =>
        simp only [hback]
        exact hsound'
      | some v =>
        simp only [hback]
        exact (unadjustOps_lost hsound' hback).1
  · exact hsound

/-- If the call gets to a round, its vector is safe. -/
def CallSafe (c : Call) (k : Acquired) (s : State) : Prop :=
  (prepare c (s.set c.semid) k).2 = none → Safe c (s.set c.semid) s.undo

variable {k : Acquired} {s : State}

theorem safe_prepare_iff :
    Safe c (prepare c set k).1 u ↔ Safe c set u := by
  obtain ⟨hnsems, hvals⟩ := prepare_spec c set k
  constructor
  · intro h
    exact ⟨hnsems ▸ hvals ▸ h.number, hnsems ▸ hvals ▸ h.entry⟩
  · intro h
    exact ⟨hnsems.symm ▸ hvals.symm ▸ h.number, hnsems.symm ▸ hvals.symm ▸ h.entry⟩

theorem semop_error (herror : (prepare c (s.set c.semid) k).2 = some e) :
    semop c k s =
      (⟨Function.update s.set c.semid (prepare c (s.set c.semid) k).1, s.undo⟩, .failed e) := by
  simp [semop, herror]

theorem semop_round (hnone : (prepare c (s.set c.semid) k).2 = none) :
    semop c k s =
      let r := attempt c k.undos (prepare c (s.set c.semid) k).1 s.undo
      (⟨Function.update s.set c.semid r.1, r.2.1⟩, r.2.2) := by
  simp [semop, hnone]

theorem semop_atomic_iff (hsound : Sound s.undo.active) :
    Atomic s (semop c k s) ↔ CallSafe c k s := by
  obtain ⟨-, hvals⟩ := prepare_spec c (s.set c.semid) k
  cases herror : (prepare c (s.set c.semid) k).2 with
  | some e =>
    rw [semop_error herror]
    refine iff_of_true (restored_update_iff.mpr ⟨congrFun hvals, fun _ => .rfl⟩) ?_
    intro hnone
    rw [herror] at hnone
    cases hnone
  | none =>
    rw [semop_round herror]
    have hround : AtomicRound (prepare c (s.set c.semid) k).1 s.undo
        (attempt c k.undos (prepare c (s.set c.semid) k).1 s.undo) ↔
          Safe c (s.set c.semid) s.undo :=
      ⟨fun h => safe_prepare_iff.mp (safe_of_atomic hsound h),
        fun h => atomic_of_safe hsound (safe_prepare_iff.mpr h)⟩
    rw [CallSafe, herror, eq_self, true_imp_iff, ← hround]
    generalize attempt c k.undos (prepare c (s.set c.semid) k).1 s.undo = r
    obtain ⟨set', u', outcome⟩ := r
    cases outcome with
    | failed e =>
      rw [AtomicRound, hvals]
      exact restored_update_iff
    | success | sleeps | panics => exact Iff.rfl

theorem semop_sound (hsound : Sound s.undo.active) : Sound (semop c k s).1.undo.active := by
  cases herror : (prepare c (s.set c.semid) k).2 with
  | some e =>
    rw [semop_error herror]
    exact hsound
  | none =>
    rw [semop_round herror]
    exact attempt_sound hsound

theorem Sound.cleared {active active' : List SemUndo} (h : Sound active)
    (hcleared : List.Forall₂ (fun su su' => su'.proc = su.proc ∧ su'.entries.Sublist su.entries)
      active active') : Sound active' := by
  have hprocs : active'.map (·.proc) = active.map (·.proc) := by
    induction hcleared with
    | nil => rfl
    | cons hsu _ ih => simp [hsu.1, ih (h.sublist (sublist_cons_self ..))]
  constructor
  · apply pairwise_map.mp
    rw [hprocs]
    exact pairwise_map.mpr h.procs
  clear hprocs
  induction hcleared with
  | nil => simp
  | cons hsu _ ih =>
    rintro su (_ | ⟨_, hmem⟩)
    · exact (h.tidy _ mem_cons_self).sublist hsu.2
    · exact ih (h.sublist (sublist_cons_self ..)) su hmem

theorem sem_sound : semSystem.Always fun s => Sound s.undo.active := by
  apply Lib.System.always_of_step
  · rintro s ⟨hactive, -⟩
    rw [hactive]
    exact ⟨.nil, by simp⟩
  intro s s' hsound hstep
  cases hstep with
  | semop => exact semop_sound hsound
  | exit => exact hsound.sublist filter_sublist
  | control set active hcleared => exact hsound.cleared hcleared

/-- In every state of every run, a call is atomic exactly when it is safe. -/
theorem semop_atomic (c : Call) (k : Acquired) :
    semSystem.Always fun s => Atomic s (semop c k s) ↔ CallSafe c k s := by
  intro s hs
  exact semop_atomic_iff (sem_sound s hs)

end

/-- What the source sets, for semaphores of 12 bytes. -/
instance limitseminfo : Limits := ⟨10, 1048576 / 12, by decide⟩

def oneSem : State where
  set _ := ⟨true, 0, 1, 0, fun _ => ⟨0, 0, 0, 0⟩⟩
  undo := ⟨[], 0⟩

/-- One is added to semaphore 0, and then to semaphore 1, which does not exist. -/
def twoOps : Call where
  proc := 1
  semid := 0
  seq := 0
  nsops := 2
  sops i := ⟨UInt16.ofNat i, 1, false, false⟩
  pid := 1
  time := 0
  grows := true

theorem twoOps_notAtomic : semSystem.Reachable oneSem ∧
    (semop twoOps (.first true none none none) oneSem).2 = .failed .efbig ∧
    ¬Restored oneSem (semop twoOps (.first true none none none) oneSem).1 := by
  refine ⟨.start ⟨rfl, rfl⟩, rfl, fun h => ?_⟩
  have hval := h.values 0 0
  exact absurd hval (by decide)

end XnuXzs.SysvSem
