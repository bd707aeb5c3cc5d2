import XnuXzs.SysvSem.UndoList

/-!
# Vectors that fail

An operation with too large a number is found in the middle of the vector, and what was done
before stays. The other exits take it back, except for adjustments not found again.
-/

namespace XnuXzs.SysvSem

open Function List

def vals (sems : Nat → Sem) (n : Nat) : UInt16 := (sems n).val

/-- What the operations add to the value of a semaphore. -/
def netChange (ops : List Sembuf) (n : Nat) : UInt16 :=
  match ops with
  | [] => 0
  | op :: rest => (if op.num.toNat = n then op.op.toUInt16 else 0) + netChange rest n

def addVal (op : Sembuf) (v : Nat → UInt16) : Nat → UInt16 :=
  fun n => v n + if op.num.toNat = n then op.op.toUInt16 else 0

def Ready (op : Sembuf) (v : Nat → UInt16) : Prop :=
  (op.op < 0 → 0 ≤ ((v op.num.toNat).toNat : Int) + op.op.toInt) ∧
    (op.op = 0 → v op.num.toNat = 0)

/-- The operations can be done one after the other. -/
def Performable (nsems : UInt16) : List Sembuf → (Nat → UInt16) → Prop
  | [], _ => True
  | op :: rest, v => op.num < nsems ∧ Ready op v ∧ Performable nsems rest (addVal op v)

theorem vals_changeVal (sems : Nat → Sem) (num : UInt16) (f : UInt16 → UInt16) (n : Nat) :
    vals (changeVal sems num f) n = if num.toNat = n then f (vals sems n) else vals sems n := by
  unfold vals changeVal
  split_ifs with h
  · rw [h, update_self]
  · rw [update_of_ne (Ne.symm h)]

theorem vals_add (p : Progress) (op : Sembuf) (wakeup : Bool) :
    vals (p.add op wakeup).sems = addVal op (vals p.sems) := by
  funext n
  simp only [Progress.add, vals_changeVal, addVal]
  split <;> simp

theorem addVal_zero {op : Sembuf} (h : op.op = 0) (v : Nat → UInt16) : addVal op v = v := by
  funext n
  have h0 : Int16.toUInt16 0 = 0 := rfl
  simp [addVal, h, h0]

theorem vals_rollback (ops : List Sembuf) (sems : Nat → Sem) (n : Nat) :
    vals (rollback ops sems) n = vals sems n - netChange ops n := by
  induction ops generalizing sems with
  | nil => simp [rollback, netChange]
  | cons op rest ih =>
    have hcons : rollback (op :: rest) sems =
        rollback rest (changeVal sems op.num (· - op.op.toUInt16)) := rfl
    rw [hcons, ih, vals_changeVal, netChange]
    split <;> grind

theorem vals_countWaiters (op : Sembuf) (f : UInt16 → UInt16) (sems : Nat → Sem) :
    vals (countWaiters op f sems) = vals sems := by
  funext n
  unfold vals countWaiters
  by_cases h : n = op.num.toNat
  · subst h
    rw [update_self]
    split <;> rfl
  · rw [update_of_ne h]

variable {nsems : UInt16} {i : Nat} {p p' : Progress} {ops : List Sembuf}

inductive Round (nsems : UInt16) (op : Sembuf) (p : Progress) : Prop
  | tooBig (h : nsems ≤ op.num) (eq : ∀ rest i, performOps nsems (op :: rest) i p = .tooBig p)
  | blocked (wait : ¬Ready op (vals p.sems))
      (eq : ∀ rest i, performOps nsems (op :: rest) i p = .blocked i op p)
  | next (p' : Progress) (h : op.num < nsems) (ready : Ready op (vals p.sems))
      (values : vals p'.sems = addVal op (vals p.sems))
      (undos : p'.undos = (p.undos || !op.skipped))
      (eq : ∀ rest i, performOps nsems (op :: rest) i p = performOps nsems rest (i + 1) p')

theorem round (nsems : UInt16) (op : Sembuf) (p : Progress) : Round nsems op p := by
  by_cases hbig : nsems ≤ op.num
  · exact .tooBig hbig fun rest i => by rw [performOps, if_pos hbig]
  have hnum := UInt16.not_le.mp hbig
  by_cases hneg : op.op < 0
  · have hne : op.op ≠ 0 := by
      intro h0
      rw [h0] at hneg
      exact absurd hneg (by decide)
    by_cases hval : ((p.sems op.num.toNat).val.toNat : Int) + op.op.toInt < 0
    · refine .blocked (fun ready => absurd (ready.1 hneg) (not_le.mpr hval)) fun rest i => ?_
      simp [performOps, hbig, hneg, hval]
    · refine .next _ hnum ⟨fun _ => not_lt.mp hval, fun h0 => absurd h0 hne⟩ (vals_add p op _) ?_
        fun rest i => by simp only [performOps, hbig, hneg, hval, if_true, if_false]; rfl
      simp [Progress.add, Sembuf.skipped, hne]
  by_cases hzero : op.op = 0
  · by_cases hval : 0 < (p.sems op.num.toNat).val
    · refine .blocked (fun ready => ?_) fun rest i => ?_
      · have h0 : (p.sems op.num.toNat).val = 0 := ready.2 hzero
        rw [h0] at hval
        exact absurd hval (by decide)
      · simp only [performOps]
        rw [if_neg hbig, if_neg hneg, if_pos hzero, if_pos hval]
    · refine .next p hnum ⟨fun h => absurd h hneg, fun _ => ?_⟩ (addVal_zero hzero _).symm ?_
        fun rest i => ?_
      · exact UInt16.le_zero_iff.mp (UInt16.not_lt.mp hval)
      · simp [Sembuf.skipped, hzero]
      · simp only [performOps]
        rw [if_neg hbig, if_neg hneg, if_pos hzero, if_neg hval]
  · refine .next _ hnum ⟨fun h => absurd h hneg, fun h => absurd h hzero⟩ (vals_add p op _) ?_
      fun rest i => by simp only [performOps, hbig, hneg, hzero, if_false]; rfl
    simp [Progress.add, Sembuf.skipped, hzero]

theorem performOps_append {front : List Sembuf} (rest : List Sembuf)
    (hdone : performOps nsems front i p = .done p') :
    performOps nsems (front ++ rest) i p = performOps nsems rest (i + front.length) p' := by
  induction front generalizing i p with
  | nil =>
    cases hdone
    rfl
  | cons op front ih =>
    rw [cons_append, length_cons, add_comm front.length, ← add_assoc]
    cases round nsems op p with
    | tooBig _ eq | blocked _ eq =>
      rw [eq] at hdone
      cases hdone
    | next p₁ _ _ _ _ eq =>
      rw [eq] at hdone ⊢
      exact ih hdone

/-- What is known when the loop gets through. -/
structure Performed (nsems : UInt16) (ops : List Sembuf) (p p' : Progress) : Prop where
  performable : Performable nsems ops (vals p.sems)
  values : ∀ n, vals p'.sems n = vals p.sems n + netChange ops n
  undos : p'.undos = (p.undos || ops.any fun op => !op.skipped)

theorem performOps_done (hdone : performOps nsems ops i p = .done p') :
    Performed nsems ops p p' := by
  induction ops generalizing i p with
  | nil =>
    cases hdone
    exact ⟨trivial, fun n => by simp [netChange], by simp⟩
  | cons op rest ih =>
    cases round nsems op p with
    | tooBig _ eq | blocked _ eq =>
      rw [eq] at hdone
      cases hdone
    | next p₁ hnum ready values undos eq =>
      rw [eq] at hdone
      have hrest := ih hdone
      refine ⟨⟨hnum, ready, values ▸ hrest.performable⟩, fun n => ?_, ?_⟩
      · rw [hrest.values, values, addVal, netChange, UInt16.add_assoc]
      · rw [hrest.undos, undos, any_cons, Bool.or_assoc]

theorem Performable.done {ops : List Sembuf} (h : Performable nsems ops (vals p.sems)) :
    ∃ p', performOps nsems ops i p = .done p' := by
  induction ops generalizing i p with
  | nil => exact ⟨p, rfl⟩
  | cons op rest ih =>
    obtain ⟨hnum, ready, hrest⟩ := h
    cases round nsems op p with
    | tooBig hbig => exact absurd hnum (UInt16.not_lt.mpr hbig)
    | blocked wait => exact absurd ready wait
    | next p₁ _ _ values _ eq =>
      rw [eq]
      exact ih (values ▸ hrest)

theorem performOps_tooBig (htoo : performOps nsems ops i p = .tooBig p') :
    ∃ front op back, ops = front ++ op :: back ∧ nsems ≤ op.num ∧
      performOps nsems front i p = .done p' := by
  induction ops generalizing i p with
  | nil => cases htoo
  | cons op rest ih =>
    cases round nsems op p with
    | tooBig hbig eq =>
      rw [eq] at htoo
      cases htoo
      exact ⟨[], op, rest, rfl, hbig, rfl⟩
    | blocked _ eq =>
      rw [eq] at htoo
      cases htoo
    | next p₁ _ _ _ _ eq =>
      rw [eq] at htoo
      obtain ⟨front, op', back, rfl, hbig, hdone⟩ := ih htoo
      exact ⟨op :: front, op', back, rfl, hbig, by rw [eq, hdone]⟩

theorem performOps_blocked {j : Nat} {op : Sembuf}
    (hblocked : performOps nsems ops i p = .blocked j op p') :
    ∃ front back, ops = front ++ op :: back ∧ j = i + front.length ∧
      performOps nsems front i p = .done p' := by
  induction ops generalizing i p with
  | nil => cases hblocked
  | cons op' rest ih =>
    cases round nsems op' p with
    | tooBig _ eq =>
      rw [eq] at hblocked
      cases hblocked
    | blocked _ eq =>
      rw [eq] at hblocked
      cases hblocked
      exact ⟨[], rest, rfl, rfl, rfl⟩
    | next p₁ _ _ _ _ eq =>
      rw [eq] at hblocked
      obtain ⟨front, back, rfl, rfl, hdone⟩ := ih hblocked
      refine ⟨op' :: front, back, rfl, ?_, by rw [eq, hdone]⟩
      rw [length_cons]
      omega

end XnuXzs.SysvSem
