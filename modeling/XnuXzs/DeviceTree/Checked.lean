import XnuXzs.DeviceTree.Decode

/-!
# Walkers that check what they read

Most walkers of the device tree check an address before they read it, and go forward with
every step. They panic or return on any bytes, and no read of theirs leaves the region.
-/

namespace XnuXzs.DeviceTree

open Lib

variable {r : Region} {p e k : Nat} {α β : Type} {name : List UInt8}

/-- A panic, or a result that meets `Q`: no read is outside, and the call comes to an end. -/
def Checked (x : Except Fault α) (Q : α → Prop) : Prop := Yields (· = Fault.panics) x Q

theorem checked_ok {a : α} {Q : α → Prop} (h : Q a) : Checked (.ok a) Q := h

theorem checked_reject {bad : Prop} [Decidable bad] :
    Checked (rejectIf Fault.panics bad) fun _ => ¬ bad := by
  apply yields_rejectIf
  rfl

theorem checked_assertIn : Checked (assertIn r p) fun _ => r.start ≤ p ∧ p ≤ r.stop :=
  checked_reject.mono fun _ h => by omega

theorem checked_word (hlo : r.start ≤ p) (hhi : p + 4 ≤ r.stop) :
    Checked (r.word p) fun _ => True := by
  rw [Region.word, if_pos ⟨hlo, hhi⟩]
  trivial

theorem checked_assertProp :
    Checked (assertProp r p) fun _ => r.start ≤ p ∧ p + propSize ≤ r.stop := by
  refine checked_assertIn.bind fun _ hp => checked_assertIn.bind fun _ hheader => ?_
  refine (checked_word (by omega) (by simp only [propSize, lengthAt] at *; omega)).bind
    fun _ _ => ?_
  refine checked_reject.bind fun _ _ => checked_assertIn.mono fun _ _ => ?_
  exact ⟨hp.1, hheader.2⟩

theorem checked_nextProp (hp : r.start ≤ p) : Checked (nextProp r p) fun q => p + propSize ≤ q := by
  refine checked_assertIn.bind fun _ hheader => ?_
  refine (checked_word (by omega) (by simp only [propSize, lengthAt] at *; omega)).bind
    fun length _ => checked_reject.bind fun _ _ => checked_ok ?_
  simp only [propSize]
  omega

theorem checked_times {step : Nat → Except Fault Nat} {I : Nat → Prop}
    (hstep : ∀ p, I p → Checked (step p) I) (hp : I p) : Checked (times step k p) I := by
  induction k generalizing p with
  | zero => exact hp
  | succ k ih => exact (hstep p hp).bind fun q hq => ih hq

/-- A null pointer, or an address from some point on. -/
def From (b q : Nat) : Prop := q = 0 ∨ b ≤ q

theorem checked_skipProperties (he : From r.start e) :
    Checked (skipProperties r e) fun q => q = 0 ∨ e + nodeSize ≤ q ∧ q ≤ r.stop := by
  rw [skipProperties]
  split
  · exact .inl rfl
  rename_i hnull
  have hlo : r.start ≤ e := he.resolve_left hnull
  refine checked_assertIn.bind fun _ hheader => ?_
  refine (checked_word hlo (by simp only [nodeSize] at *; omega)).bind fun n _ => ?_
  split
  · exact .inl rfl
  have hwalk : Checked (times (nextProp r) n (e + nodeSize)) fun q => e + nodeSize ≤ q :=
    checked_times (fun q hq => (checked_nextProp (by omega)).mono fun _ h => by omega) le_rfl
  refine hwalk.bind fun q hq => checked_assertIn.bind fun _ hin => ?_
  exact .inr ⟨hq, hin.2⟩

/-- Each level begins at least a header further on, so the depth suffices. -/
theorem checked_skipTree {depth root b : Nat} (hb : r.start ≤ b) (hdepth : 0 < depth)
    (henough : r.stop + 1 < b + depth) (hroot : From b root) :
    Checked (skipTree r depth root) (From b) := by
  induction depth generalizing root b with
  | zero => exact absurd hdepth (lt_irrefl 0)
  | succ depth ih =>
    have hlow := r.low
    refine checked_assertIn.bind fun _ hheader => ?_
    simp only [nodeSize] at hheader
    have hfrom := hroot.resolve_left (by omega)
    refine (checked_skipProperties (.inr (by omega))).bind fun entry hentry => ?_
    split
    · exact .inl rfl
    rename_i hnull
    simp only [nodeSize] at hentry
    refine (checked_word (by simp only [nChildrenAt]; omega)
      (by simp only [nChildrenAt]; omega)).bind fun k _ => ?_
    have hbelow : Checked (times (skipTree r depth) k entry) (From (root + 8)) :=
      checked_times (fun q hq => ih (by omega) (by omega) (by omega) hq) (.inr (by omega))
    exact hbelow.mono fun q hq => hq.imp_right (by omega)

theorem checked_getNextChild (he : From r.start e) : Checked (getNextChild r e) (From r.start) := by
  have hlow := r.low
  have hle := r.le
  exact checked_skipTree le_rfl (by omega) (by omega) he

theorem checked_strEq {s : List UInt8} (hlo : r.start ≤ p) (hhi : p + s.length < r.stop) :
    Checked (strEq r p s) fun _ => True := by
  induction s generalizing p with
  | nil =>
    rw [strEq, Region.byte, if_pos ⟨hlo, hhi⟩]
    trivial
  | cons c cs ih =>
    rw [List.length_cons] at hhi
    rw [strEq, Region.byte, if_pos ⟨hlo, by omega⟩, ok_bind]
    split
    · exact ih (by omega) (by omega)
    · trivial

theorem checked_findProp (hname : name.length < propNameLength)
    (hp : r.start ≤ p) : Checked (findProp r name k p) fun found =>
      ∀ v ∈ found, r.start ≤ v.1 := by
  induction k generalizing p with
  | zero => exact checked_ok fun v hv => by cases hv
  | succ k ih =>
    refine checked_assertProp.bind fun _ hprop => ?_
    simp only [propNameLength, propSize] at hname hprop
    refine (checked_strEq hprop.1 (by omega)).bind fun same _ => ?_
    cases same with
    | true =>
      refine (checked_word (by omega) (by simp only [lengthAt]; omega)).bind fun length _ => ?_
      refine checked_ok fun v hv => ?_
      cases hv
      omega
    | false => exact (checked_nextProp hp).bind fun q hq => ih (by omega)

theorem checked_getProperty (he : From r.start e)
    (hname : name.length < propNameLength) : Checked (getProperty r e name) fun found =>
      ∀ v ∈ found, r.start ≤ v.1 := by
  rw [getProperty]
  split
  · exact checked_ok fun v hv => by cases hv
  rename_i hnull
  have hlo := he.resolve_left hnull
  refine checked_assertIn.bind fun _ hheader => ?_
  refine (checked_word hlo (by simp only [nodeSize] at *; omega)).bind fun n _ => ?_
  exact checked_findProp hname (by omega)

end XnuXzs.DeviceTree
