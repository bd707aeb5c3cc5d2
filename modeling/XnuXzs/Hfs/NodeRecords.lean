import XnuXzs.Hfs.BTreeNode

/-!
# Nodes as lists of records

What a node with a list of records looks like, byte by byte, and what the loops
over the offset table do to it.
-/

namespace XnuXzs.Hfs

open Lib List

variable (t : BTree)

def total (recs : List (List UInt8)) : Nat := recs.flatten.length

/-- The count of the records and the table of their offsets. -/
structure Table (m : Node) (n : Nat) (offset : Nat → Nat) : Prop where
  count : bytesAt m numRecordsAddress 2 = leBytes 2 n
  offsets : ∀ i ≤ n, bytesAt m (offsetAddress t i) 2 = leBytes 2 (offset i)

structure Holds (m : Node) (recs : List (List UInt8)) : Prop where
  table : Table t m recs.length fun i => descriptorSize + total (recs.take i)
  data : bytesAt m descriptorSize (total recs) = recs.flatten
  fits : descriptorSize + total recs + 2 * (recs.length + 1) ≤ t.nodeSize
  sizes : ∀ r ∈ recs, r ≠ [] ∧ r.length % 2 = 0

variable {before after recs : List (List UInt8)} {r : List UInt8}

theorem total_append : total (before ++ after) = total before + total after := by
  rw [total, flatten_append, length_append, total, total]

theorem total_cons : total (r :: after) = r.length + total after := by
  rw [total, flatten_cons, length_append, total]

theorem total_take_le (i : Nat) : total (recs.take i) ≤ total recs := by
  conv_rhs => rw [← take_append_drop i recs]
  rw [total_append]
  exact Nat.le_add_right ..

variable {t} {m : Node} {a i : Nat} {v : Int}

theorem load16_eq {v : Nat} (hv : v < 2 ^ 16) (hm : bytesAt m a 2 = leBytes 2 v) :
    load16 m a = v := by
  rw [load16, hm, leValue_leBytes]
  exact Nat.mod_eq_of_lt hv

theorem load16_congr {m' : Node} (hm : bytesAt m' a 2 = bytesAt m a 2) :
    load16 m' a = load16 m a := by rw [load16, load16, hm]

theorem Holds.numRecords_eq (h : Holds t m recs) : numRecords m = recs.length := by
  have := h.fits
  have := t.size_le
  exact load16_eq (by omega) h.table.count

theorem Holds.load_offset (h : Holds t m recs) (hi : i ≤ recs.length) :
    load16 m (offsetAddress t i) = descriptorSize + total (recs.take i) := by
  have := h.fits
  have := t.size_le
  have := @total_take_le recs i
  exact load16_eq (by omega) (h.table.offsets i hi)

theorem Holds.recordOffset_eq (h : Holds t m recs) (hi : i ≤ recs.length) :
    recordOffset t m i = (descriptorSize + total (recs.take i) : Nat) := by
  have := h.fits
  have := t.size_le
  have := @total_take_le recs i
  rw [recordOffset, h.load_offset hi]
  exact i16_eq (by omega) (by omega)

theorem Holds.nodeFreeSize_eq (h : Holds t m recs) :
    nodeFreeSize t m = t.nodeSize - (descriptorSize + total recs) - 2 * (recs.length + 1) := by
  have hfits := h.fits
  have hsize := t.size_le
  have hk : kOffsetSize = 2 := rfl
  rw [nodeFreeSize, h.numRecords_eq, h.recordOffset_eq le_rfl, take_length,
    u16_eq (x := (descriptorSize + total recs : Nat)) (by omega) (by omega),
      u16_eq (by omega) (by omega)]
  push_cast
  omega

theorem bytesAt_store16 (m : Node) (a : Nat) (v : Int) :
    bytesAt (store16 m a v) a 2 = leBytes 2 (u16 v).toNat := by
  have hself := bytesAt_storeBytes m a (leBytes 2 (u16 v).toNat)
  rwa [leBytes_length] at hself

theorem store16_outside {x : Nat} (hx : x < a ∨ a + 2 ≤ x) : store16 m a v x = m x :=
  storeBytes_outside (by rwa [leBytes_length])

theorem bytesAt_store16_apart {off n : Nat} (hoff : off + n ≤ a ∨ a + 2 ≤ off) :
    bytesAt (store16 m a v) off n = bytesAt m off n :=
  bytesAt_storeBytes_apart (by rwa [leBytes_length])

theorem shiftOffsetsUp_spec (delta : Int) (k : Nat) (m : Node) (a : Nat) :
    (∀ j ≤ k, bytesAt (shiftOffsetsUp delta k m (a + 2) a) (a + 2 * j) 2 =
      leBytes 2 (u16 (load16 m (a + 2 + 2 * j) + delta)).toNat) ∧
    ∀ x, x < a ∨ a + 2 * k + 2 ≤ x → shiftOffsetsUp delta k m (a + 2) a x = m x := by
  induction k generalizing m a with
  | zero =>
    refine ⟨fun j hj => ?_, fun x hx => store16_outside (by omega)⟩
    obtain rfl : j = 0 := by omega
    exact bytesAt_store16 ..
  | succ k ih =>
    obtain ⟨hmoved, hrest⟩ := ih (store16 m a (load16 m (a + 2) + delta)) (a + 2)
    simp only [shiftOffsetsUp]
    refine ⟨fun j hj => ?_, fun x hx => ?_⟩
    · rcases j with _ | j
      · exact (bytesAt_eq_of_same fun x _ hx => hrest x (by omega)).trans (bytesAt_store16 ..)
      have hj := hmoved j (by omega)
      rw [load16_congr (bytesAt_store16_apart (by omega))] at hj
      rw [show a + 2 * (j + 1) = a + 2 + 2 * j by ring, hj,
        show a + 2 + 2 * (j + 1) = a + 2 + 2 + 2 * j by ring]
    · rw [hrest x (by omega)]
      exact store16_outside (by omega)

theorem shiftOffsetsDown_spec (delta : Int) (k : Nat) (m : Node) (d : Nat) (hd : 2 * k + 2 ≤ d) :
    (∀ j < k, bytesAt (shiftOffsetsDown delta k m (d - 2) d) (d - 2 - 2 * j) 2 =
      leBytes 2 (u16 (load16 m (d - 4 - 2 * j) - delta)).toNat) ∧
    ∀ x, x < d - 2 * k ∨ d ≤ x → shiftOffsetsDown delta k m (d - 2) d x = m x := by
  induction k generalizing m d with
  | zero => exact ⟨nofun, fun x _ => rfl⟩
  | succ k ih =>
    obtain ⟨hmoved, hrest⟩ :=
      ih (store16 m (d - 2) (load16 m (d - 2 - 2) - delta)) (d - 2) (by omega)
    simp only [shiftOffsetsDown]
    refine ⟨fun j hj => ?_, fun x hx => ?_⟩
    · rcases j with _ | j
      · exact (bytesAt_eq_of_same fun x hx _ => hrest x (by omega)).trans (bytesAt_store16 ..)
      have hj := hmoved j (by omega)
      rw [load16_congr (bytesAt_store16_apart (by omega))] at hj
      rwa [show d - 2 - 2 * (j + 1) = d - 2 - 2 - 2 * j by omega,
        show d - 4 - 2 * (j + 1) = d - 2 - 4 - 2 * j by omega]
    · rw [hrest x (by omega)]
      exact store16_outside (by omega)

end XnuXzs.Hfs
