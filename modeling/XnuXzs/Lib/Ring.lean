import XnuXzs.Lib.Memory

/-!
# Rings

`n` bytes of a ring of some size, from a position on, which may go on at the start of
the ring.
-/

namespace XnuXzs.Lib

open List

def ringAt (m : Nat → UInt8) (size start n : Nat) : List UInt8 :=
  (List.range n).map fun i => m ((start + i) % size)

variable {m m' : Nat → UInt8} {size start n start' : Nat}

theorem ringAt_add (m : Nat → UInt8) (size start a b : Nat) :
    ringAt m size start (a + b) = ringAt m size start a ++ ringAt m size (start + a) b := by
  simp [ringAt, range_add, add_assoc]

theorem ringAt_congr {size' : Nat}
    (h : ∀ i < n, m ((start + i) % size) = m' ((start' + i) % size')) :
    ringAt m size start n = ringAt m' size' start' n := by
  apply map_congr_left
  intro i hi
  exact h i (mem_range.mp hi)

theorem ringAt_of_mod_eq (h : start % size = start' % size) :
    ringAt m size start n = ringAt m size start' n :=
  ringAt_congr fun i _ => by rw [Nat.add_mod, h, ← Nat.add_mod]

theorem ringAt_straight (h : start + n ≤ size) : ringAt m size start n = bytesAt m start n := by
  apply map_congr_left
  intro i hi
  rw [Nat.mod_eq_of_lt (lt_of_lt_of_le (Nat.add_lt_add_left (mem_range.mp hi) _) h)]

theorem ringAt_split {seg : Nat} (hseg : seg ≤ n) (hend : start + seg ≤ size)
    (hturn : seg < n → start + seg = size) (hn : n ≤ size) :
    ringAt m size start n = bytesAt m start seg ++ bytesAt m 0 (n - seg) := by
  rw [← Nat.add_sub_of_le hseg, ringAt_add, ringAt_straight hend, Nat.add_sub_cancel_left]
  congr 1
  rcases lt_or_eq_of_le hseg with hlt | rfl
  · rw [hturn hlt, ringAt_of_mod_eq (show size % size = 0 % size by simp),
      ringAt_straight (by omega)]
  · simp [ringAt, bytesAt]

end XnuXzs.Lib
