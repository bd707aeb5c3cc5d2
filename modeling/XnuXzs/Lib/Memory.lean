import XnuXzs.Lib.Bytes

/-!
# Stores to memory

A block of bytes is stored at an address; a copy reads all of its source first,
so that source and destination may overlap. What a store leaves alone is read as
before.
-/

namespace XnuXzs.Lib

open List

def storeBytes (m : Nat → UInt8) (a : Nat) (bytes : List UInt8) : Nat → UInt8 := fun x =>
  if a ≤ x then bytes[x - a]?.getD (m x) else m x

/-- `bcopy` -/
def moveBytes (m : Nat → UInt8) (src dst n : Nat) : Nat → UInt8 :=
    storeBytes m dst (bytesAt m src n)

/-- `bzero` -/
def clearBytes (m : Nat → UInt8) (a n : Nat) : Nat → UInt8 := storeBytes m a (List.replicate n 0)

theorem leBytes_leValue (bytes : List UInt8) : leBytes bytes.length (leValue bytes) = bytes := by
  induction bytes with
  | nil => rfl
  | cons b bs ih =>
    have hlt := b.toNat_lt
    have hlow : UInt8.ofNat (b.toNat + 256 * leValue bs) = b := by
      apply UInt8.toNat_inj.mp
      rw [UInt8.toNat_ofNat']
      omega
    have hhigh : (b.toNat + 256 * leValue bs) / 256 = leValue bs := by omega
    rw [length_cons, leBytes, leValue, hlow, hhigh, ih]

theorem leValue_lt (bytes : List UInt8) : leValue bytes < 256 ^ bytes.length := by
  induction bytes with
  | nil => exact one_pos
  | cons b bs ih =>
    have hlt := b.toNat_lt
    rw [leValue, length_cons, pow_succ]
    omega

variable {m : Nat → UInt8} {a x off n k : Nat} {bytes : List UInt8}

theorem storeBytes_outside (hx : x < a ∨ a + bytes.length ≤ x) : storeBytes m a bytes x = m x := by
  unfold storeBytes
  split
  · rw [List.getElem?_eq_none (by omega)]
    rfl
  · rfl

theorem storeBytes_inside {i : Nat} (hi : i < bytes.length) :
    storeBytes m a bytes (a + i) = bytes[i] := by
  rw [storeBytes, if_pos (Nat.le_add_right ..), Nat.add_sub_cancel_left,
    List.getElem?_eq_getElem hi]
  rfl

theorem bytesAt_storeBytes (m : Nat → UInt8) (a : Nat) (bytes : List UInt8) :
    bytesAt (storeBytes m a bytes) a bytes.length = bytes :=
  bytesAt_eq_of_getElem fun _ hi => storeBytes_inside hi

theorem storeBytes_append (m : Nat → UInt8) (a : Nat) (xs ys : List UInt8) :
    storeBytes (storeBytes m a xs) (a + xs.length) ys = storeBytes m a (xs ++ ys) := by
  funext x
  simp only [storeBytes]
  by_cases hbehind : a + xs.length ≤ x
  · have hgone : xs[x - a]? = none := List.getElem?_eq_none (by omega)
    rw [if_pos hbehind, if_pos (by omega), if_pos (by omega), hgone,
      List.getElem?_append_right (by omega), Nat.sub_sub]
    rfl
  · by_cases hin : a ≤ x
    · rw [if_neg hbehind, if_pos hin, if_pos hin, List.getElem?_append_left (by omega)]
    · rw [if_neg hbehind, if_neg hin, if_neg hin]

theorem bytesAt_storeBytes_apart (hoff : off + n ≤ a ∨ a + bytes.length ≤ off) :
    bytesAt (storeBytes m a bytes) off n = bytesAt m off n :=
  bytesAt_congr fun _ hc => storeBytes_outside (by omega)

theorem bytesAt_eq_of_same {m' : Nat → UInt8} (hsame : ∀ x, off ≤ x → x < off + n → m' x = m x) :
    bytesAt m' off n = bytesAt m off n :=
  bytesAt_congr fun _ hc => hsame _ (Nat.le_add_right ..) (Nat.add_lt_add_left hc _)

theorem moveBytes_outside {src dst : Nat} (hx : x < dst ∨ dst + n ≤ x) :
    moveBytes m src dst n x = m x :=
  storeBytes_outside (by rwa [bytesAt_length])

theorem bytesAt_moveBytes (m : Nat → UInt8) (src dst n : Nat) :
    bytesAt (moveBytes m src dst n) dst n = bytesAt m src n := by
  have hself := bytesAt_storeBytes m dst (bytesAt m src n)
  rwa [bytesAt_length] at hself

theorem moveBytes_skip (m : Nat → UInt8) (src dst n : Nat) :
    (if (n : Int) = 0 then m else moveBytes m src dst n) = moveBytes m src dst n := by
  by_cases hn : n = 0
  · subst hn
    exact (funext fun x => moveBytes_outside (by omega)).symm
  · exact if_neg (by omega)

theorem clearBytes_outside (hx : x < a ∨ a + n ≤ x) : clearBytes m a n x = m x :=
  storeBytes_outside (by rwa [length_replicate])

theorem bytesAt_take (hk : k ≤ n) : (bytesAt m off n).take k = bytesAt m off k := by
  rw [← Nat.add_sub_of_le hk, bytesAt_append, take_left' (bytesAt_length ..)]

theorem bytesAt_drop (hk : k ≤ n) : (bytesAt m off n).drop k = bytesAt m (off + k) (n - k) := by
  rw [← Nat.add_sub_of_le hk, bytesAt_append, drop_left' (bytesAt_length ..),
    Nat.add_sub_cancel_left]

end XnuXzs.Lib
