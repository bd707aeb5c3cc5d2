import XnuXzs.Lib.Machine

/-!
# Sequence numbers

Numbers of 32 bits that count the positions of a stream and wrap. The difference of two
of them, as a signed number, is that of the positions while these are close.
-/

namespace XnuXzs.Lib

/-- `(int)(a - b)` -/
def seqDiff (a b : UInt32) : Int := i32 ((a.toNat : Int) - b.toNat)

def seqLt (a b : UInt32) : Bool := seqDiff a b < 0
def seqLeq (a b : UInt32) : Bool := seqDiff a b ≤ 0
def seqGt (a b : UInt32) : Bool := 0 < seqDiff a b
def seqGeq (a b : UInt32) : Bool := 0 ≤ seqDiff a b

/-- The number of a position of the stream that starts at `first`. -/
def seqAt (first : UInt32) (pos : Nat) : UInt32 := first + UInt32.ofNat pos

theorem seqAt_toNat (first : UInt32) (pos : Nat) :
    (seqAt first pos).toNat = (first.toNat + pos) % 2 ^ 32 := by
  rw [seqAt, UInt32.toNat_add, UInt32.toNat_ofNat']
  omega

theorem seqAt_add (first : UInt32) (pos n : Nat) :
    seqAt first pos + UInt32.ofNat n = seqAt first (pos + n) := by
  rw [seqAt, seqAt, UInt32.ofNat_add, UInt32.add_assoc]

theorem seqDiff_seqAt {first : UInt32} {x y : Nat} (hlo : y ≤ x + 2 ^ 31) (hhi : x < y + 2 ^ 31) :
    seqDiff (seqAt first x) (seqAt first y) = x - y := by
  unfold seqDiff i32
  rw [seqAt_toNat, seqAt_toNat]
  omega

theorem seqAt_inj {first : UInt32} {x y : Nat} (h : seqAt first x = seqAt first y)
    (hlo : y ≤ x) (hhi : x < y + 2 ^ 32) : x = y := by
  have hnat := congrArg UInt32.toNat h
  rw [seqAt_toNat, seqAt_toNat] at hnat
  omega

end XnuXzs.Lib
