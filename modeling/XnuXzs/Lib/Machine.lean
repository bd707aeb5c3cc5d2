import Mathlib.Tactic

/-!
# Machine integers as integers

Conversion of an integer to a C type: the value modulo the width, signed or
unsigned. Arithmetic is done on integers and converted where the source assigns
or converts.
-/

namespace XnuXzs.Lib

def i16 (x : Int) : Int := (x + 2 ^ 15) % 2 ^ 16 - 2 ^ 15
def u16 (x : Int) : Int := x % 2 ^ 16
def i32 (x : Int) : Int := (x + 2 ^ 31) % 2 ^ 32 - 2 ^ 31
def u32 (x : Int) : Int := x % 2 ^ 32
def i64 (x : Int) : Int := (x + 2 ^ 63) % 2 ^ 64 - 2 ^ 63
def u64 (x : Int) : Int := x % 2 ^ 64

variable {x : Int} {a b : Nat}

theorem i16_eq (h : -2 ^ 15 ≤ x) (h' : x < 2 ^ 15) : i16 x = x := by
  unfold i16
  omega

theorem u16_eq (h : 0 ≤ x) (h' : x < 2 ^ 16) : u16 x = x := by
  unfold u16
  omega

theorem i16_of_nonneg (h : 0 ≤ x) (h' : x < 2 ^ 16) (hi : 0 ≤ i16 x) : i16 x = x := by
  unfold i16 at hi ⊢
  omega

theorem i16_add_sub (hb : b < 2 ^ 15) :
    i16 ((a + b : Nat) - (a : Nat) : Int) = (b : Nat) := by
  rw [Nat.cast_add, add_sub_cancel_left]
  exact i16_eq (by omega) (by omega)

theorem u16_add_sub (hb : b < 2 ^ 16) :
    u16 ((a + b : Nat) - (a : Nat) : Int) = (b : Nat) := by
  rw [Nat.cast_add, add_sub_cancel_left]
  exact u16_eq (by omega) (by omega)

theorem u16_toNat {x : Nat} (hx : x < 2 ^ 16) : (u16 x).toNat = x := by
  rw [u16_eq (by omega) (by omega)]
  rfl

theorem i32_eq (h : -2 ^ 31 ≤ x) (h' : x < 2 ^ 31) : i32 x = x := by
  unfold i32
  omega

theorem u32_eq (h : 0 ≤ x) (h' : x < 2 ^ 32) : u32 x = x := by
  unfold u32
  omega

theorem i64_eq (h : -2 ^ 63 ≤ x) (h' : x < 2 ^ 63) : i64 x = x := by
  unfold i64
  omega

theorem u64_eq (h : 0 ≤ x) (h' : x < 2 ^ 64) : u64 x = x := by
  unfold u64
  omega

theorem u64_toNat {x : Nat} (hx : x < 2 ^ 64) : (u64 x).toNat = x := by
  rw [u64_eq (by omega) (by omega)]
  rfl

end XnuXzs.Lib
