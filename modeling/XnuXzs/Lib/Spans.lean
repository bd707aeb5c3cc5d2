import Mathlib.Data.List.TakeWhile
import Mathlib.Tactic

/-!
# Pieces of a sequence of bytes

Pieces that have a start and a length, in a list. In an ordered list each piece ends
before the later ones start; in a contiguous one each starts where the one before ends.
-/

namespace XnuXzs.Lib

open List

variable {α β : Type} {start len : α → Nat} {xs ys : List α} {x a : α} {k n e : Nat}

/-- In order of start, and pairwise disjoint. -/
def Successive (start len : α → Nat) (xs : List α) : Prop :=
  xs.Pairwise fun a b => start a + len a ≤ start b

theorem Successive.insert (hxs : Successive start len xs) (hys : Successive start len ys)
    (hbefore : ∀ a ∈ xs, start a + len a ≤ start x) (hafter : ∀ b ∈ ys, start x + len x ≤ start b) :
    Successive start len (xs ++ x :: ys) := by
  refine pairwise_append.mpr ⟨hxs, pairwise_cons.mpr ⟨hafter, hys⟩, ?_⟩
  intro a ha b hb
  have hax := hbefore a ha
  rcases mem_cons.mp hb with rfl | hb
  · exact hax
  · have hxb := hafter b hb
    omega

theorem mem_takeWhile_le (h : a ∈ xs.takeWhile fun y => decide (start y ≤ k)) :
    start a ≤ k := by
  simpa using mem_takeWhile_imp h

theorem Successive.lt_of_mem_dropWhile (h : Successive start len xs) {b : α}
    (hb : b ∈ xs.dropWhile fun y => decide (start y ≤ k)) : k < start b := by
  induction xs with
  | nil => cases hb
  | cons y ys ih =>
    obtain ⟨hy, hys⟩ := pairwise_cons.mp h
    by_cases hk : start y ≤ k
    · rw [dropWhile_cons_of_pos (by simpa using hk)] at hb
      exact ih hys hb
    rw [dropWhile_cons_of_neg (by simpa using hk)] at hb
    rcases mem_cons.mp hb with rfl | hb
    · omega
    · have := hy b hb
      omega

theorem Successive.le_getLast (h : Successive start len xs) (hx : xs.getLast? = some x)
    (ha : a ∈ xs) :
    start a + len a ≤ start x + len x := by
  obtain ⟨zs, rfl⟩ := getLast?_eq_some_iff.mp hx
  rcases mem_append.mp ha with ha | ha
  · have := (pairwise_append.mp h).2.2 a ha x (mem_singleton_self x)
    omega
  · rw [mem_singleton.mp ha]

/-- Where the last piece ends, if each one starts where the one before ends. -/
def contiguous (start len : α → Nat) : Nat → List α → Option Nat
  | next, [] => some next
  | next, x :: xs => if start x = next then contiguous start len (next + len x) xs else none

theorem contiguous_cons (h : contiguous start len n (x :: xs) = some e) :
    start x = n ∧ contiguous start len (n + len x) xs = some e := by
  rw [contiguous] at h
  split at h
  · next hx => exact ⟨hx, h⟩
  · cases h

theorem contiguous_le (h : contiguous start len n xs = some e) : n ≤ e := by
  induction xs generalizing n with
  | nil =>
    cases h
    exact le_rfl
  | cons y ys ih =>
    obtain ⟨-, htail⟩ := contiguous_cons h
    have := ih htail
    omega

theorem contiguous_mem (h : contiguous start len n xs = some e) (hx : x ∈ xs) :
    n ≤ start x ∧ start x + len x ≤ e := by
  induction xs generalizing n with
  | nil => cases hx
  | cons y ys ih =>
    obtain ⟨hy, htail⟩ := contiguous_cons h
    rcases mem_cons.mp hx with rfl | hx
    · have := contiguous_le htail
      omega
    · have := ih htail hx
      omega

theorem contiguous_getLast (h : contiguous start len n xs = some e) (hx : xs.getLast? = some x) :
    start x + len x = e := by
  induction xs generalizing n with
  | nil => cases hx
  | cons y ys ih =>
    obtain ⟨hy, htail⟩ := contiguous_cons h
    cases ys with
    | nil =>
      rw [getLast?_singleton] at hx
      cases hx
      cases htail
      omega
    | cons z zs =>
      rw [getLast?_cons_cons] at hx
      exact ih htail hx

variable {data : α → List β}

theorem contiguous_length (h : contiguous start len n xs = some e)
    (hlen : ∀ a ∈ xs, (data a).length = len a) : n + (xs.flatMap data).length = e := by
  induction xs generalizing n with
  | nil =>
    cases h
    rfl
  | cons y ys ih =>
    obtain ⟨-, htail⟩ := contiguous_cons h
    have := ih htail fun a ha => hlen a (mem_cons_of_mem y ha)
    have hy := hlen y mem_cons_self
    simp only [flatMap_cons, length_append]
    omega

theorem contiguous_byte (h : contiguous start len n xs = some e)
    (hlen : ∀ a ∈ xs, (data a).length = len a) (hk : n + k < e) :
    ∃ a ∈ xs, start a ≤ n + k ∧ (xs.flatMap data)[k]? = (data a)[n + k - start a]? := by
  induction xs generalizing n k with
  | nil =>
    cases h
    omega
  | cons y ys ih =>
    obtain ⟨hy, htail⟩ := contiguous_cons h
    have hdata := hlen y mem_cons_self
    by_cases hin : k < len y
    · refine ⟨y, mem_cons_self, by omega, ?_⟩
      rw [flatMap_cons, getElem?_append_left (by omega)]
      congr 1
      omega
    obtain ⟨a, ha, hle, hbyte⟩ := ih (k := k - len y) htail
      (fun a ha => hlen a (mem_cons_of_mem y ha)) (by omega)
    refine ⟨a, mem_cons_of_mem y ha, by omega, ?_⟩
    rw [flatMap_cons, getElem?_append_right (by omega), hdata, hbyte]
    congr 1
    omega

end XnuXzs.Lib
