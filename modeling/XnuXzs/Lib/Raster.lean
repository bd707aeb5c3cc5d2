import Mathlib.Data.List.Nodup
import Mathlib.Order.Monotone.Basic
import Mathlib.Tactic.Linarith
import Mathlib.Tactic.Ring

/-!
# Rows of numbers and rasters

A loop over a row may be unrolled, cut into blocks or shared out, and still visits the
numbers of a `span` in their order. A raster visits every point of a rectangle once.
-/

namespace XnuXzs.Lib

open List

/-- The numbers from `a` up to, but not including, `b`. -/
def span (a b : Int) : List Int := (List.range (b - a).toNat).map fun k : Nat => a + k

variable {a b x : Int}

@[simp] theorem mem_span : x ∈ span a b ↔ a ≤ x ∧ x < b := by
  simp only [span, mem_map, mem_range]
  constructor
  · rintro ⟨k, hk, rfl⟩
    omega
  · rintro ⟨ha, hb⟩
    exact ⟨(x - a).toNat, by omega, by omega⟩

theorem span_empty (h : b ≤ a) : span a b = [] := by
  rw [span, Int.toNat_eq_zero.mpr (by omega)]
  rfl

theorem span_cons (h : a < b) : span a b = a :: span (a + 1) b := by
  have hlen : (b - a).toNat = (b - (a + 1)).toNat + 1 := by omega
  rw [span, span, hlen, range_succ_eq_map, map_cons, map_map]
  congr 1
  · exact Int.add_zero a
  apply map_congr_left
  intro k _
  simp only [Function.comp_apply, Nat.succ_eq_add_one]
  omega

theorem span_append {c : Int} (hab : a ≤ b) (hbc : b ≤ c) :
    span a b ++ span b c = span a c := by
  obtain ⟨n, rfl⟩ : ∃ n : Nat, b = a + n := ⟨(b - a).toNat, by omega⟩
  induction n generalizing a with
  | zero => rw [Int.natCast_zero, Int.add_zero, span_empty (Int.le_refl a), nil_append]
  | succ n ih =>
    rw [span_cons (by omega : a < a + (n + 1 : Nat)), span_cons (by omega : a < c), cons_append]
    have hnext : a + ((n + 1 : Nat) : Int) = a + 1 + n := by omega
    rw [hnext] at hbc ⊢
    rw [ih (by omega) hbc]

theorem span_nodup (a b : Int) : (span a b).Nodup := by
  apply List.Nodup.map
  · intro m n h
    simpa using h
  · exact nodup_range

theorem span_pieces {b : Nat → Int} (hmono : ∀ k, b k ≤ b (k + 1)) (n : Nat) :
    ((List.range n).flatMap fun k => span (b k) (b (k + 1))) = span (b 0) (b n) := by
  induction n with
  | zero => rw [span_empty (Int.le_refl _)]; rfl
  | succ n ih =>
    rw [range_succ, flatMap_append, ih, flatMap_singleton]
    exact span_append (monotone_nat_of_le_succ hmono (Nat.zero_le n)) (hmono n)

variable {α : Type*}

/-- A loop that makes four turns at once. -/
def quads (f : Int → α) (x e : Int) : List α :=
  if x + 3 < e then f x :: f (x + 1) :: f (x + 2) :: f (x + 3) :: quads f (x + 4) e
  else (span x e).map f
termination_by (e - x).toNat

theorem quads_eq (f : Int → α) (x e : Int) : quads f x e = (span x e).map f := by
  induction x using quads.induct e with
  | case1 x h ih =>
    rw [quads, if_pos h, ih, span_cons (by omega : x < e), span_cons (by omega : x + 1 < e),
      span_cons (by omega : x + 1 + 1 < e), span_cons (by omega : x + 1 + 1 + 1 < e)]
    simp [Int.add_assoc]
  | case2 x h => rw [quads, if_neg h]

/-- A loop that makes two turns at once. -/
def twos (f : Int → α) (x e : Int) : List α :=
  if x + 1 < e then f x :: f (x + 1) :: twos f (x + 2) e else (span x e).map f
termination_by (e - x).toNat

theorem twos_eq (f : Int → α) (x e : Int) : twos f x e = (span x e).map f := by
  induction x using twos.induct e with
  | case1 x h ih =>
    rw [twos, if_pos h, ih, span_cons (by omega : x < e), span_cons (by omega : x + 1 < e)]
    simp [Int.add_assoc]
  | case2 x h => rw [twos, if_neg h]

/-- An odd start is dealt with on its own. -/
def evenFrom (f : Int → α) (rest : Int → List α) (x e : Int) : List α :=
  if x % 2 ≠ 0 ∧ x < e then f x :: rest (x + 1) else rest x

theorem evenFrom_eq {f : Int → α} {rest : Int → List α} {e : Int}
    (h : ∀ x, rest x = (span x e).map f) : evenFrom f rest x e = (span x e).map f := by
  rw [evenFrom, h, h]
  split
  · next hx => rw [span_cons hx.2, map_cons]
  · rfl

theorem span_blocks (k : Int) (hk : 0 ≤ k) (n : Nat) :
    ((List.range n).flatMap fun b : Nat => (span 0 k).map (k * b + ·)) = span 0 (k * n) := by
  have hpieces := span_pieces (b := fun b => k * (b : Int)) (fun b => by push_cast; nlinarith) n
  rw [Int.natCast_zero, Int.mul_zero] at hpieces
  rw [← hpieces]
  congr 1
  funext b
  have hlen : (k * ((b + 1 : Nat) : Int) - k * b).toNat = (k - 0).toNat := by
    congr 1
    push_cast
    ring
  rw [span, span, hlen, map_map]
  simp

/-- A value put at a point, and the points it was read from. -/
structure Put (α : Type*) where
  x : Int
  y : Int
  value : α
  reads : List (Int × Int)

def Put.isAt (x y : Int) (p : Put α) : Bool := p.x == x && p.y == y

theorem filter_eq_single {l : List Int} (hnodup : l.Nodup) (x : Int) :
    l.filter (· == x) = if x ∈ l then [x] else [] := by
  induction l with
  | nil => rfl
  | cons a l ih =>
    obtain ⟨ha, hl⟩ := nodup_cons.mp hnodup
    by_cases hax : a = x
    · subst hax
      rw [filter_cons_of_pos (by simp), ih hl, if_neg ha, if_pos mem_cons_self]
    · rw [filter_cons_of_neg (by simpa using hax), ih hl]
      simp [Ne.symm hax]

/-- A raster puts every point of its rectangle once, and no other. -/
theorem raster_at {f : Int → Int → Put α} (hx : ∀ y x, (f y x).x = x) (hy : ∀ y x, (f y x).y = y)
    {x₀ x₁ y₀ y₁ : Int} (x y : Int) :
    ((span y₀ y₁).flatMap fun r => (span x₀ x₁).map (f r)).filter (Put.isAt x y) =
      if (x₀ ≤ x ∧ x < x₁) ∧ y₀ ≤ y ∧ y < y₁ then [f y x] else [] := by
  have hrow : ∀ r, ((span x₀ x₁).map (f r)).filter (Put.isAt x y) =
      if r = y then (if x ∈ span x₀ x₁ then [f y x] else []) else [] := by
    intro r
    rw [filter_map]
    by_cases hr : r = y
    · subst hr
      have heq : Put.isAt x r ∘ f r = (· == x) := by
        funext c
        simp [Put.isAt, hx, hy]
      rw [heq, filter_eq_single (span_nodup ..), if_pos rfl]
      split <;> rfl
    · have hnone : Put.isAt x y ∘ f r = fun _ => false := by
        funext c
        simp [Put.isAt, hy, hr]
      rw [hnone, filter_false, if_neg hr]
      rfl
  rw [filter_flatMap]
  simp only [hrow]
  have hsingle := filter_eq_single (span_nodup y₀ y₁) y
  have hcols : ∀ l : List Int, (l.flatMap fun r =>
    if r = y then (if x ∈ span x₀ x₁ then [f y x] else []) else []) =
      (l.filter (· == y)).flatMap fun _ => if x ∈ span x₀ x₁ then [f y x] else [] := by
    intro l
    induction l with
    | nil => rfl
    | cons r l ih =>
      rw [flatMap_cons, ih]
      by_cases hr : r = y <;> simp [hr]
  rw [hcols, hsingle]
  simp only [mem_span]
  by_cases hyin : y₀ ≤ y ∧ y < y₁ <;> by_cases hxin : x₀ ≤ x ∧ x < x₁ <;> simp [hyin, hxin]

end XnuXzs.Lib
