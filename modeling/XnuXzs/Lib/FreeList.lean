import Mathlib.Tactic

/-!
# Lists linked by indices

Each element of an array has the index of another one. Following them from one
element visits a list of others; a free list starts from the element 0 and comes
back to it.
-/

namespace XnuXzs.Lib

open List Function

/-- From `a` the elements `l` are visited, and then `b` is next. -/
def Visits (next : Nat → Nat) : Nat → List Nat → Nat → Prop
  | a, [], b => a = b
  | a, x :: l, b => a = x ∧ Visits next (next x) l b

variable {next next' : Nat → Nat} {a b c x v : Nat} {l l' : List Nat}

theorem visits_append : Visits next a (l ++ l') c ↔ ∃ b, Visits next a l b ∧
    Visits next b l' c := by
  induction l generalizing a with
  | nil =>
    constructor
    · intro h
      exact ⟨a, rfl, h⟩
    · rintro ⟨b, rfl, h⟩
      exact h
  | cons x l ih =>
    constructor
    · rintro ⟨ha, hrest⟩
      obtain ⟨b, hl, hl'⟩ := ih.mp hrest
      exact ⟨b, ⟨ha, hl⟩, hl'⟩
    · rintro ⟨b, ⟨ha, hl⟩, hl'⟩
      exact ⟨ha, ih.mpr ⟨b, hl, hl'⟩⟩

theorem visits_snoc : Visits next a (l ++ [x]) b ↔ Visits next a l x ∧ next x = b := by
  rw [visits_append]
  constructor
  · rintro ⟨c, hl, rfl, hx⟩
    exact ⟨hl, hx⟩
  · rintro ⟨hl, hx⟩
    exact ⟨x, hl, rfl, hx⟩

/-- Only the links of the visited elements matter. -/
theorem Visits.congr (h : Visits next a l b) (hsame : ∀ x ∈ l, next' x = next x) :
    Visits next' a l b := by
  induction l generalizing a with
  | nil => exact h
  | cons x l ih =>
    refine ⟨h.1, ?_⟩
    rw [hsame x mem_cons_self]
    exact ih h.2 fun y hy => hsame y (mem_cons_of_mem x hy)

theorem Visits.update (h : Visits next a l b) (hx : x ∉ l) :
    Visits (update next x v) a l b := by
  apply h.congr
  intro y hy
  rw [update_of_ne]
  rintro rfl
  exact hx hy

/-- The list starts and ends with the element 0, and has no element twice. -/
structure FreeList (next : Nat → Nat) (l : List Nat) : Prop where
  visits : Visits next 0 (0 :: l) 0
  nodup : (0 :: l).Nodup

namespace FreeList

section

variable (h : FreeList next l) {front : List Nat} {p : Nat}
include h

theorem ne_zero (hx : x ∈ l) : x ≠ 0 := by
  rintro rfl
  exact (nodup_cons.mp h.nodup).1 hx

theorem congr (hsame : ∀ x ∈ 0 :: l, next' x = next x) : FreeList next' l :=
  ⟨h.visits.congr hsame, h.nodup⟩

theorem length_le {n : Nat} (hlt : ∀ x ∈ l, x < n) : l.length ≤ n - 1 := by
  have hsub : l ⊆ (List.range n).tail := by
    intro x hx
    rcases n with _ | n
    · exact absurd (hlt x hx) (Nat.not_lt_zero x)
    rw [range_succ_eq_map, tail_cons, mem_map]
    have hpos := h.ne_zero hx
    have hx := hlt x hx
    exact ⟨x - 1, mem_range.mpr (by omega), by omega⟩
  have hle := ((nodup_cons.mp h.nodup).2.subperm hsub).length_le
  rwa [length_tail, length_range] at hle

theorem unlink {back : List Nat} (hl : 0 :: l = front ++ p :: x :: back) :
    FreeList (update (update next p (next x)) x v) (l.erase x) := by
  have hvisits := h.visits
  have hnodup := h.nodup
  have hx : x ≠ 0 := by
    rintro rfl
    rcases front with _ | ⟨y, front⟩
    · cases hl
      exact (nodup_cons.mp hnodup).1 mem_cons_self
    · cases hl
      exact (nodup_cons.mp hnodup).1 (by simp)
  have herase : 0 :: l.erase x = front ++ p :: back := by
    have hcons : 0 :: l.erase x = (0 :: l).erase x := by
      rw [erase_cons_tail]
      simpa using hx.symm
    rw [hl] at hnodup
    obtain ⟨-, hback, hapart⟩ := nodup_append.mp hnodup
    have hfront : x ∉ front := fun hmem => hapart x hmem x (by simp) rfl
    have hpx : p ≠ x := by
      rintro rfl
      exact (nodup_cons.mp hback).1 mem_cons_self
    rw [hcons, hl, erase_append_right _ hfront, erase_cons_tail (by simpa using hpx),
      erase_cons_head]
  refine ⟨?_, ?_⟩
  · rw [hl] at hvisits hnodup
    obtain ⟨hfront, hback, hapart⟩ := nodup_append.mp hnodup
    obtain ⟨hp, hback⟩ := nodup_cons.mp hback
    obtain ⟨hxback, hback⟩ := nodup_cons.mp hback
    obtain ⟨c, hto, rfl, hpx, hfrom⟩ := visits_append.mp hvisits
    rw [herase]
    refine visits_append.mpr ⟨c, ?_, rfl, ?_⟩
    · exact (hto.update fun hmem => hapart c hmem c mem_cons_self rfl).update
        fun hmem => hapart x hmem x (by simp) rfl
    have hne : c ≠ x := by
      rintro rfl
      exact hp mem_cons_self
    rw [update_of_ne hne, update_self]
    exact (hfrom.update fun hmem => hp (mem_cons_of_mem x hmem)).update hxback
  · rw [nodup_cons] at hnodup ⊢
    exact ⟨fun hmem => hnodup.1 (mem_of_mem_erase hmem), hnodup.2.erase x⟩

theorem push (hx : x ≠ 0) (hnew : x ∉ l) :
    FreeList (update (update next x (next 0)) 0 x) (x :: l) := by
  obtain ⟨-, hrest⟩ := h.visits
  obtain ⟨hzero, hnodup⟩ := nodup_cons.mp h.nodup
  refine ⟨⟨rfl, ?_⟩, ?_⟩
  · rw [update_self]
    refine ⟨rfl, ?_⟩
    rw [update_of_ne hx, update_self]
    exact (hrest.update hnew).update hzero
  have hmem : 0 ∉ x :: l := by
    rw [mem_cons, not_or]
    exact ⟨hx.symm, hzero⟩
  exact nodup_cons.mpr ⟨hmem, nodup_cons.mpr ⟨hnew, hnodup⟩⟩

theorem append (hl : 0 :: l = front ++ [p]) (hmore : Visits next c l' 0) (hnodup : l'.Nodup)
    (hapart : ∀ y ∈ l', y ∉ 0 :: l) :
    FreeList (update next p c) (l ++ l') := by
  have hvisits := h.visits
  have hold := h.nodup
  have hp : p ∈ 0 :: l := by
    rw [hl]
    exact mem_append_right front mem_cons_self
  refine ⟨?_, ?_⟩
  · rw [hl] at hvisits hold
    rw [← cons_append, hl]
    obtain ⟨hto, -⟩ := visits_snoc.mp hvisits
    refine visits_append.mpr ⟨c, visits_snoc.mpr ⟨?_, update_self ..⟩, ?_⟩
    · exact hto.update fun hmem => (nodup_append.mp hold).2.2 p hmem p mem_cons_self rfl
    · exact hmore.update fun hmem => hapart p hmem hp
  · rw [← cons_append]
    refine nodup_append.mpr ⟨hold, hnodup, ?_⟩
    rintro y hy z hz rfl
    exact hapart y hz hy

end

end FreeList

end XnuXzs.Lib
