import Mathlib.Tactic

/-!
# A list served in pages

Each page goes on at the record where the one before it ended, until the next does not fit or
may not be taken. An empty page with room for its first record is the end.
-/

namespace XnuXzs.Lib

open List

variable {α : Type} (len : α → Nat)

/-- The records that a page takes from the front of `l`, whose first is record `k`. -/
def pageOf (ok : Nat → Bool) : (room k : Nat) → (l : List α) → List α
  | _, _, [] => []
  | room, k, e :: l =>
    if len e ≤ room ∧ ok k then e :: pageOf ok (room - len e) (k + 1) l else []

def offsetOf (l : List α) (k : Nat) : Nat := ((l.take k).map len).sum

/-- The record that page `n` begins with. -/
def pageStart (l : List α) (room : Nat → Nat) (ok : Nat → Nat → Bool) : Nat → Nat
  | 0 => 0
  | n + 1 =>
    let k := pageStart l room ok n
    k + (pageOf len (ok n) (room n) k (l.drop k)).length

def pageAt (l : List α) (room : Nat → Nat) (ok : Nat → Nat → Bool) (n : Nat) : List α :=
  let k := pageStart len l room ok n
  pageOf len (ok n) (room n) k (l.drop k)

variable {len} {l : List α} {room : Nat → Nat} {ok : Nat → Nat → Bool}

theorem pageOf_initial (p : Nat → Bool) (r k : Nat) (l : List α) : pageOf len p r k l <+: l := by
  induction l generalizing r k with
  | nil => exact prefix_rfl
  | cons e l ih =>
    rw [pageOf]
    split
    · exact cons_prefix_cons.mpr ⟨rfl, ih _ _⟩
    · exact nil_prefix

theorem pageOf_eq_nil {p : Nat → Bool} {r k : Nat} :
    pageOf len p r k l = [] ↔ ∀ e ∈ l.head?, ¬(len e ≤ r ∧ p k) := by
  cases l with
  | nil => simp [pageOf]
  | cons e l =>
    rw [pageOf, head?_cons]
    split_ifs with h
    · exact ⟨nofun, fun hnone => absurd h (hnone e rfl)⟩
    · refine ⟨fun _ e' he' => ?_, fun _ => rfl⟩
      rwa [← Option.some.inj he']

theorem offsetOf_succ {k : Nat} (hk : k < l.length) :
    offsetOf len l (k + 1) = offsetOf len l k + len l[k] := by
  rw [offsetOf, offsetOf, take_succ_eq_append_getElem hk, map_append, sum_append]
  simp

theorem offsetOf_add (k n : Nat) :
    offsetOf len l (k + n) = offsetOf len l k + (((l.drop k).take n).map len).sum := by
  rw [offsetOf, offsetOf, take_add, map_append, sum_append]

theorem offsetOf_mono {j k : Nat} (h : j ≤ k) : offsetOf len l j ≤ offsetOf len l k := by
  obtain ⟨d, rfl⟩ := Nat.exists_eq_add_of_le h
  rw [offsetOf_add]
  exact Nat.le_add_right _ _

/-- Records are not empty, so that no two of them begin at one place. -/
theorem offsetOf_lt (hlen : ∀ e ∈ l, 0 < len e) {j k : Nat} (h : j < k) (hk : k ≤ l.length) :
    offsetOf len l j < offsetOf len l k := by
  have hj := lt_of_lt_of_le h hk
  have hstep := @offsetOf_succ α len l j hj
  have hpos := hlen l[j] (getElem_mem hj)
  have hmono := @offsetOf_mono α len l (j + 1) k h
  omega

theorem pageStart_succ (n : Nat) : pageStart len l room ok (n + 1) =
    pageStart len l room ok n + (pageAt len l room ok n).length :=
  rfl

theorem pageStart_le (n : Nat) : pageStart len l room ok n ≤ l.length := by
  induction n with
  | zero => exact Nat.zero_le _
  | succ n ih =>
    have hle := (@pageOf_initial α len (ok n) (room n) (pageStart len l room ok n)
      (l.drop (pageStart len l room ok n))).length_le
    rw [length_drop] at hle
    rw [pageStart_succ, pageAt]
    omega

theorem pageStart_mono : Monotone (pageStart len l room ok) :=
  monotone_nat_of_le_succ fun _ => Nat.le_add_right ..

theorem pageAt_eq_take (n : Nat) : pageAt len l room ok n =
    (l.drop (pageStart len l room ok n)).take (pageAt len l room ok n).length :=
  prefix_iff_eq_take.mp (pageOf_initial ..)

theorem pages_eq_take (n : Nat) :
    (List.range n).flatMap (pageAt len l room ok) = l.take (pageStart len l room ok n) := by
  induction n with
  | zero => rfl
  | succ n ih =>
    rw [range_succ, flatMap_append, ih, flatMap_singleton, pageStart_succ, take_add,
      ← pageAt_eq_take]

/-- Pages that are not empty use the list up. -/
theorem exists_empty_page : ∃ n, pageAt len l room ok n = [] ∧
    ∀ m < n, pageAt len l room ok m ≠ [] := by
  have hsome : ∃ n, pageAt len l room ok n = [] := by
    by_contra hnone
    have hgrow : ∀ n, n ≤ pageStart len l room ok n := by
      intro n
      induction n with
      | zero => exact Nat.zero_le _
      | succ n ih =>
        have hpos := length_pos_iff.mpr fun h => hnone ⟨n, h⟩
        rw [pageStart_succ]
        omega
    have hle := @pageStart_le α len l room ok (l.length + 1)
    have hge := hgrow (l.length + 1)
    omega
  classical
  exact ⟨Nat.find hsome, Nat.find_spec hsome, fun m hm => Nat.find_min hsome hm⟩

/-- An empty page at the end of the list, or one that takes nothing of what is left. -/
theorem pageAt_eq_nil {n : Nat} : pageAt len l room ok n = [] ↔
    ∀ h : pageStart len l room ok n < l.length,
      ¬(len l[pageStart len l room ok n] ≤ room n ∧ ok n (pageStart len l room ok n)) := by
  rw [pageAt, pageOf_eq_nil, head?_drop]
  constructor
  · intro hnone h
    exact hnone _ (getElem?_eq_getElem h)
  · intro hnone e he
    obtain ⟨h, rfl⟩ := List.getElem?_eq_some_iff.mp he
    exact hnone h

end XnuXzs.Lib
