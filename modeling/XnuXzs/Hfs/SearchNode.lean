import XnuXzs.Hfs.BTreeNode

/-!
# Searching a node

The binary search of `SearchNode` over the records of a node. How the comparison
of a tree reads a key at an address is a parameter.
-/

namespace XnuXzs.Hfs

open Lib

/-- A comparison whose signs are those of a total order. -/
structure KeyOrder {κ : Type} (compare : κ → κ → Int) : Prop where
  swap : ∀ a b, 0 < compare a b ↔ compare b a < 0
  trans : ∀ {a b c}, compare a b ≤ 0 → compare b c ≤ 0 → compare a c ≤ 0

variable (t : BTree) {κ : Type} (read : Node → Nat → κ) (compare : κ → κ → Int) (m : Node)

/-- The key of a record. The search takes its offset as an unsigned number. -/
def trialKey (index : Nat) : κ := read m (load16 m (offsetAddress t index))

variable (searchKey : κ)

/-- A round takes at least one record away, so as many rounds as there are records are
enough. -/
def searchLoop : Nat → Int → Int → Bool × Int
  | 0, lowerBound, _ => (false, u16 lowerBound)
  | fuel + 1, lowerBound, upperBound =>
    if lowerBound ≤ upperBound then
      let index := (lowerBound + upperBound) / 2
      let result := compare searchKey (trialKey t read m index.toNat)
      if result < 0 then searchLoop fuel lowerBound (index - 1)
      else if result > 0 then searchLoop fuel (index + 1) upperBound
      else (true, u16 index)
    else (false, u16 lowerBound)

def searchNode : Bool × Int :=
  searchLoop t read compare m searchKey (numRecords m) 0 (numRecords m - 1)

def Sorted : Prop :=
  ∀ j < numRecords m, ∀ i < j, compare (trialKey t read m i) (trialKey t read m j) ≤ 0

/-- The answer to a search: the place of an equal record, or a place that has
smaller records before it and greater ones from it on. -/
def Answers : Bool × Int → Prop
  | (true, index) => ∃ i < numRecords m, index = i ∧ compare searchKey (trialKey t read m i) = 0
  | (false, index) => ∃ i ≤ numRecords m, index = i ∧
    (∀ j < i, 0 < compare searchKey (trialKey t read m j)) ∧
    ∀ j < numRecords m, i ≤ j → compare searchKey (trialKey t read m j) < 0

structure Narrowed (lo hi : Int) : Prop where
  low : 0 ≤ lo
  met : lo ≤ hi + 1
  high : hi < numRecords m
  below : ∀ i : Nat, i < lo → 0 < compare searchKey (trialKey t read m i)
  above : ∀ i < numRecords m, hi < i → compare searchKey (trialKey t read m i) < 0

variable {t read compare m searchKey} {lo hi : Int} {i j : Nat}

theorem numRecords_lt : numRecords m < 2 ^ 16 := by
  have hlt := leValue_lt (bytesAt m numRecordsAddress 2)
  rwa [bytesAt_length] at hlt

/-- At first nothing is left out. -/
theorem Narrowed.whole : Narrowed t read compare m searchKey 0 (numRecords m - 1) := by
  constructor
  case below =>
    intro i hi
    omega
  all_goals omega

theorem Narrowed.none (h : Narrowed t read compare m searchKey lo hi) (hlt : hi < lo) :
    Answers t read compare m searchKey (false, u16 lo) := by
  have hn := @numRecords_lt m
  obtain ⟨low, met, high, below, above⟩ := h
  lift lo to Nat using low
  refine ⟨lo, by omega, u16_eq (by omega) (by omega), ?_, ?_⟩
  · intro j hj
    exact below j (by omega)
  · intro j hj hle
    exact above j hj (by omega)

theorem trialKey_above (order : KeyOrder compare) (sorted : Sorted t read compare m)
    (hi : compare searchKey (trialKey t read m i) < 0) (hij : i ≤ j) (hj : j < numRecords m) :
    compare searchKey (trialKey t read m j) < 0 := by
  obtain rfl | hlt := hij.eq_or_lt
  · exact hi
  by_contra hle
  have hback := mt (order.swap (trialKey t read m j) searchKey).1 hle
  have hle := order.trans (sorted j hj i hlt) (not_lt.1 hback)
  have hgt := (order.swap (trialKey t read m i) searchKey).2 hi
  omega

theorem trialKey_below (order : KeyOrder compare) (sorted : Sorted t read compare m)
    (hj : 0 < compare searchKey (trialKey t read m j)) (hij : i ≤ j) (hn : j < numRecords m) :
    0 < compare searchKey (trialKey t read m i) := by
  obtain rfl | hlt := hij.eq_or_lt
  · exact hj
  by_contra hle
  have hle := order.trans (not_lt.1 hle) (sorted j hn i hlt)
  omega

theorem searchLoop_answers (order : KeyOrder compare) (sorted : Sorted t read compare m)
    (fuel : Nat) (h : Narrowed t read compare m searchKey lo hi) (hfuel : hi + 1 - lo ≤ fuel) :
    Answers t read compare m searchKey (searchLoop t read compare m searchKey fuel lo hi) := by
  induction fuel generalizing lo hi with
  | zero => exact h.none (by omega)
  | succ fuel ih =>
    have hn := @numRecords_lt m
    obtain ⟨low, met, high, below, above⟩ := id h
    rw [searchLoop]
    split_ifs with hmore
    · obtain ⟨mid, hmid⟩ : ∃ mid : Nat, (lo + hi) / 2 = mid :=
        ⟨_, (Int.toNat_of_nonneg (by omega)).symm⟩
      simp only [hmid, Int.toNat_natCast]
      split_ifs with hless hgreater
      · refine ih ⟨low, by omega, by omega, below, fun i hi hgt => ?_⟩ (by omega)
        exact trialKey_above order sorted hless (by omega) hi
      · refine ih ⟨by omega, by omega, high, fun i hi => ?_, above⟩ (by omega)
        exact trialKey_below order sorted hgreater (by omega) (by omega)
      · exact ⟨mid, by omega, u16_eq (by omega) (by omega), by omega⟩
    · exact h.none (by omega)

theorem searchNode_answers (order : KeyOrder compare) (sorted : Sorted t read compare m) :
    Answers t read compare m searchKey (searchNode t read compare m searchKey) :=
  searchLoop_answers order sorted _ Narrowed.whole (by omega)

/-- A node of two records, with one byte as the key of each. -/
theorem searchNode_two :
    let t : BTree := ⟨32, false, by decide, by decide⟩
    let read : Node → Nat → Int := fun m a => (m a).toNat
    let m : Node := fun a => [(10, 2), (14, 5), (16, 9), (28, 16), (30, 14)].lookup a |>.getD 0
    Answers t read (· - ·) m 7 (searchNode t read (· - ·) m 7) := by
  intro t read m
  apply searchNode_answers
  · exact ⟨fun a b => by omega, by omega⟩
  · unfold Sorted
    decide

end XnuXzs.Hfs
