import Mathlib.Tactic

/-! Names along parent links. The root is 0, and every other node below `n` has a parent with a
smaller number. A resolver by names finds each node by its path, so paths tell nodes apart. -/
namespace XnuXzs.Lib

variable {N ε : Type}

/-- The names from the root to `i`, following at most `fuel` parent links. -/
def pathFrom (parent : Nat → Nat) (name : Nat → N) : Nat → Nat → List N
  | 0, _ => []
  | fuel + 1, i => if i = 0 then [] else pathFrom parent name fuel (parent i) ++ [name i]

/-- Resolve one name after the other, from the root. -/
def walkFrom (step : Nat → N → Except ε Nat) (path : List N) : Except ε Nat :=
  path.foldlM step 0

/-- Each parent link goes to a smaller number. -/
def LinksDown (n : Nat) (parent : Nat → Nat) : Prop :=
  ∀ i, 0 < i → i < n → parent i < i

section
variable {n : Nat} {parent : Nat → Nat} {name : Nat → N} {step : Nat → N → Except ε Nat}

theorem linksDown_reach_root (h : LinksDown n parent) (i : Nat) (hi : i < n) :
    ∃ k, parent^[k] i = 0 := by
  induction i using Nat.strongRecOn with
  | ind i ih =>
    by_cases h0 : i = 0
    · exact ⟨0, h0⟩
    · have hlt := h i (by omega) hi
      obtain ⟨k, hk⟩ := ih (parent i) hlt (by omega)
      exact ⟨k + 1, hk⟩

section

variable (h : LinksDown n parent) (hstep : ∀ i, 0 < i → i < n → step (parent i) (name i) = .ok i)
include h hstep

/-- Enough fuel is enough: the links of `i` are spent after `i` of them. -/
theorem walk_pathFrom (fuel i : Nat) (hf : i ≤ fuel) (hi : i < n) :
    walkFrom step (pathFrom parent name fuel i) = .ok i := by
  induction fuel generalizing i with
  | zero => rw [show i = 0 by omega]; rfl
  | succ fuel ih =>
    unfold pathFrom
    by_cases h0 : i = 0
    · simp only [h0, if_true]; rfl
    have hlt := h i (by omega) hi
    simp only [h0, if_false, walkFrom, List.foldlM_append]
    have hp := ih (parent i) (by omega) (by omega)
    unfold walkFrom at hp
    rw [hp]
    simp [bind, Except.bind, pure, Except.pure, hstep i (by omega) hi]

theorem pathFrom_injective {i j : Nat}
    (hi : i < n) (hj : j < n) (he : pathFrom parent name i i = pathFrom parent name j j) :
    i = j := by
  have wi := walk_pathFrom h hstep i i le_rfl hi
  rw [he, walk_pathFrom h hstep j j le_rfl hj] at wi
  exact (Except.ok.inj wi).symm

end

end

end XnuXzs.Lib
