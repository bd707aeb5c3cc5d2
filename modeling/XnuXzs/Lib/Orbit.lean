import Mathlib.Tactic

/-!
# Orbits that stay in a set

The iterates of a function from a point. An orbit that never leaves a finite set
comes back to a point it has visited, and one that comes back goes round for ever.
-/

namespace XnuXzs.Lib

variable {α : Type*} (next : α → α) (p : α → Prop) (a : α)

def Stays : Prop := ∀ n, p (next^[n] a)

/-- The orbit reaches a point for the second time, with the property up to there. -/
def Revisits : Prop :=
  ∃ i j, i < j ∧ next^[i] a = next^[j] a ∧ ∀ m < j, p (next^[m] a)

variable {next p a}

/-- A point visited twice is visited again after the same number of steps. -/
theorem iterate_sub_of_revisit {i j n : Nat} (hij : i < j) (h : next^[i] a = next^[j] a)
    (hn : j ≤ n) : next^[n] a = next^[n - (j - i)] a := by
  have hafter : next^[n - j] (next^[j] a) = next^[n - j] (next^[i] a) := by rw [h]
  rw [← Function.iterate_add_apply, ← Function.iterate_add_apply] at hafter
  have hback : n - j + i = n - (j - i) := by omega
  rwa [Nat.sub_add_cancel hn, hback] at hafter

theorem Revisits.stays (h : Revisits next p a) : Stays next p a := by
  obtain ⟨i, j, hij, heq, hp⟩ := h
  intro n
  induction n using Nat.strong_induction_on with
  | _ n ih =>
    by_cases hn : n < j
    · exact hp n hn
    · rw [iterate_sub_of_revisit hij heq (Nat.le_of_not_lt hn)]
      exact ih _ (by omega)

theorem Stays.revisits (h : Stays next p a) (hfin : {x | p x}.Finite) : Revisits next p a := by
  have := hfin.to_subtype
  obtain ⟨i, j, hne, heq⟩ :=
    Finite.exists_ne_map_eq_of_infinite fun n : Nat => (⟨next^[n] a, h n⟩ : {x | p x})
  have heq := congrArg Subtype.val heq
  rcases lt_or_gt_of_ne hne with hlt | hlt
  · exact ⟨i, j, hlt, heq, fun m _ => h m⟩
  · exact ⟨j, i, hlt, heq.symm, fun m _ => h m⟩

end XnuXzs.Lib
