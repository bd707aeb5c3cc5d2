import Mathlib.Tactic

/-!
# Robin Hood tables

Slots in a circle, and keys with a home slot. Every slot on the way from a key's home to the key
is taken, by a key that is displaced at least as far.
-/

namespace XnuXzs.Lib

open Function

section Circle

variable (n : Nat)

def cycNext (s : Nat) : Nat := if s + 1 = n then 0 else s + 1

def cycDist (h s : Nat) : Nat := if h ≤ s then s - h else s + n - h

variable {n} {h s r : Nat}

theorem cycNext_lt (hs : s < n) : cycNext n s < n := by
  unfold cycNext
  split <;> omega

theorem cycDist_lt (hh : h < n) (hs : s < n) : cycDist n h s < n := by
  unfold cycDist
  split <;> omega

@[simp] theorem cycDist_self : cycDist n h h = 0 := by
  simp [cycDist]

theorem cycDist_inj (hh : h < n) (hs : s < n) (hr : r < n) (heq : cycDist n h s = cycDist n h r) :
    s = r := by
  unfold cycDist at heq
  split at heq <;> split at heq <;> omega

theorem cycDist_next (hh : h < n) (hs : s < n) (hlast : cycDist n h s + 1 < n) :
    cycDist n h (cycNext n s) = cycDist n h s + 1 := by
  unfold cycDist cycNext at *
  split at hlast <;> split <;> split <;> omega

/-- The last step of a round comes back to where it began. -/
theorem cycNext_eq_of_last (hh : h < n) (hs : s < n) (hlast : cycDist n h s + 1 = n) :
    cycNext n s = h := by
  unfold cycDist at hlast
  unfold cycNext
  split at hlast <;> split <;> omega

theorem cycDist_from_next (hh : h < n) (hs : s < n) (hne : s ≠ h) :
    cycDist n h s = cycDist n (cycNext n h) s + 1 := by
  unfold cycDist cycNext
  split <;> split <;> split <;> omega

theorem cycDist_next_of_ne (hh : h < n) (hs : s < n) (hne : cycDist n h (cycNext n s) ≠ 0) :
    cycDist n h (cycNext n s) = cycDist n h s + 1 := by
  have hlt := cycDist_lt hh hs
  rcases Nat.lt_or_eq_of_le hlt with hless | hlast
  · exact cycDist_next hh hs hless
  · rw [cycNext_eq_of_last hh hs hlast, cycDist_self] at hne
    exact absurd rfl hne

end Circle

section Order

variable {κ : Type*} (n : Nat) (home : κ → Nat) (occ : Nat → Option κ)

def disp (x : κ) (s : Nat) : Nat := cycDist n (home x) s

def Displaced (s d : Nat) : Prop := ∃ y, occ s = some y ∧ d ≤ disp n home y s

/-- A key may be put into the slot, as far as the slots before it go. -/
def Reaches (x : κ) (p : Nat) : Prop :=
  ∀ r < n, disp n home x r < disp n home x p → Displaced n home occ r (disp n home x r)

structure RobinHood : Prop where
  home_lt : ∀ s < n, ∀ x, occ s = some x → home x < n
  reaches : ∀ s < n, ∀ x, occ s = some x → Reaches n home occ x s

variable {n home occ} {x y : κ} {p s : Nat}

theorem Reaches.update (hp : p < n) (hx : Reaches n home occ x s) {v : Option κ}
    (hkeep : disp n home x p < disp n home x s → ∃ y, v = some y ∧
      disp n home x p ≤ disp n home y p) :
    Reaches n home (update occ p v) x s := by
  intro r hr hlt
  by_cases hrp : r = p
  · subst hrp
    obtain ⟨y, hv, hy⟩ := hkeep hlt
    exact ⟨y, by rw [update_self, hv], hy⟩
  · obtain ⟨y, hocc, hy⟩ := hx r hr hlt
    exact ⟨y, by rwa [update_of_ne hrp], hy⟩

theorem RobinHood.put (ht : RobinHood n home occ) (hp : p < n) (hempty : occ p = none)
    (hhome : home x < n) (hx : Reaches n home occ x p) :
    RobinHood n home (update occ p (some x)) := by
  have hpass : ∀ s < n, ∀ y, occ s = some y → ¬ disp n home y p < disp n home y s := by
    intro s hs y hy hlt
    obtain ⟨z, hz, -⟩ := ht.reaches s hs y hy p hp hlt
    rw [hempty] at hz
    cases hz
  refine ⟨fun s hs y hy => ?_, fun s hs y hy => ?_⟩
  · by_cases hsp : s = p
    · subst hsp
      rw [update_self] at hy
      cases hy
      exact hhome
    · rw [update_of_ne hsp] at hy
      exact ht.home_lt s hs y hy
  · by_cases hsp : s = p
    · subst hsp
      rw [update_self] at hy
      cases hy
      exact hx.update hp fun hlt => absurd hlt (lt_irrefl _)
    · rw [update_of_ne hsp] at hy
      exact (ht.reaches s hs y hy).update hp fun hlt => absurd hlt (hpass s hs y hy)

/-- There is an empty slot, so a key that has passed taken slots only has not gone round. -/
theorem Reaches.not_round (hhome : home x < n) (hp : p < n) (hx : Reaches n home occ x p)
    (htaken : occ p ≠ none) (hempty : ∃ e < n, occ e = none) : disp n home x p + 1 < n := by
  obtain ⟨e, he, hnone⟩ := hempty
  by_contra hlast
  have hle : disp n home x e ≤ disp n home x p := by
    have := cycDist_lt hhome he
    unfold disp at *
    omega
  rcases lt_or_eq_of_le hle with hless | heq
  · obtain ⟨z, hz, -⟩ := hx e he hless
    rw [hnone] at hz
    cases hz
  · rw [cycDist_inj hhome he hp heq] at hnone
    exact htaken hnone

theorem Reaches.pass (hhome : home x < n) (hp : p < n) (hx : Reaches n home occ x p)
    (hempty : ∃ e < n, occ e = none) (hy : Displaced n home occ p (disp n home x p)) :
    Reaches n home occ x (cycNext n p) := by
  have htaken : occ p ≠ none := by
    obtain ⟨y, hocc, -⟩ := hy
    rw [hocc]
    exact Option.some_ne_none y
  have hlast := hx.not_round hhome hp htaken hempty
  intro r hr hlt
  unfold disp at hlt hlast
  rw [cycDist_next hhome hp hlast] at hlt
  rcases Nat.lt_or_eq_of_le (Nat.le_of_lt_succ hlt) with hless | heq
  · exact hx r hr hless
  · rw [cycDist_inj hhome hr hp heq]
    exact hy

/-- A key takes the slot of one that is displaced less far, which then goes on. -/
theorem RobinHood.steal (ht : RobinHood n home occ) (hp : p < n) (hy : occ p = some y)
    (hless : disp n home y p < disp n home x p) (hhome : home x < n) (hx : Reaches n home occ x p) :
    RobinHood n home (update occ p (some x)) ∧ Reaches n home (update occ p (some x)) y p := by
  refine ⟨⟨fun s hs z hz => ?_, fun s hs z hz => ?_⟩, ?_⟩
  · by_cases hsp : s = p
    · subst hsp
      rw [update_self] at hz
      cases hz
      exact hhome
    · rw [update_of_ne hsp] at hz
      exact ht.home_lt s hs z hz
  · by_cases hsp : s = p
    · subst hsp
      rw [update_self] at hz
      cases hz
      exact hx.update hp fun hlt => absurd hlt (lt_irrefl _)
    rw [update_of_ne hsp] at hz
    refine (ht.reaches s hs z hz).update hp fun hlt => ⟨x, rfl, ?_⟩
    obtain ⟨w, hw, hd⟩ := ht.reaches s hs z hz p hp hlt
    rw [hy] at hw
    cases hw
    exact hd.trans hless.le
  · exact (ht.reaches p hp y hy).update hp fun hlt => absurd hlt (lt_irrefl _)

theorem RobinHood.next_on_way (ht : RobinHood n home occ) (hp : p < n) (hs : s < n)
    (hx : occ s = some x) (hlt : disp n home x p < disp n home x s) :
    ∃ y, occ (cycNext n p) = some y ∧ disp n home x p + 1 ≤ disp n home y (cycNext n p) := by
  have hhome := ht.home_lt s hs x hx
  have hnext : disp n home x (cycNext n p) = disp n home x p + 1 :=
    cycDist_next hhome hp (lt_of_le_of_lt hlt (cycDist_lt hhome hs))
  rcases lt_or_eq_of_le (hnext ▸ hlt : disp n home x (cycNext n p) ≤ disp n home x s) with
    hless | heq
  · obtain ⟨y, hy, hd⟩ := ht.reaches s hs x hx _ (cycNext_lt hp) hless
    exact ⟨y, hy, hnext ▸ hd⟩
  · rw [cycDist_inj hhome (cycNext_lt hp) hs heq]
    exact ⟨x, hx, by omega⟩

/-- A slot may be emptied if the next one is empty or holds a key at home. -/
theorem RobinHood.clear (ht : RobinHood n home occ) (hp : p < n)
    (hend : ∀ y, occ (cycNext n p) = some y → disp n home y (cycNext n p) = 0) :
    RobinHood n home (update occ p none) := by
  refine ⟨fun s hs x hx => ?_, fun s hs x hx => ?_⟩
  · by_cases hsp : s = p
    · subst hsp
      rw [update_self] at hx
      cases hx
    · rw [update_of_ne hsp] at hx
      exact ht.home_lt s hs x hx
  · by_cases hsp : s = p
    · subst hsp
      rw [update_self] at hx
      cases hx
    rw [update_of_ne hsp] at hx
    refine (ht.reaches s hs x hx).update hp fun hlt => ?_
    obtain ⟨y, hy, hd⟩ := ht.next_on_way hp hs hx hlt
    rw [hend y hy] at hd
    cases hd

/-- A key that is not at home may be copied one slot back. -/
theorem RobinHood.pull (ht : RobinHood n home occ) (hp : p < n) (hy : occ (cycNext n p) = some y)
    (haway : disp n home y (cycNext n p) ≠ 0) : RobinHood n home (update occ p (some y)) := by
  have hhome := ht.home_lt _ (cycNext_lt hp) y hy
  have hnext : disp n home y (cycNext n p) = disp n home y p + 1 :=
    cycDist_next_of_ne hhome hp haway
  refine ⟨fun s hs x hx => ?_, fun s hs x hx => ?_⟩
  · by_cases hsp : s = p
    · subst hsp
      rw [update_self] at hx
      cases hx
      exact hhome
    · rw [update_of_ne hsp] at hx
      exact ht.home_lt s hs x hx
  · by_cases hsp : s = p
    · subst hsp
      rw [update_self] at hx
      cases hx
      intro r hr hlt
      refine Reaches.update hp (ht.reaches _ (cycNext_lt hp) y hy) (fun _ =>
        ⟨y, rfl, le_rfl⟩) r hr ?_
      exact hlt.trans (hnext ▸ Nat.lt_succ_self _)
    · rw [update_of_ne hsp] at hx
      refine (ht.reaches s hs x hx).update hp fun hlt => ⟨y, rfl, ?_⟩
      obtain ⟨z, hz, hd⟩ := ht.next_on_way hp hs hx hlt
      rw [hy] at hz
      cases hz
      omega

theorem RobinHood.congr (ht : RobinHood n home occ) {home' : κ → Nat}
    (hsame : ∀ s < n, ∀ x, occ s = some x → home' x = home x) : RobinHood n home' occ := by
  refine ⟨fun s hs x hx => hsame s hs x hx ▸ ht.home_lt s hs x hx, fun s hs x hx r hr hlt => ?_⟩
  simp only [disp, hsame s hs x hx] at hlt
  obtain ⟨y, hy, hd⟩ := ht.reaches s hs x hx r hr hlt
  refine ⟨y, hy, ?_⟩
  simpa [disp, hsame s hs x hx, hsame r hr y hy] using hd

variable (n occ) in
/-- Among any `m + 1` slots in a row there is an empty one. -/
def Sparse (m : Nat) : Prop := ∀ h < n, ∃ r < n, cycDist n h r ≤ m ∧ occ r = none

theorem Sparse.bounds {m : Nat} (hsparse : Sparse n occ m) (hhome : home x < n)
    (hx : Reaches n home occ x p) : disp n home x p ≤ m := by
  obtain ⟨r, hr, hle, hnone⟩ := hsparse (home x) hhome
  by_contra hgt
  obtain ⟨y, hy, -⟩ := hx r hr (lt_of_le_of_lt hle (Nat.lt_of_not_le hgt))
  rw [hnone] at hy
  cases hy

end Order

end XnuXzs.Lib
