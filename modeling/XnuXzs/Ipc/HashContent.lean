import XnuXzs.Ipc.HashTable

/-!
# What is in the table

Insertion adds an index and deletion takes it out, whatever the distances are, and
the loops end as long as a slot is empty.
-/

namespace XnuXzs.Ipc

open Lib Function

variable {n s p h : Nat} {slot slot' : Nat → Slot} {c : Slot}

theorem occupant_eq_none : occupant slot s = none ↔ (slot s).index = 0 := by
  unfold occupant
  split <;> simp_all

theorem occupant_eq_some {i : Nat} : occupant slot s = some i ↔ i ≠ 0 ∧ (slot s).index = i := by
  unfold occupant
  split
  · simp only [reduceCtorEq, false_iff, not_and]
    intro hi hs
    omega
  simp only [Option.some.injEq]
  constructor
  · rintro rfl
    exact ⟨‹_›, rfl⟩
  · exact And.right

theorem occupant_update (hc : c.index ≠ 0) :
    occupant (update slot p c) = update (occupant slot) p (some c.index) := by
  funext s
  by_cases hs : s = p
  · subst hs
    simp [occupant, hc]
  · simp [occupant, hs]

theorem occupant_clear : occupant (update slot p ⟨0, 0⟩) = update (occupant slot) p none := by
  funext s
  by_cases hs : s = p
  · subst hs
    simp [occupant]
  · simp [occupant, hs]

variable (n slot) in
def Keys (i : Nat) : Prop := ∃ s < n, occupant slot s = some i

variable (n slot) in
def Distinct : Prop :=
  ∀ s < n, ∀ r < n, ∀ i, occupant slot s = some i → occupant slot r = some i → s = r

theorem Distinct.exchange (hd : Distinct n slot) (hp : p < n) (hc : c.index ≠ 0)
    (hnew : ¬ Keys n slot c.index) :
    Distinct n (update slot p c) ∧ ∀ y, occupant slot p = some y → ¬ Keys n (update slot p c) y ∧
        ∀ j, Keys n slot j ∨ j = c.index ↔ Keys n (update slot p c) j ∨ j = y := by
  have hold : ∀ s < n, s ≠ p → ∀ i, update (occupant slot) p (some c.index) s = some i →
      occupant slot s = some i ∧ i ≠ c.index := by
    intro s hs hsp i hi
    rw [update_of_ne hsp] at hi
    refine ⟨hi, ?_⟩
    rintro rfl
    exact hnew ⟨s, hs, hi⟩
  unfold Distinct Keys
  rw [occupant_update hc]
  refine ⟨?_, fun y hy => ⟨?_, fun j => ⟨?_, ?_⟩⟩⟩
  · intro s hs r hr i hsi hri
    by_cases hsp : s = p <;> by_cases hrp : r = p
    · rw [hsp, hrp]
    · subst hsp
      rw [update_self] at hsi
      cases hsi
      exact absurd rfl (hold r hr hrp _ hri).2
    · subst hrp
      rw [update_self] at hri
      cases hri
      exact absurd rfl (hold s hs hsp _ hsi).2
    · exact hd s hs r hr i (hold s hs hsp i hsi).1 (hold r hr hrp i hri).1
  · rintro ⟨s, hs, hsy⟩
    by_cases hsp : s = p
    · subst hsp
      rw [update_self] at hsy
      cases hsy
      exact hnew ⟨s, hs, hy⟩
    · exact hsp (hd s hs p hp y (hold s hs hsp y hsy).1 hy)
  · rintro (⟨s, hs, hsj⟩ | rfl)
    · by_cases hsp : s = p
      · subst hsp
        exact .inr (Option.some.inj (hsj.symm.trans hy))
      · exact .inl ⟨s, hs, by rwa [update_of_ne hsp]⟩
    · exact .inl ⟨p, hp, update_self ..⟩
  · rintro (⟨s, hs, hsj⟩ | rfl)
    · by_cases hsp : s = p
      · subst hsp
        rw [update_self] at hsj
        exact .inr (Option.some.inj hsj).symm
      · exact .inl ⟨s, hs, (hold s hs hsp j hsj).1⟩
    · exact .inl ⟨p, hp, hy⟩

/-- The table has the new index besides the others, and one slot less is empty. -/
structure Added (n : Nat) (slot slot' : Nat → Slot) (index : Nat) : Prop where
  filled : ∃ f, ∀ s < n, s ≠ f → occupant slot s = none → occupant slot' s = none
  distinct : Distinct n slot'
  keys : ∀ j, Keys n slot' j ↔ Keys n slot j ∨ j = index

theorem insertFrom_added {fuel p : Nat} {c : Slot} (hp : p < n) (hc : c.index ≠ 0)
    (hd : Distinct n slot) (hnew : ¬ Keys n slot c.index)
    (hempty : ∃ e < n, occupant slot e = none ∧ cycDist n p e < fuel) :
    ∃ slot', insertFrom n fuel slot p c = some slot' ∧ Added n slot slot' c.index := by
  induction fuel generalizing slot p c with
  | zero =>
    obtain ⟨e, -, -, he⟩ := hempty
    cases he
  | succ fuel ih =>
    unfold insertFrom
    by_cases hfree : (slot p).index = 0
    · have hexchange := hd.exchange hp hc hnew
      have hnone := occupant_eq_none.mpr hfree
      refine ⟨_, if_pos hfree, ⟨p, fun s hs hsp hempty => ?_⟩, hexchange.1, fun j => ?_⟩
      · rwa [occupant_update hc, update_of_ne hsp]
      unfold Keys
      rw [occupant_update hc]
      constructor
      · rintro ⟨s, hs, hsj⟩
        by_cases hsp : s = p
        · subst hsp
          rw [update_self] at hsj
          exact .inr (Option.some.inj hsj).symm
        · exact .inl ⟨s, hs, by rwa [update_of_ne hsp] at hsj⟩
      · rintro (⟨s, hs, hsj⟩ | rfl)
        · refine ⟨s, hs, ?_⟩
          rw [update_of_ne]
          · exact hsj
          · rintro rfl
            rw [hnone] at hsj
            cases hsj
        · exact ⟨p, hp, update_self ..⟩
    · obtain ⟨e, he, hnone, hdist⟩ := hempty
      have hy : occupant slot p = some (slot p).index := occupant_eq_some.mpr ⟨hfree, rfl⟩
      have hep : e ≠ p := by
        rintro rfl
        rw [hnone] at hy
        cases hy
      rw [cycDist_from_next hp he hep] at hdist
      rw [if_neg hfree]
      split
      · obtain ⟨hd', hout⟩ := hd.exchange hp hc hnew
        obtain ⟨hgone, hkeys⟩ := hout _ hy
        have hsame : ∀ s, occupant slot s = none → occupant (update slot p c) s = none := by
          intro s hs
          rw [occupant_update hc, update_of_ne]
          · exact hs
          · rintro rfl
            rw [hs] at hy
            cases hy
        obtain ⟨slot', hslot', ⟨f, hfilled⟩, hdistinct, hadded⟩ :=
          @ih (update slot p c) (cycNext n p) ⟨(slot p).index, peg (slot p).dist⟩
            (cycNext_lt hp) hfree hd' hgone ⟨e, he, hsame e hnone, by omega⟩
        exact ⟨slot', hslot', ⟨f, fun s hs hsf hnone =>
          hfilled s hs hsf (hsame s hnone)⟩, hdistinct,
          fun j => (hadded j).trans (hkeys j).symm⟩
      · exact @ih slot (cycNext n p) ⟨c.index, peg c.dist⟩ (cycNext_lt hp) hc hd hnew
          ⟨e, he, hnone, by omega⟩

variable {α : Type*} {hash : Option α → Nat} {t : HashTable α}

theorem findFrom_some {index fuel : Nat} (hp : p < t.size) (hs : s < t.size)
    (hat : occupant t.slot s = some index) (hdist : cycDist t.size p s < fuel) :
    ∃ r < t.size, findFrom t index fuel p = some r ∧ occupant t.slot r = some index := by
  induction fuel generalizing p with
  | zero => cases hdist
  | succ fuel ih =>
    obtain ⟨hne, heq⟩ := occupant_eq_some.mp hat
    unfold findFrom
    by_cases hfound : (t.slot p).index = index
    · exact ⟨p, hp, if_pos hfound, occupant_eq_some.mpr ⟨hne, hfound⟩⟩
    have hsp : s ≠ p := by
      rintro rfl
      exact hfound heq
    rw [cycDist_from_next hp hs hsp] at hdist
    rw [if_neg hfound]
    exact ih (cycNext_lt hp) (by omega)

/-- The table without what is in the slot `h`. -/
structure Removed (n : Nat) (slot slot' : Nat → Slot) (h : Nat) : Prop where
  empty : ∀ s < n, occupant slot s = none → occupant slot' s = none
  distinct : (∀ s < n, ∀ r < n, s ≠ h → r ≠ h → ∀ i, occupant slot s = some i →
    occupant slot r = some i → s = r) → Distinct n slot'
  keys : ∀ j, Keys n slot' j ↔ ∃ s < n, s ≠ h ∧ occupant slot s = some j

theorem removed_clear : Removed n slot (update slot h ⟨0, 0⟩) h := by
  have hother : ∀ s i, update (occupant slot) h none s = some i →
      s ≠ h ∧ occupant slot s = some i := by
    intro s i hi
    by_cases hs : s = h
    · subst hs
      rw [update_self] at hi
      cases hi
    · exact ⟨hs, by rwa [update_of_ne hs] at hi⟩
  refine ⟨fun s hs hnone => ?_, fun hd s hs r hr i hsi hri => ?_, fun j => ?_⟩
  · rw [occupant_clear]
    by_cases hsh : s = h
    · rw [hsh, update_self]
    · rwa [update_of_ne hsh]
  · rw [occupant_clear] at hsi hri
    exact hd s hs r hr (hother s i hsi).1 (hother r i hri).1 i (hother s i hsi).2 (hother r i hri).2
  unfold Keys
  rw [occupant_clear]
  constructor
  · rintro ⟨s, hs, hsj⟩
    exact ⟨s, hs, hother s j hsj⟩
  · rintro ⟨s, hs, hne, hsj⟩
    exact ⟨s, hs, by rwa [update_of_ne hne]⟩

theorem Removed.move {d : Nat} (hh : h < n) (hd : d < n) (hne : d ≠ h)
    (hc : occupant slot d = some c.index) (hr : Removed n (update slot h c) slot' d)
    (hfull : occupant slot h ≠ none) : Removed n slot slot' h := by
  have hindex := (occupant_eq_some.mp hc).1
  obtain ⟨hempty, hdistinct, hkeys⟩ := hr
  rw [occupant_update hindex] at hempty hdistinct hkeys
  refine ⟨fun s hs hnone => hempty s hs ?_, fun hbut => hdistinct ?_, fun j => (hkeys j).trans ?_⟩
  · rw [update_of_ne]
    · exact hnone
    · rintro rfl
      exact hfull hnone
  · -- an index that is in the slot `h` now was in `d` before
    have hback : ∀ s < n, s ≠ d → ∀ i, update (occupant slot) h (some c.index) s = some i →
        ∃ s' < n, s' ≠ h ∧ occupant slot s' = some i ∧ (s = h ∧ s' = d ∨ s ≠ h ∧ s' = s) := by
      intro s hs hsd i hi
      by_cases hsh : s = h
      · subst hsh
        rw [update_self] at hi
        cases hi
        exact ⟨d, hd, hne, hc, .inl ⟨rfl, rfl⟩⟩
      · rw [update_of_ne hsh] at hi
        exact ⟨s, hs, hsh, hi, .inr ⟨hsh, rfl⟩⟩
    intro s hs r hr' hsd hrd i hsi hri
    obtain ⟨s', hs', hsh', hsi', hs₁⟩ := hback s hs hsd i hsi
    obtain ⟨r', hr', hrh', hri', hr₁⟩ := hback r hr' hrd i hri
    have heq := hbut s' hs' r' hr' hsh' hrh' i hsi' hri'
    omega
  · constructor
    · rintro ⟨s, hs, hsd, hsj⟩
      by_cases hsh : s = h
      · subst hsh
        rw [update_self] at hsj
        cases hsj
        exact ⟨d, hd, hne, hc⟩
      · rw [update_of_ne hsh] at hsj
        exact ⟨s, hs, hsh, hsj⟩
    · rintro ⟨s, hs, hsh, hsj⟩
      by_cases hsd : s = d
      · subst hsd
        rw [hc] at hsj
        cases hsj
        exact ⟨h, hh, Ne.symm hne, update_self ..⟩
      · exact ⟨s, hs, hsd, by rwa [update_of_ne hsh]⟩

theorem cycNext_ne {e : Nat} (he : e < n) (hne : e ≠ h) : cycNext n h ≠ h := by
  unfold cycNext
  split <;> omega

theorem shiftFrom_removed {fuel h : Nat} (hh : h < t.size) (hfull : occupant slot h ≠ none)
    (hempty : ∃ e < t.size, occupant slot e = none ∧ cycDist t.size h e ≤ fuel) :
    ∃ slot', shiftFrom hash t fuel slot h = some slot' ∧ Removed t.size slot slot' h := by
  induction fuel generalizing slot h with
  | zero =>
    obtain ⟨e, he, hnone, hdist⟩ := hempty
    have heq := cycDist_inj hh he hh ((Nat.le_zero.mp hdist).trans cycDist_self.symm)
    subst heq
    exact absurd hnone hfull
  | succ fuel ih =>
    obtain ⟨e, he, hnone, hdist⟩ := hempty
    have heh : e ≠ h := by
      rintro rfl
      exact hfull hnone
    have hne := cycNext_ne he heh
    unfold shiftFrom
    dsimp only
    split
    · exact ⟨_, rfl, removed_clear⟩
    rename_i hend
    rw [not_or] at hend
    generalize hcloser : closer hash t h (slot (cycNext t.size h)) = dist
    obtain ⟨c, hc⟩ : ∃ c : Slot, c = ⟨(slot (cycNext t.size h)).index, dist⟩ := ⟨_, rfl⟩
    have hindex : c.index ≠ 0 := by
      rw [hc]
      exact hend.1
    have hmoved : occupant slot (cycNext t.size h) = some c.index := by
      rw [hc]
      exact occupant_eq_some.mpr ⟨hend.1, rfl⟩
    rw [← hc]
    have hkeep : ∀ s ≠ h, occupant (update slot h c) s = occupant slot s := by
      intro s hs
      rw [occupant_update hindex, update_of_ne hs]
    rw [cycDist_from_next hh he heh] at hdist
    obtain ⟨slot', hslot', hremoved⟩ := ih (cycNext_lt hh)
      (by rw [hkeep _ hne, hmoved]; exact Option.some_ne_none _)
      ⟨e, he, by rwa [hkeep e heh], Nat.le_of_succ_le_succ hdist⟩
    exact ⟨slot', hslot', hremoved.move hh (cycNext_lt hh) hne hmoved hfull⟩

variable (hash t) in
def keyHome (index : Nat) : Nat := tableHash hash (t.object index) t.size

section Table

variable [DecidableEq α] {obj : α} {index : Nat}

theorem insert_eq (hindex : index ≠ 0) (hobj : t.object index = some obj) :
    insert hash t (some obj) index =
      (insertFrom t.size t.size t.slot (keyHome hash t index) ⟨index, 0⟩).map
        fun slot => { t with slot := slot } := by
  rw [insert, if_neg (by simp [hindex, hobj]), keyHome, hobj]

theorem delete_eq (hindex : index ≠ 0) (hobj : t.object index = some obj) :
    delete hash t (some obj) index =
      (findFrom t index t.size (keyHome hash t index)).bind fun hindex =>
        (shiftFrom hash t t.size t.slot hindex).map fun slot => { t with slot := slot } := by
  rw [delete, if_neg (by simp [hindex, hobj]), keyHome, hobj]

theorem insert_added (hhome : keyHome hash t index < t.size) (hindex : index ≠ 0)
    (hobj : t.object index = some obj) (hd : Distinct t.size t.slot)
    (hnew : ¬ Keys t.size t.slot index) (hempty : ∃ e < t.size, occupant t.slot e = none) :
    ∃ slot', insertFrom t.size t.size t.slot (keyHome hash t index) ⟨index, 0⟩ = some slot' ∧
      insert hash t (some obj) index = some { t with slot := slot' } ∧
      Added t.size t.slot slot' index := by
  obtain ⟨e, he, hnone⟩ := hempty
  obtain ⟨slot', hslot', hadded⟩ :=
    @insertFrom_added t.size t.slot t.size (keyHome hash t index) ⟨index, 0⟩ hhome hindex hd hnew
      ⟨e, he, hnone, cycDist_lt hhome he⟩
  refine ⟨slot', hslot', ?_, hadded⟩
  rw [insert_eq hindex hobj, hslot']
  rfl

theorem delete_removed (hhome : keyHome hash t index < t.size) (hindex : index ≠ 0)
    (hobj : t.object index = some obj) (hd : Distinct t.size t.slot)
    (hkey : Keys t.size t.slot index) (hempty : ∃ e < t.size, occupant t.slot e = none) :
    ∃ h slot', h < t.size ∧ shiftFrom hash t t.size t.slot h = some slot' ∧
      delete hash t (some obj) index = some { t with slot := slot' } ∧
      (∀ s < t.size, occupant t.slot s = none → occupant slot' s = none) ∧ Distinct t.size slot' ∧
      ∀ j, Keys t.size slot' j ↔ Keys t.size t.slot j ∧ j ≠ index := by
  obtain ⟨r, hr, hat⟩ := hkey
  obtain ⟨h, hh, hfind, hat⟩ := findFrom_some hhome hr hat (cycDist_lt hhome hr)
  obtain ⟨e, he, hnone⟩ := hempty
  obtain ⟨slot', hslot', hstill, hdistinct, hkeys⟩ := @shiftFrom_removed t.slot _ hash t t.size h hh
    (by rw [hat]; exact Option.some_ne_none _) ⟨e, he, hnone, (cycDist_lt hh he).le⟩
  refine ⟨h, slot', hh, hslot', ?_, hstill,
    hdistinct fun s hs r hr _ _ i hsi hri => hd s hs r hr i hsi hri, fun j =>
      (hkeys j).trans ⟨?_, ?_⟩⟩
  · rw [delete_eq hindex hobj, hfind, Option.bind_some, hslot']
    rfl
  · rintro ⟨s, hs, hsh, hsj⟩
    refine ⟨⟨s, hs, hsj⟩, ?_⟩
    rintro rfl
    exact hsh (hd s hs h hh j hsj hat)
  rintro ⟨⟨s, hs, hsj⟩, hne⟩
  refine ⟨s, hs, ?_, hsj⟩
  rintro rfl
  rw [hat] at hsj
  exact hne (Option.some.inj hsj).symm

end Table

end XnuXzs.Ipc
