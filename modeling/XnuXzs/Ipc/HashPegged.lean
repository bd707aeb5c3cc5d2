import XnuXzs.Ipc.HashOrder

/-!
# Pegged distances

A pegged entry moved closer to home gets a new distance, while one behind it stays pegged. The
search for the one behind then stops at the one in front.
-/

namespace XnuXzs.Ipc

open Lib Function

/-- All objects hash to the first slot but one, which hashes to the second. -/
def crowdHash (obj : Option Nat) : Nat := if obj = some (distMax + 2) then 1 else 0

/-- The entries from 1 to `k` in a row, as they were inserted. -/
def ladder (k s : Nat) : Slot := if s < k then ⟨s + 1, min s distMax⟩ else ⟨0, 0⟩

/-- The row without its first entry. -/
def shifted (s : Nat) : Slot :=
  if s < distMax + 2 then ⟨s + 2, if s = distMax then distMax - 1 else min s distMax⟩ else ⟨0, 0⟩

/-- A table in which the object of each entry is its index. -/
def crowd (slot : Nat → Slot) : HashTable Nat := ⟨distMax + 5, some, slot⟩

def upTo (k i : Nat) : Option Nat := if 0 < i ∧ i ≤ k then some i else none

theorem ladder_lt {k s : Nat} (hs : s < k) : ladder k s = ⟨s + 1, min s distMax⟩ := if_pos hs

variable {k s p fuel : Nat} {slot : Nat → Slot}

theorem ladder_ge (hs : k ≤ s) : ladder k s = ⟨0, 0⟩ := if_neg (not_lt.mpr hs)

theorem ladder_succ (k : Nat) : ladder (k + 1) = update (ladder k) k ⟨k + 1, min k distMax⟩ := by
  funext s
  by_cases hs : s = k
  · rw [hs, update_self, ladder_lt (Nat.lt_succ_self k)]
  rw [update_of_ne hs]
  unfold ladder
  congr 1
  exact propext ⟨fun h => by omega, fun h => by omega⟩

theorem crowd_next (hs : s < distMax + 4) : cycNext (distMax + 5) s = s + 1 :=
  if_neg (by omega)

theorem peg_min (d : Nat) : peg (min d distMax) = min (d + 1) distMax := by
  unfold peg
  split <;> omega

theorem crowd_late : tableHash crowdHash (some (distMax + 2)) (distMax + 5) = 1 := by
  rw [tableHash, crowdHash, if_pos rfl]
  exact Nat.mod_eq_of_lt (by omega)

theorem crowd_home {i : Nat} (hi : i ≠ distMax + 2) :
    tableHash crowdHash (some i) (distMax + 5) = 0 := by
  rw [tableHash, crowdHash, if_neg fun heq => hi (Option.some.inj heq), Nat.zero_mod]

theorem insertFrom_ladder {home k fuel p : Nat} (hhome : home ≤ p) (hpk : p ≤ k)
    (hk : k < distMax + 4) (hend : min (k - home) distMax = min k distMax) (hfuel : k < p + fuel) :
    insertFrom (distMax + 5) fuel (ladder k) p ⟨k + 1, min (p - home) distMax⟩ =
      some (ladder (k + 1)) := by
  induction fuel generalizing p with
  | zero => omega
  | succ fuel ih =>
    unfold insertFrom
    rcases lt_or_eq_of_le hpk with hlt | rfl
    · rw [ladder_lt hlt, if_neg (Nat.succ_ne_zero p), if_neg (by dsimp only; omega),
        crowd_next (by omega), peg_min, ← Nat.sub_add_comm hhome]
      exact ih (by omega) hlt (by omega)
    · rw [ladder_ge le_rfl, if_pos rfl, hend, ladder_succ]

theorem insert_crowd (hk : k ≤ distMax + 2) :
    insert crowdHash (crowd (ladder k)) (some (k + 1)) (k + 1) = some (crowd (ladder (k + 1))) := by
  rw [insert_eq (Nat.succ_ne_zero k) rfl]
  suffices hfrom : ∃ home ≤ 1, keyHome crowdHash (crowd (ladder k)) (k + 1) = home ∧
      home ≤ k ∧ min (k - home) distMax = min k distMax by
    obtain ⟨home, hle, hkey, hhome, hend⟩ := hfrom
    have hloop :=
      @insertFrom_ladder home k (distMax + 5) home le_rfl hhome (by omega) hend (by omega)
    rw [Nat.sub_self, Nat.zero_min] at hloop
    rw [hkey]
    exact congrArg (Option.map fun slot => crowd slot) hloop
  by_cases hlate : k + 1 = distMax + 2
  · rw [hlate]
    exact ⟨1, le_rfl, crowd_late, by omega, by omega⟩
  · exact ⟨0, Nat.zero_le 1, crowd_home hlate, Nat.zero_le k, rfl⟩

theorem upTo_succ (k : Nat) : upTo (k + 1) = update (upTo k) (k + 1) (some (k + 1)) := by
  funext i
  by_cases hi : i = k + 1
  · rw [hi, update_self, upTo, if_pos ⟨Nat.succ_pos k, le_rfl⟩]
  rw [update_of_ne hi]
  unfold upTo
  congr 1
  exact propext ⟨fun h => by omega, fun h => by omega⟩

theorem crowd_insertable (hk : k ≤ distMax + 2) :
    Insertable ⟨crowd (ladder k), upTo k⟩ (k + 1) (k + 1) := by
  refine ⟨Nat.succ_pos k, show k + 1 < distMax + 5 by omega, rfl, ?_, ?_, ?_⟩
  · exact if_neg (by omega)
  · intro i hi
    dsimp only [upTo] at hi
    split at hi
    · cases hi
      omega
    · cases hi
  · refine ⟨distMax + 3, Nat.lt_add_of_pos_right Nat.two_pos, distMax + 4, Nat.lt_succ_self _,
      by omega, ?_, ?_⟩
    · exact occupant_eq_none.mpr (congrArg Slot.index (ladder_ge (by omega)))
    · exact occupant_eq_none.mpr (congrArg Slot.index (ladder_ge (by omega)))

theorem crowd_reachable (hk : k ≤ distMax + 3) :
    (hashSystem crowdHash fun _ => True).Reachable ⟨crowd (ladder k), upTo k⟩ := by
  induction k with
  | zero =>
    exact .start ⟨Nat.le_add_left 2 _, fun i => ladder_ge (Nat.zero_le i), fun i =>
      if_neg (by omega)⟩
  | succ k ih =>
    rw [upTo_succ]
    exact .next (ih (by omega)) (.insert (k + 1) (k + 1) _ (crowd_insertable (by omega)) trivial
      (insert_crowd (by omega)))

/-- The row while its entries are moved, with the hole at `p`. -/
def moving (p s : Nat) : Slot := if s < p then shifted s else ladder (distMax + 3) s

theorem moving_ge (hs : p ≤ s) : moving p s = ladder (distMax + 3) s :=
  if_neg (not_lt.mpr hs)

theorem moving_succ (p : Nat) : moving (p + 1) = update (moving p) p (shifted p) := by
  funext s
  by_cases hs : s = p
  · rw [hs, update_self, moving, if_pos (Nat.lt_succ_self p)]
  rw [update_of_ne hs]
  unfold moving
  congr 1
  exact propext ⟨fun h => by omega, fun h => by omega⟩

theorem moving_last : moving (distMax + 3) = shifted := by
  funext s
  unfold moving
  split
  · rfl
  · rw [ladder_ge (by omega), shifted, if_neg (by omega)]

theorem closer_ladder (hp : p < distMax + 2) :
    (⟨p + 2, closer crowdHash (crowd slot) p ⟨p + 2, min (p + 1) distMax⟩⟩ : Slot) = shifted p := by
  have hsize : distMax = 4095 := rfl
  rw [shifted, if_pos hp]
  congr 1
  unfold closer
  dsimp only [crowd]
  split
  · split_ifs with hlate
    · rw [hlate, crowd_late, cycDist, if_pos (by omega)]
      omega
    · rw [crowd_home fun heq => hlate (Nat.add_right_cancel heq), cycDist,
        if_pos (Nat.zero_le p), Nat.sub_zero]
  · split <;> omega

theorem shiftFrom_crowd (hp : p ≤ distMax + 2) (hfuel : distMax + 2 < p + fuel) :
    shiftFrom crowdHash (crowd slot) fuel (moving p) p = some shifted := by
  induction fuel generalizing p with
  | zero => omega
  | succ fuel ih =>
    unfold shiftFrom
    have hnext : cycNext (crowd slot).size p = p + 1 := crowd_next (by omega)
    rw [hnext, moving_ge (Nat.le_succ p)]
    rcases Nat.lt_or_eq_of_le hp with hlt | rfl
    · have hmin : min (p + 1) distMax ≠ 0 := by
        have hsize : distMax = 4095 := rfl
        omega
      rw [ladder_lt (Nat.succ_lt_succ hlt)]
      dsimp only
      rw [if_neg (by rw [not_or]; exact ⟨Nat.succ_ne_zero _, hmin⟩),
        closer_ladder hlt, ← moving_succ]
      exact ih hlt (by omega)
    · rw [ladder_ge le_rfl]
      dsimp only
      have hempty : shifted (distMax + 2) = ⟨0, 0⟩ := if_neg (lt_irrefl _)
      rw [if_pos (.inl rfl), ← hempty, ← moving_succ, moving_last]

theorem delete_crowd :
    delete crowdHash (crowd (ladder (distMax + 3))) (some 1) 1 = some (crowd shifted) := by
  have hfirst : ∀ fuel, findFrom (crowd (ladder (distMax + 3))) 1 (fuel + 1) 0 = some 0 := by
    intro fuel
    have hslot : (crowd (ladder (distMax + 3))).slot 0 = ⟨0 + 1, min 0 distMax⟩ :=
      @ladder_lt (distMax + 3) 0 (Nat.succ_pos _)
    rw [findFrom, hslot, if_pos rfl]
  have hhome : keyHome crowdHash (crowd (ladder (distMax + 3))) 1 = 0 := crowd_home (by omega)
  have hsize : (crowd (ladder (distMax + 3))).size = distMax + 4 + 1 := rfl
  have hstart : (crowd (ladder (distMax + 3))).slot = moving 0 :=
    funext fun s => (moving_ge (Nat.zero_le s)).symm
  rw [delete_eq Nat.one_ne_zero rfl, hhome, hsize, hfirst, Option.bind_some, hstart,
    shiftFrom_crowd (Nat.zero_le _) (by omega)]
  rfl

theorem lookupFrom_shifted (hp : p ≤ distMax) (hfuel : distMax < p + fuel) :
    lookupFrom (crowd shifted) (distMax + 3) fuel p p = some .absent := by
  have hsize : distMax = 4095 := rfl
  induction fuel generalizing p with
  | zero => omega
  | succ fuel ih =>
    unfold lookupFrom
    have hslot : (crowd shifted).slot p =
        ⟨p + 2, if p = distMax then distMax - 1 else min p distMax⟩ := if_pos (by omega)
    have hnext : cycNext (crowd shifted).size p = p + 1 := crowd_next (by omega)
    rw [hslot, hnext]
    dsimp only
    rw [if_neg (Nat.succ_ne_zero _)]
    rcases lt_or_eq_of_le hp with hlt | rfl
    · have hother : (crowd shifted).object (p + 2) ≠ some (distMax + 3) := fun heq =>
        absurd (Option.some.inj heq) (by omega)
      have hinside : ¬ (crowd shifted).size ≤ p + 2 :=
        not_le.mpr (show p + 2 < distMax + 5 by omega)
      rw [if_neg (by split <;> omega), if_neg hinside, if_neg hother, peg_eq hlt]
      exact ih hlt (by omega)
    · rw [if_pos (by rw [if_pos rfl]; omega)]

/-- Nothing but the room for one more entry is asked of the insertions, and an
object that was inserted and not deleted is not found. -/
theorem pegged_not_found :
    ∃ s : Hashed Nat, (hashSystem crowdHash fun _ => True).Reachable s ∧
      s.present (distMax + 3) = some (distMax + 3) ∧
      lookup crowdHash s.table (some (distMax + 3)) = some .absent := by
  refine ⟨⟨crowd shifted, update (upTo (distMax + 3)) 1 none⟩, ?_, ?_, ?_⟩
  · have hfirst : upTo (distMax + 3) 1 = some 1 := if_pos ⟨Nat.one_pos, Nat.le_add_left 1 _⟩
    exact .next (crowd_reachable le_rfl) (.delete 1 1 _ hfirst delete_crowd)
  · dsimp only
    rw [update_of_ne (by omega), upTo, if_pos ⟨Nat.succ_pos _, le_rfl⟩]
  have hhome : tableHash crowdHash (some (distMax + 3)) (crowd shifted).size = 0 :=
    crowd_home (by omega)
  rw [lookup, hhome]
  exact lookupFrom_shifted (Nat.zero_le _) (show distMax < 0 + (distMax + 5) by omega)

end XnuXzs.Ipc
