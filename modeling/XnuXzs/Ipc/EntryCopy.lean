import XnuXzs.Ipc.EntryTable
import XnuXzs.Ipc.HashContent

/-!
# The new table

The entries that are new are linked in a random order that starts with the first of
them. Copying an entry keeps the hash in step, whatever the snapshot of it was.
-/

namespace XnuXzs.Ipc

open Lib List Function

variable {α : Type*} {count ncount curr bottom top : Nat} {table : Nat → Entry α} {l : List Nat}

/-- The entry `curr` and those from `bottom` to `top` are strung together, `curr` first. -/
structure Strung (table table' : Nat → Entry α) (curr bottom top : Nat) (l : List Nat) : Prop where
  nodup : l.Nodup
  mem : ∀ i, i ∈ l ↔ bottom ≤ i ∧ i ≤ top
  visits : Visits (fun i => (table' i).next) curr (curr :: l) 0
  bits : ∀ i, i = curr ∨ bottom ≤ i ∧ i ≤ top → (table' i).bits = genMask
  object : ∀ i, (table' i).object = (table i).object
  other : ∀ i, i ≠ curr → i < bottom ∨ top < i → table' i = table i

theorem strung_last (hlt : top < bottom) (hzero : (table curr).next = 0) :
    Strung table (update table curr { table curr with bits := genMask }) curr bottom top [] := by
  refine ⟨nodup_nil, fun i => ⟨nofun, fun hi => absurd hlt (by omega)⟩, ⟨rfl, ?_⟩, fun i hi => ?_,
    fun i => ?_, fun i hi _ => update_of_ne hi ..⟩
  · dsimp only
    rw [update_self]
    exact hzero
  · obtain rfl : i = curr := hi.resolve_right (by omega)
    rw [update_self]
  · by_cases hi : i = curr
    · rw [hi, update_self]
    · rw [update_of_ne hi]

theorem Strung.cons {table' : Nat → Entry α} {next bottom' top' : Nat}
    (hcurr : curr < bottom ∨ top < curr)
    (hrange : ∀ i, bottom ≤ i ∧ i ≤ top ↔ i = next ∨ bottom' ≤ i ∧ i ≤ top')
    (hnext : next < bottom' ∨ top' < next)
    (h : Strung (update table curr { table curr with bits := genMask, next := next })
      table' next bottom' top' l) :
    Strung table table' curr bottom top (next :: l) := by
  have hout : ∀ i, i < bottom ∨ top < i → i ≠ next ∧ (i < bottom' ∨ top' < i) := by
    intro i hi
    have := hrange i
    omega
  obtain ⟨hne, hout'⟩ := hout curr hcurr
  have hfirst := h.other curr hne hout'
  rw [update_self] at hfirst
  refine ⟨nodup_cons.mpr ⟨fun hmem => ?_, h.nodup⟩, fun i => ?_,
    ⟨rfl, ?_⟩, fun i hi => ?_, fun i => ?_,
    fun i hi hin => ?_⟩
  · have := (h.mem next).mp hmem
    omega
  · rw [mem_cons, h.mem, hrange]
  · dsimp only
    rw [hfirst]
    exact h.visits
  · rcases hi with rfl | hi
    · rw [hfirst]
    · exact h.bits i ((hrange i).mp hi)
  · rw [h.object]
    by_cases hi : i = curr
    · rw [hi, update_self]
    · rw [update_of_ne hi]
  · obtain ⟨hin, hout'⟩ := hout i hin
    rw [h.other i hin hout', update_of_ne hi]

theorem randFreelistFrom_strung (which : Nat → Bool) {rounds curr bottom top : Nat}
    {table : Nat → Entry α} (hrounds : top + 1 ≤ bottom + rounds) (hbottom : 0 < bottom)
    (hcurr : curr < bottom ∨ top < curr)
    (hzero : ∀ i, i = curr ∨ bottom ≤ i ∧ i ≤ top → (table i).next = 0) :
    ∃ l, Strung table (randFreelistFrom which rounds table curr bottom top) curr bottom top l := by
  induction rounds generalizing table curr bottom top with
  | zero => exact ⟨[], strung_last (by omega) (hzero curr (.inl rfl))⟩
  | succ rounds ih =>
    unfold randFreelistFrom
    split
    · dsimp only
      generalize hdrawn : (if which rounds then top else bottom) = next
      generalize hb : (if which rounds then bottom else bottom + 1) = bottom'
      generalize ht : (if which rounds then top - 1 else top) = top'
      obtain ⟨hrange, hrounds, hbottom, hnext⟩ :
          (∀ i, bottom ≤ i ∧ i ≤ top ↔ i = next ∨ bottom' ≤ i ∧ i ≤ top') ∧
          top' + 1 ≤ bottom' + rounds ∧ 0 < bottom' ∧ (next < bottom' ∨ top' < next) := by
        cases hwhich : which rounds <;> simp only [hwhich, if_true, Bool.false_eq_true, if_false]
          at hdrawn hb ht
        · exact ⟨fun i => by omega, by omega, by omega, by omega⟩
        · exact ⟨fun i => by omega, by omega, by omega, by omega⟩
      obtain ⟨l, hl⟩ := @ih next bottom' top'
        (update table curr { table curr with bits := genMask, next := next })
          hrounds hbottom hnext (by
          intro i hi
          have hin := (hrange i).mpr hi
          rw [update_of_ne (by omega)]
          exact hzero i (.inr hin))
      exact ⟨next :: l, hl.cons hcurr hrange hnext⟩
    · rename_i hle
      exact ⟨[], strung_last (Nat.lt_of_not_le hle) (hzero curr (.inl rfl))⟩

theorem freshCopy_spec (which : Nat → Bool) (hpos : 0 < count) (hlt : count < ncount) :
    ∃ l : List Nat, (count :: l).Nodup ∧ (∀ i, i ∈ count :: l ↔ count ≤ i ∧ i < ncount) ∧
      Visits (fun i => ((freshCopy count ncount which : Copy α).entry i).next)
        count (count :: l) 0 ∧
      (∀ i, count ≤ i → i < ncount →
        ((freshCopy count ncount which : Copy α).entry i).bits = genMask) ∧
      (∀ i, ((freshCopy count ncount which : Copy α).entry i).object = none) ∧
      ∀ i < count, (freshCopy count ncount which : Copy α).entry i = ⟨none, 0, 0⟩ := by
  obtain ⟨l, hl⟩ := @randFreelistFrom_strung α which (ncount - count) count (count + 1) (ncount - 1)
    (fun _ => ⟨none, 0, 0⟩) (by omega) (Nat.succ_pos count) (.inl (Nat.lt_succ_self count))
      fun _ _ => rfl
  refine ⟨l, nodup_cons.mpr ⟨fun hmem => ?_, hl.nodup⟩, fun i => ?_, hl.visits, fun i hi hlt => ?_,
    hl.object, fun i hi => hl.other i (by omega) (by omega)⟩
  · have := (hl.mem count).mp hmem
    omega
  · rw [mem_cons, hl.mem]
    omega
  · exact hl.bits i (by omega)

variable (count ncount) in
/-- The hash of the copy has the entries of type send. -/
structure CopyHash (c : Copy α) : Prop where
  distinct : Distinct ncount c.slot
  keys : ∀ i, Keys ncount c.slot i ↔
    InTable count i ∧ (c.entry i).object.isSome ∧ typeOf (c.entry i).bits = typeSend

theorem exists_empty {slot : Nat → Slot} (hd : Distinct ncount slot)
    (hkeys : ∀ i, Keys ncount slot i → i < count) (hlt : count < ncount) :
    ∃ e < ncount, occupant slot e = none := by
  by_contra hfull
  have hsome : ∀ s < ncount, occupant slot s = some (slot s).index := by
    intro s hs
    refine occupant_eq_some.mpr ⟨fun hzero => hfull ⟨s, hs, occupant_eq_none.mpr hzero⟩, rfl⟩
  obtain ⟨s, hs, r, hr, hne, heq⟩ := Finset.exists_ne_map_eq_of_card_lt_of_maps_to
    (s := Finset.range ncount) (t := Finset.range count) (by simpa using hlt)
    (f := fun s => (slot s).index) fun s hs => by
      have hs := Finset.mem_range.mp hs
      exact Finset.mem_coe.mpr (Finset.mem_range.mpr (hkeys _ ⟨s, hs, hsome s hs⟩))
  rw [Finset.mem_range] at hs hr
  exact hne (hd s hs r hr _ (hsome s hs) (heq ▸ hsome r hr))

section Copying

variable [DecidableEq α] {hash : Option α → Nat} {c : Copy α} {i : Nat}

section

variable (h : CopyHash count ncount c) (hlt : count < ncount) (hi : InTable count i)
include h hlt hi

theorem copyEntry_delete :
    ∃ slot, (if (c.entry i).object.isSome ∧ typeOf (c.entry i).bits = typeSend
        then delete hash (c.table ncount) (c.entry i).object i else some (c.table ncount)) =
        some { c.table ncount with slot := slot } ∧
      Distinct ncount slot ∧ ∀ j, Keys ncount slot j ↔ Keys ncount c.slot j ∧ j ≠ i := by
  by_cases hhashed : (c.entry i).object.isSome ∧ typeOf (c.entry i).bits = typeSend
  · obtain ⟨hsome, hsend⟩ := hhashed
    obtain ⟨obj, hobj⟩ := Option.isSome_iff_exists.mp hsome
    obtain ⟨-, slot, -, -, hdelete, -, hdistinct, hkeys⟩ :=
      @delete_removed _ hash (c.table ncount) _ obj i (Nat.mod_lt _ (by change 0 < ncount; omega))
        hi.1.ne'
        hobj h.distinct ((h.keys i).mpr ⟨hi, hsome, hsend⟩)
        (exists_empty h.distinct (fun j hj => ((h.keys j).mp hj).1.2) hlt)
    refine ⟨slot, ?_, hdistinct, hkeys⟩
    rw [if_pos ⟨hsome, hsend⟩, hobj]
    exact hdelete
  · refine ⟨c.slot, if_neg hhashed, h.distinct, fun j => (and_iff_left_of_imp ?_).symm⟩
    rintro hj rfl
    exact hhashed ((h.keys j).mp hj).2

/-- Whatever was loaded of an entry, its copy is that, and the hash is in step. -/
theorem copyEntry_spec (object : Option α) (bits : UInt32) (next : Nat) :
    ∃ slot, copyEntry ncount hash c i object bits next =
        some ⟨update c.entry i ⟨object, bits, next⟩, slot⟩ ∧
      CopyHash count ncount ⟨update c.entry i ⟨object, bits, next⟩, slot⟩ := by
  have hother : ∀ j ≠ i, update c.entry i ⟨object, bits, next⟩ j = c.entry j := fun j hj =>
    update_of_ne hj ..
  unfold copyEntry
  by_cases hchanged : (c.entry i).object ≠ object ∨ typeOf (c.entry i).bits ≠ typeOf bits
  · obtain ⟨slot, hdelete, hdistinct, hkeys⟩ := @copyEntry_delete _ count ncount _ hash c i h hlt hi
    dsimp only
    rw [if_pos hchanged, hdelete, Option.bind_some]
    have hnew : ¬ Keys ncount slot i := fun hkey => ((hkeys i).mp hkey).2 rfl
    have hold : ∀ j, Keys ncount slot j ↔ j ≠ i ∧ InTable count j ∧
        (update c.entry i ⟨object, bits, next⟩ j).object.isSome ∧
        typeOf (update c.entry i ⟨object, bits, next⟩ j).bits = typeSend := by
      intro j
      rw [hkeys, h.keys]
      constructor
      · rintro ⟨hj, hne⟩
        rw [hother j hne]
        exact ⟨hne, hj⟩
      · rintro ⟨hne, hj⟩
        rw [hother j hne] at hj
        exact ⟨hj, hne⟩
    by_cases hhashed : object.isSome ∧ typeOf bits = typeSend
    · obtain ⟨hsome, hsend⟩ := hhashed
      obtain ⟨obj, rfl⟩ := Option.isSome_iff_exists.mp hsome
      obtain ⟨slot', -, hinsert, -, hdistinct', hkeys'⟩ :=
        @insert_added _ hash
          (Copy.table ncount ⟨update c.entry i ⟨some obj, bits, next⟩, slot⟩) _ obj i
          (Nat.mod_lt _ (by change 0 < ncount; omega)) hi.1.ne'
          (congrArg Entry.object (update_self i _ c.entry)) hdistinct hnew
          (exists_empty hdistinct (fun j hj => ((h.keys j).mp ((hkeys j).mp hj).1).1.2) hlt)
      refine ⟨slot', ?_, hdistinct', fun j => (hkeys' j).trans ?_⟩
      · rw [if_pos ⟨hsome, hsend⟩, hinsert]
        rfl
      dsimp only [Copy.table]
      by_cases hj : j = i
      · subst hj
        rw [update_self]
        exact iff_of_true (.inr rfl) ⟨hi, hsome, hsend⟩
      · rw [or_iff_left hj]
        exact (hold j).trans (and_iff_right hj)
    · refine ⟨slot, if_neg hhashed, hdistinct, fun j => (hold j).trans ?_⟩
      apply and_iff_right_of_imp
      rintro ⟨-, hsome, hsend⟩ rfl
      rw [update_self] at hsome hsend
      exact hhashed ⟨hsome, hsend⟩
  · rw [not_or, not_not, not_not] at hchanged
    obtain ⟨hobject, htype⟩ := hchanged
    refine ⟨c.slot, ?_, h.distinct, fun j => (h.keys j).trans ?_⟩
    · dsimp only
      rw [if_neg (by simp [hobject, htype]), hobject]
    dsimp only
    by_cases hj : j = i
    · subst hj
      rw [update_self, hobject, htype]
    · rw [hother j hj]

end

end Copying

theorem freeEnd_last {c : Copy α} {a fuel : Nat}
    (hvisits : Visits (fun i => (c.entry i).next) a (a :: l) 0) (hin : ∀ i ∈ l, InTable count i)
    (hobjects : ∀ i ∈ a :: l, (c.entry i).object = none) (hfuel : l.length ≤ fuel) :
    freeEnd count c fuel a = (a :: l).getLast (cons_ne_nil a l) := by
  induction l generalizing a fuel with
  | nil =>
    have hnext : (c.entry a).next = 0 := hvisits.2
    rcases fuel with _ | fuel
    · rfl
    · rw [freeEnd, hobjects a mem_cons_self, if_neg (by simp), if_pos (.inl hnext)]
      rfl
  | cons y l ih =>
    obtain ⟨fuel, rfl⟩ : ∃ n, fuel = n + 1 := ⟨fuel - 1, by rw [length_cons] at hfuel; omega⟩
    obtain ⟨-, hy, hrest⟩ := hvisits
    have hnext : (c.entry a).next = y := hy
    obtain ⟨hpos, hlt⟩ := hin y mem_cons_self
    rw [freeEnd, hobjects a mem_cons_self, if_neg (by simp), hnext, if_neg (by omega)]
    rw [ih ⟨rfl, hrest⟩ (fun i hi => hin i (mem_cons_of_mem y hi))
      (fun i hi => hobjects i (mem_cons_of_mem a hi)) (Nat.le_of_succ_le_succ hfuel)]
    rfl

end XnuXzs.Ipc
