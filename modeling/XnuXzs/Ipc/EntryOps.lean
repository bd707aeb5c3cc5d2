import XnuXzs.Ipc.EntryTable

/-!
# What other threads change

Each operation is looked at after all of its stores. The free list stays exact, and
every entry that is stored to is marked by then or still in the hands of the caller.
-/

namespace XnuXzs.Ipc

open Lib List Function Option

variable {α : Type*} {count i : Nat} {sp : Space α} {stores : List (Store α)}

def Store.target : Store α → Option Nat
  | .object i _ | .bits i _ | .next i _ => some i
  | .tableFree _ | .modified _ => none

theorem runStores_cons (st : Store α) :
    runStores sp (st :: stores) = runStores (st.apply sp) stores := rfl

theorem runStores_append (more : List (Store α)) :
    runStores sp (stores ++ more) = runStores (runStores sp stores) more := foldl_append

variable {st : Store α}

theorem Store.apply_entry (hst : st.target ≠ some i) :
    (st.apply sp).entry i = sp.entry i := by
  cases st with
  | object j | bits j | next j =>
    refine update_of_ne ?_ ..
    rintro rfl
    exact hst rfl
  | tableFree | modified => rfl

theorem runStores_entry (hstores : ∀ st ∈ stores, st.target ≠ some i) :
    (runStores sp stores).entry i = sp.entry i := by
  induction stores generalizing sp with
  | nil => rfl
  | cons st stores ih =>
    rw [runStores_cons, ih fun st' hst' => hstores st' (mem_cons_of_mem st hst'),
      Store.apply_entry (hstores st mem_cons_self)]

variable (count sp) in
/-- The marks are in the table, and if there is one, there is a range of them. -/
structure Marks : Prop where
  low_pos : 0 < sp.lowMod
  low_le : sp.lowMod ≤ count
  high_lt : sp.highMod < count
  range : sp.lowMod < count → sp.lowMod ≤ sp.highMod

theorem Marks.apply (h : Marks count sp) (hst : ∀ i, st = .modified i → InTable count i) :
    Marks count (st.apply sp) := by
  cases st with
  | modified i =>
    obtain ⟨hpos, hlt⟩ := hst i rfl
    obtain ⟨hlow, hle, hhigh, -⟩ := h
    refine ⟨?_, ?_, ?_, ?_⟩ <;> simp only [Store.apply] <;> omega
  | object | bits | next | tableFree => exact ⟨h.low_pos, h.low_le, h.high_lt, h.range⟩

variable (sp) in
/-- The entry may differ from its copy: it was marked, or will be by the caller that
has it. -/
def Dirty (taken : Option Nat) (i : Nat) : Prop :=
  taken = some i ∨ sp.lowMod ≤ i ∧ i ≤ sp.highMod

theorem apply_marks (st : Store α) :
    (st.apply sp).lowMod ≤ sp.lowMod ∧ sp.highMod ≤ (st.apply sp).highMod := by
  cases st with
  | modified => exact ⟨min_le_right .., le_max_right ..⟩
  | object | bits | next | tableFree => exact ⟨le_rfl, le_rfl⟩

theorem runStores_marks :
    (runStores sp stores).lowMod ≤ sp.lowMod ∧ sp.highMod ≤ (runStores sp stores).highMod := by
  induction stores generalizing sp with
  | nil => exact ⟨le_rfl, le_rfl⟩
  | cons st stores ih =>
    obtain ⟨hlow, hhigh⟩ := @apply_marks _ sp st
    obtain ⟨hlow', hhigh'⟩ := @ih (st.apply sp)
    exact ⟨hlow'.trans hlow, hhigh.trans hhigh'⟩

theorem runStores_dirty {taken : Option Nat} (h : sp.lowMod ≤ i ∧ i ≤ sp.highMod) :
    Dirty (runStores sp stores) taken i := by
  obtain ⟨hlow, hhigh⟩ := @runStores_marks _ sp stores
  exact .inr ⟨hlow.trans h.1, h.2.trans hhigh⟩

theorem runStores_modified {taken : Option Nat} (hi : .modified i ∈ stores) :
    Dirty (runStores sp stores) taken i := by
  obtain ⟨before, after, rfl⟩ := append_of_mem hi
  rw [runStores_append, runStores_cons]
  exact runStores_dirty ⟨min_le_left .., le_max_left ..⟩

variable (count sp) in
/-- All that an operation stores to is marked in the end, or still in its hands. -/
structure Marked (taken taken' : Option Nat) (stores : List (Store α)) : Prop where
  modified : ∀ i, .modified i ∈ stores → InTable count i
  targets : ∀ st ∈ stores, ∀ i, st.target = some i → i = 0 ∨ Dirty (runStores sp stores) taken' i
  given : ∀ i, taken = some i → Dirty (runStores sp stores) taken' i
  noted : stores ≠ [] → ∃ i, InTable count i ∧ Dirty (runStores sp stores) taken' i

variable {free front : List Nat} {p : Nat}

theorem SpaceInv.take (h : SpaceInv count sp none free) {sp' : Space α} {front back : List Nat}
    {p x : Nat} (hfree : 0 :: free = front ++ p :: x :: back)
    (hp : sp'.entry p = { sp.entry p with next := (sp.entry x).next })
    (hother : ∀ i ≠ p, i ≠ x → sp'.entry i = sp.entry i)
    (hcount : sp'.tableFree = sp.tableFree - 1) :
    SpaceInv count sp' (some x) (free.erase x) := by
  have hnodup := (nodup_cons.mp h.list.nodup).2
  have hxmem : x ∈ free := by
    rcases front with _ | ⟨y, front⟩
    · cases hfree
      exact mem_cons_self
    · cases hfree
      simp
  -- whatever the entry `x` is now, it is not in the list
  have hlist := h.list.unlink (v := (sp'.entry x).next) hfree
  have hkept : ∀ i ≠ x, (sp'.entry i).object = (sp.entry i).object ∧
      (sp'.entry i).bits = (sp.entry i).bits := by
    intro i hi
    by_cases hip : i = p
    · rw [hip, hp]
      exact ⟨rfl, rfl⟩
    · rw [hother i hip hi]
      exact ⟨rfl, rfl⟩
  have hne : ∀ i, some x ≠ some i → i ≠ x := fun i hi heq => hi (congrArg some heq.symm)
  refine ⟨hlist.congr fun i _ => ?_, fun i hi =>
    h.range i (mem_of_mem_erase hi), ?_, ?_, ?_, ?_, ?_⟩
  · by_cases hix : i = x
    · rw [hix, update_self]
    rw [update_of_ne hix]
    by_cases hip : i = p
    · rw [hip, update_self, hp]
    · rw [update_of_ne hip, hother i hip hix]
  · intro i hi
    have hix : i ≠ x := by
      rintro rfl
      rcases mem_cons.mp hi with hzero | hmem
      · exact h.list.ne_zero hxmem hzero
      · exact (List.Nodup.mem_erase_iff hnodup).mp hmem |>.1 rfl
    rw [(hkept i hix).1]
    apply h.objects
    rcases mem_cons.mp hi with rfl | hmem
    · exact mem_cons_self
    · exact mem_cons_of_mem 0 (mem_of_mem_erase hmem)
  · intro i hi
    cases hi
    exact ⟨⟨pos_of_ne_zero (h.list.ne_zero hxmem), h.range x hxmem⟩, hnodup.not_mem_erase⟩
  · intro i hi htaken
    rw [(hkept i (hne i htaken)).2, ← h.exact i hi (some_ne_none i).symm, hnodup.mem_erase_iff]
    exact and_iff_right (hne i htaken)
  · intro i hi htaken
    rw [(hkept i (hne i htaken)).2, (hkept i (hne i htaken)).1]
    exact h.send i hi (some_ne_none i).symm
  · rw [hcount, h.tableFree, length_erase_of_mem hxmem]

theorem validName_of_lt (hpos : 0 < i) (hlt : i < 2 ^ 24 - 1) (gen : UInt32) :
    validName i gen = true := by
  have hgen : (gen >>> 24).toNat < 2 ^ 8 := by
    have := gen.toNat_lt
    rw [UInt32.toNat_shiftRight, Nat.shiftRight_eq_div_pow]
    exact Nat.div_lt_of_lt_mul this
  unfold validName
  rw [Nat.mod_eq_of_lt (by omega), mul_comm, ← Nat.two_pow_add_eq_or_of_lt hgen]
  simp only [ne_eq, decide_not, Bool.and_eq_true, Bool.not_eq_eq_eq_not, Bool.not_true,
    decide_eq_false_iff_not]
  omega

theorem claim_spec (h : SpaceInv count sp none free) (hmax : count ≤ countMax)
    (hheld : (sp.entry 0).next ≠ 0) (obj : Option α) (roll : UInt32) :
    ∃ stores x, claim count sp obj roll = some (stores, x) ∧
      SpaceInv count (runStores sp stores) (some x) (free.erase x) ∧
      Marked count sp none (some x) stores := by
  obtain ⟨-, hvisits⟩ := h.list.visits
  rcases hfree : free with _ | ⟨x, back⟩
  · rw [hfree] at hvisits
    exact absurd hvisits hheld
  rw [hfree] at hvisits
  obtain ⟨hx, hback⟩ := hvisits
  dsimp only at hx
  have hmem : x ∈ free := by
    rw [hfree]
    exact mem_cons_self
  have hxpos := h.list.ne_zero hmem
  have hxlt := h.range x hmem
  have hnext : (sp.entry x).next < count := by
    rcases back with _ | ⟨y, back⟩
    · rw [show (sp.entry x).next = 0 from hback]
      omega
    rw [show (sp.entry x).next = y from hback.1]
    apply h.range
    rw [hfree]
    simp
  have hobject := h.objects x (mem_cons_of_mem 0 hmem)
  have hcountMax : countMax = 305834 := rfl
  refine ⟨claimStores sp x obj roll, x, ?_, ?_, ?_⟩
  · unfold claim
    rw [hx, if_neg]
    rw [hobject, isSome_none, validName_of_lt (by omega) (by omega)]
    simp only [Bool.false_eq_true, not_true_eq_false, or_false, not_or]
    omega
  · rw [← hfree]
    refine @SpaceInv.take _ _ _ _ h _ [] back 0 x (by rw [hfree]; rfl) ?_ ?_ rfl
    · simp [claimStores, runStores, Store.apply, hxpos.symm]
    · intro i hi hix
      simp [claimStores, runStores, Store.apply, hi, hix]
  · refine ⟨fun i hi => ?_, fun st hst i hi => ?_, nofun, fun _ => ⟨x, ⟨by omega, hxlt⟩, .inl rfl⟩⟩
    · simp [claimStores] at hi
    simp only [claimStores, mem_cons, not_mem_nil, or_false] at hst
    rcases hst with rfl | rfl | rfl | rfl | rfl
    · exact .inl (Option.some.inj hi).symm
    · cases hi
    all_goals exact .inr (.inl hi)

theorem findPrev_some {x a fuel : Nat}
    (hvisits : Visits (fun i => (sp.entry i).next) a (front ++ [p]) x) (hx : x ∉ front ++ [p])
    (hlt : ∀ y ∈ front ++ [p], y < count) (hfuel : front.length < fuel) :
    findPrev count sp x fuel a = some p := by
  induction front generalizing a fuel with
  | nil =>
    obtain ⟨rfl, hnext⟩ := hvisits
    obtain ⟨fuel, rfl⟩ := Nat.exists_eq_add_of_lt hfuel
    rw [findPrev, if_pos (show (sp.entry a).next = x from hnext)]
  | cons y front ih =>
    obtain ⟨rfl, hrest⟩ := hvisits
    obtain ⟨fuel, rfl⟩ : ∃ n, fuel = n + 1 := ⟨fuel - 1, by omega⟩
    have hmem : (sp.entry a).next ∈ front ++ [p] := by
      rcases front with _ | ⟨z, front⟩
      · rw [show (sp.entry a).next = p from hrest.1]
        exact mem_cons_self
      · rw [show (sp.entry a).next = z from hrest.1]
        exact mem_cons_self
    have hnotx : (sp.entry a).next ≠ x := by
      rintro rfl
      exact hx (mem_cons_of_mem a hmem)
    rw [findPrev, if_neg hnotx, if_neg (not_le.mpr (hlt _ (mem_cons_of_mem a hmem)))]
    exact ih hrest (fun hmem => hx (mem_cons_of_mem a hmem))
      (fun z hz => hlt z (mem_cons_of_mem a hz)) (Nat.lt_of_succ_lt_succ hfuel)

theorem mem_unlinkStores {x : Nat} {gen roll : UInt32} (hst : st ∈ unlinkStores sp p x gen roll) :
    (∀ i, st.target = some i → i = p ∨ i = x) ∧ ∀ i, st = .modified i → i = p ∧ 0 < p := by
  unfold unlinkStores at hst
  simp only [mem_append, mem_cons, not_mem_nil, or_false] at hst
  rcases hst with ((rfl | rfl) | hmark) | rfl | rfl
  · exact ⟨fun i hi => .inl (Option.some.inj hi).symm, nofun⟩
  · exact ⟨nofun, nofun⟩
  · split at hmark
    · rw [mem_singleton.mp hmark]
      exact ⟨nofun, fun i hi => ⟨(Store.modified.inj hi).symm, ‹_›⟩⟩
    · cases hmark
  · exact ⟨fun i hi => .inr (Option.some.inj hi).symm, nofun⟩
  · exact ⟨fun i hi => .inr (Option.some.inj hi).symm, nofun⟩

theorem unlink_spec (h : SpaceInv count sp none free) {back : List Nat} {x : Nat}
    (hfree : 0 :: free = front ++ p :: x :: back) (gen roll : UInt32) :
    SpaceInv count (runStores sp (unlinkStores sp p x gen roll)) (some x) (free.erase x) ∧
      Marked count sp none (some x) (unlinkStores sp p x gen roll) := by
  have hall := h.list.nodup
  have hmem : ∀ y, y ∈ 0 :: free ↔ y ∈ front ++ p :: x :: back := fun y => by rw [hfree]
  have hp := (hmem p).mpr (by simp)
  have hx := (hmem x).mpr (by simp)
  rw [hfree] at hall
  obtain ⟨-, hback, hapart⟩ := nodup_append.mp hall
  have hpx : p ≠ x := by
    rintro rfl
    exact (nodup_cons.mp hback).1 mem_cons_self
  have hxfree : x ∈ free := by
    apply (mem_cons.mp hx).resolve_left
    rintro rfl
    rcases front with _ | ⟨y, front⟩
    · cases hfree
      exact hpx rfl
    · cases hfree
      exact hapart 0 mem_cons_self 0 (by simp) rfl
  have hxin : InTable count x := ⟨pos_of_ne_zero (h.list.ne_zero hxfree), h.range x hxfree⟩
  have hpin : 0 < p → InTable count p := fun hpos =>
    ⟨hpos, h.range p ((mem_cons.mp hp).resolve_left hpos.ne')⟩
  have hentry : ∀ i, (runStores sp (unlinkStores sp p x gen roll)).entry i =
      if i = x then ⟨(sp.entry x).object, makeGen gen roll, 0⟩
      else if i = p then { sp.entry p with next := (sp.entry x).next } else sp.entry i := by
    intro i
    unfold unlinkStores
    by_cases hix : i = x
    · split <;> simp [runStores, Store.apply, hix, hpx.symm]
    · by_cases hip : i = p
      · split <;> simp [runStores, Store.apply, hip, hpx]
      · split <;> simp [runStores, Store.apply, hix, hip]
  refine ⟨h.take hfree ?_ ?_ ?_, fun i hi => ?_, fun st hst i hi => ?_, nofun, fun _ =>
    ⟨x, hxin, .inl rfl⟩⟩
  · rw [hentry, if_neg hpx, if_pos rfl]
  · intro i hip hix
    rw [hentry, if_neg hix, if_neg hip]
  · unfold unlinkStores
    split <;> rfl
  · obtain ⟨rfl, hpos⟩ := (mem_unlinkStores hi).2 i rfl
    exact hpin hpos
  rcases (mem_unlinkStores hst).1 i hi with rfl | rfl
  · rcases Nat.eq_zero_or_pos i with hzero | hpos
    · exact .inl hzero
    · refine .inr (runStores_modified ?_)
      rw [unlinkStores, if_pos hpos]
      simp
  · exact .inr (.inl rfl)

theorem allocName_spec (h : SpaceInv count sp none free) {index : Nat}
    (hindex : InTable count index) (gen roll : UInt32) :
    ∃ stores taken free', allocName count sp index gen roll = some (stores, taken) ∧
      SpaceInv count (runStores sp stores) taken free' ∧ Marked count sp none taken stores := by
  unfold allocName
  by_cases htype : typeOf (sp.entry index).bits = 0
  · have hmem : index ∈ free := (h.exact index hindex (some_ne_none index).symm).mpr htype
    obtain ⟨before, back, hfree⟩ := append_of_mem hmem
    obtain ⟨front, p, hlast⟩ : ∃ front p, 0 :: before = front ++ [p] :=
      ⟨_, _, (dropLast_append_getLast (cons_ne_nil 0 before)).symm⟩
    have hall : 0 :: free = front ++ p :: index :: back := by
      rw [hfree, ← cons_append, hlast, append_assoc, singleton_append]
    have hvisits := h.list.visits
    have hnodup := h.list.nodup
    rw [hfree, ← cons_append, hlast] at hvisits hnodup
    obtain ⟨b, hto, rfl, -⟩ := visits_append.mp hvisits
    have hnot : b ∉ front ++ [p] := fun hb =>
      (nodup_append.mp hnodup).2.2 b hb b mem_cons_self rfl
    have hin : ∀ y ∈ front ++ [p], y < count := by
      intro y hy
      rw [← hlast] at hy
      rcases mem_cons.mp hy with rfl | hy
      · exact hindex.1.trans hindex.2
      · apply h.range
        rw [hfree]
        exact mem_append_left _ hy
    have hlength : front.length < count := by
      have hle := h.list.length_le h.range
      have hcount := congrArg List.length hall
      simp only [length_cons, length_append] at hcount
      omega
    obtain ⟨hinv, hmarked⟩ := unlink_spec h hall gen roll
    refine ⟨_, _, _, ?_, hinv, hmarked⟩
    rw [if_pos htype, findPrev_some hto hnot hin hlength, bind_some,
      h.objects b (mem_cons_of_mem 0 hmem), isSome_none]
    rfl
  · refine ⟨[], none, free, if_neg htype, h, ?_⟩
    exact ⟨nofun, nofun, nofun, absurd rfl⟩

variable {taken : Option Nat} {x : Nat} {edits : List (Edit α)}

theorem SpaceInv.notFree (h : SpaceInv count sp taken free)
    (hx : taken = some x ∨ taken = none ∧ InTable count x ∧ InUse (sp.entry x)) :
    InTable count x ∧ x ∉ free ∧ ∀ i ≠ x, taken ≠ some i := by
  rcases hx with htaken | ⟨htaken, hin, huse⟩
  · obtain ⟨hin, hnot⟩ := h.taken_range x htaken
    refine ⟨hin, hnot, fun i hi heq => hi ?_⟩
    exact Option.some.inj (heq.symm.trans htaken)
  refine ⟨hin, fun hmem => ?_, fun i _ => ?_⟩
  · exact huse.1 ((h.exact x hin (htaken ▸ (some_ne_none x).symm)).mp hmem)
  · rw [htaken]
    exact (some_ne_none i).symm

theorem typeOf_free (bits : UInt32) : typeOf (bits &&& (genMask ||| rollMask)) = 0 := by
  have hmask : (genMask ||| rollMask) &&& 0x001f0000 = 0 := by decide
  rw [typeOf, UInt32.and_assoc, hmask, UInt32.and_zero]

theorem dealloc_spec (h : SpaceInv count sp taken free)
    (hx : taken = some x ∨ taken = none ∧ InTable count x ∧ InUse (sp.entry x)) :
    SpaceInv count (runStores sp (deallocStores sp x)) none (x :: free) ∧
      Marked count sp taken none (deallocStores sp x) := by
  obtain ⟨hin, hnot, htaken⟩ := h.notFree hx
  have hpos := hin.1.ne'
  have hentry : ∀ i, (runStores sp (deallocStores sp x)).entry i =
      if i = x then ⟨none, (sp.entry x).bits &&& (genMask ||| rollMask), (sp.entry 0).next⟩
      else if i = 0 then { sp.entry 0 with next := x } else sp.entry i := by
    intro i
    by_cases hix : i = x
    · simp [deallocStores, runStores, Store.apply, hix, hpos]
    · by_cases hi0 : i = 0
      · simp [deallocStores, runStores, Store.apply, hi0, hpos.symm]
      · simp [deallocStores, runStores, Store.apply, hix, hi0]
  have hkept : ∀ i ≠ x, ((runStores sp (deallocStores sp x)).entry i).object = (sp.entry i).object ∧
      ((runStores sp (deallocStores sp x)).entry i).bits = (sp.entry i).bits := by
    intro i hix
    rw [hentry i, if_neg hix]
    split
    · rw [‹i = 0›]
      exact ⟨rfl, rfl⟩
    · exact ⟨rfl, rfl⟩
  have hmark : .modified x ∈ deallocStores sp x := by simp [deallocStores]
  refine ⟨⟨(h.list.push hpos hnot).congr fun i _ => ?_, ?_, ?_,
    nofun, fun i hi _ => ?_, fun i hi _ => ?_, ?_⟩,
    fun i hi => ?_, fun st hst i hi => ?_, fun i hi => ?_, fun _ =>
      ⟨x, hin, runStores_modified hmark⟩⟩
  · rw [hentry i]
    split
    · rename_i hix
      rw [hix, update_of_ne hpos, update_self]
    rename_i hix
    split_ifs with hi0
    · rw [hi0, update_self]
    · rw [update_of_ne hi0, update_of_ne hix]
  · intro i hi
    rcases mem_cons.mp hi with rfl | hi
    · exact hin.2
    · exact h.range i hi
  · intro i hi
    by_cases hix : i = x
    · rw [hentry i, if_pos hix]
    · rw [(hkept i hix).1]
      apply h.objects
      simpa [hix] using hi
  · by_cases hix : i = x
    · rw [hentry i, if_pos hix, typeOf_free]
      exact iff_of_true (hix ▸ mem_cons_self) rfl
    · rw [(hkept i hix).2, ← h.exact i hi (htaken i hix), mem_cons, or_iff_right hix]
  · by_cases hix : i = x
    · rw [hentry i, if_pos hix, typeOf_free]
      exact fun hsend => absurd hsend (by decide)
    · rw [(hkept i hix).2, (hkept i hix).1]
      exact h.send i hi (htaken i hix)
  · exact congrArg (· + 1) h.tableFree
  · simp only [deallocStores, mem_cons, not_mem_nil, or_false, reduceCtorEq, false_or,
      Store.modified.injEq] at hi
    exact hi ▸ hin
  · simp only [deallocStores, mem_cons, not_mem_nil, or_false] at hst
    have hdirty : x = i → i = 0 ∨ Dirty (runStores sp (deallocStores sp x)) none i := by
      rintro rfl
      exact .inr (runStores_modified hmark)
    rcases hst with rfl | rfl | rfl | rfl | rfl | rfl
    · exact hdirty (Option.some.inj hi)
    · exact hdirty (Option.some.inj hi)
    · exact hdirty (Option.some.inj hi)
    · exact .inl (Option.some.inj hi).symm
    · cases hi
    · cases hi
  · obtain rfl : i = x := by
      by_contra hix
      exact htaken i hix hi
    exact runStores_modified hmark

theorem edits_tableFree (i : Nat) (edits : List (Edit α)) :
    (runStores sp (edited i edits)).tableFree = sp.tableFree := by
  unfold edited
  rw [runStores_append]
  change (runStores sp (edits.map (Edit.store i))).tableFree = sp.tableFree
  induction edits generalizing sp with
  | nil => rfl
  | cons e edits ih =>
    rw [map_cons, runStores_cons, ih]
    cases e <;> rfl

theorem mem_edited (hst : st ∈ edited i edits) :
    st.target = some i ∨ st = .modified i := by
  rcases mem_append.mp hst with hmem | hmem
  · obtain ⟨e, -, rfl⟩ := mem_map.mp hmem
    cases e <;> exact .inl rfl
  · exact .inr (mem_singleton.mp hmem)

theorem edit_spec (h : SpaceInv count sp taken free)
    (hx : taken = some x ∨ taken = none ∧ InTable count x ∧ InUse (sp.entry x))
    (hdone : InUse ((runStores sp (edited x edits)).entry x)) :
    SpaceInv count (runStores sp (edited x edits)) none free ∧
      Marked count sp taken none (edited x edits) := by
  obtain ⟨hin, hnot, htaken⟩ := h.notFree hx
  have hkept : ∀ i ≠ x, (runStores sp (edited x edits)).entry i = sp.entry i := by
    intro i hix
    refine runStores_entry fun st hst heq => ?_
    rcases mem_edited hst with htarget | rfl
    · exact hix (Option.some.inj (heq.symm.trans htarget))
    · cases heq
  have hlisted : ∀ i ∈ 0 :: free, i ≠ x := by
    rintro i hi rfl
    rcases mem_cons.mp hi with rfl | hi
    · exact absurd hin.1 (lt_irrefl 0)
    · exact hnot hi
  have hmark : .modified x ∈ edited x edits := mem_append_right _ mem_cons_self
  refine ⟨⟨h.list.congr fun i hi => by rw [hkept i (hlisted i hi)], h.range,
    fun i hi => by rw [hkept i (hlisted i hi)]; exact h.objects i hi, nofun, fun i hi _ => ?_,
    fun i hi _ => ?_, (edits_tableFree x edits).trans h.tableFree⟩,
      fun i hi => ?_, fun st hst i hi => ?_,
    fun i hi => ?_, fun _ => ⟨x, hin, runStores_modified hmark⟩⟩
  · by_cases hix : i = x
    · rw [hix]
      exact iff_of_false hnot hdone.1
    · rw [hkept i hix]
      exact h.exact i hi (htaken i hix)
  · by_cases hix : i = x
    · rw [hix]
      exact hdone.2
    · rw [hkept i hix]
      exact h.send i hi (htaken i hix)
  · rcases mem_edited hi with htarget | heq
    · cases htarget
    · exact Store.modified.inj heq ▸ hin
  · rcases mem_edited hst with htarget | rfl
    · cases htarget.symm.trans hi
      exact .inr (runStores_modified hmark)
    · cases hi
  · obtain rfl : i = x := by
      by_contra hix
      exact htaken i hix hi
    exact runStores_modified hmark

end XnuXzs.Ipc
