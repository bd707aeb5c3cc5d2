import XnuXzs.SysvSem.Semop

/-!
# Adjustments and their inverses

An entry holds the number of its semaphore in 16 signed bits. For a number that fits, adding the
opposite takes an adjustment back. For a larger one the entry is not found again.
-/

namespace XnuXzs.SysvSem

open List

def Fits (num : Int) : Prop := 0 ≤ num ∧ num < 32768

instance (num : Int) : Decidable (Fits num) := inferInstanceAs (Decidable (_ ∧ _))

theorem toInt_ofInt_of_fits {num : Int} (h : Fits num) : (Int16.ofInt num).toInt = num := by
  obtain ⟨h0, h1⟩ := h
  exact Int16.toInt_ofInt_of_le (by omega) (by omega)

def Entry.For (e : Entry) (id : Nat) (semnum : Int) : Prop := e.id = id ∧ e.num.toInt = semnum

variable {es es' rest : List Entry} {id : Nat} {semnum a : Int} {x : Int16} {e : Entry}

theorem toInt_ofInt_of_large (hlarge : 32768 ≤ semnum) (hlt : semnum < 65536) :
    (Int16.ofInt semnum).toInt < 0 := by
  rw [Int16.toInt_ofInt, Int.bmod_def]
  simp only [Int16.size]
  omega

/-- The entry for a semaphore, of which there is none for 0. -/
def slot (id : Nat) (semnum : Int) (x : Int16) : List Entry :=
  if x = 0 then [] else [⟨x, Int16.ofInt semnum, id⟩]

/-- The adjustment for the semaphore is `x`, and `rest` are the other entries. -/
structure Holds (id : Nat) (semnum : Int) (x : Int16) (rest es : List Entry) : Prop where
  perm : es.Perm (slot id semnum x ++ rest)
  others : ∀ e ∈ rest, ¬e.For id semnum

theorem Holds.of_perm (h : Holds id semnum x rest es) (hperm : es'.Perm es) :
    Holds id semnum x rest es' :=
  ⟨hperm.trans h.perm, h.others⟩

theorem adjustFound_cases (id : Nat) (semnum a : Int) (es : List Entry) :
    (adjustFound id semnum a es = none ∧ ∀ e ∈ es, ¬e.For id semnum) ∨
    ∃ front e back, es = front ++ e :: back ∧ e.For id semnum ∧
      adjustFound id semnum a es = some (front ++
        (let x := if a = 0 then 0 else e.adjval + Int16.ofInt a
         (if x = 0 then [] else [{ e with adjval := x }]) ++ back)) := by
  induction es with
  | nil => exact .inl ⟨rfl, by simp⟩
  | cons e es ih =>
    by_cases he : e.For id semnum
    · refine .inr ⟨[], e, es, rfl, he, ?_⟩
      obtain ⟨hid, hnum⟩ := he
      simp only [adjustFound, hid, hnum, ne_eq, not_true_eq_false, or_self, if_false]
      generalize (if a = 0 then 0 else e.adjval + Int16.ofInt a) = x
      by_cases hx : x = 0 <;> simp [hx]
    · have hskip : e.id ≠ id ∨ e.num.toInt ≠ semnum := by
        rw [Entry.For, not_and_or] at he
        exact he
      obtain ⟨hnone, hothers⟩ | ⟨front, x, back, rfl, hx, hsome⟩ := ih
      · refine .inl ⟨by simp [adjustFound, hskip, hnone], ?_⟩
        rintro y (_ | ⟨_, hy⟩)
        · exact he
        · exact hothers y hy
      · exact .inr ⟨e :: front, x, back, rfl, hx, by simp [adjustFound, hskip, hsome]⟩

theorem slot_zero (id : Nat) (semnum : Int) : slot id semnum 0 = [] := rfl

theorem slot_of_ne (id : Nat) (semnum : Int) (hx : x ≠ 0) :
    slot id semnum x = [⟨x, Int16.ofInt semnum, id⟩] := by
  rw [slot, if_neg hx]

theorem Entry.For.eq (h : e.For id semnum) :
    e = ⟨e.adjval, Int16.ofInt semnum, id⟩ := by
  obtain ⟨rfl, rfl⟩ := h
  rw [Int16.ofInt_toInt]

theorem Holds.found {front back : List Entry} (h : Holds id semnum x rest (front ++ e :: back))
    (he : e.For id semnum) :
    x ≠ 0 ∧ e = ⟨x, Int16.ofInt semnum, id⟩ ∧ (front ++ back).Perm rest := by
  have hmem : e ∈ slot id semnum x ++ rest := h.perm.subset (by simp)
  have hslot : e ∈ slot id semnum x := (mem_append.mp hmem).resolve_right fun hr => h.others e hr he
  by_cases hx : x = 0
  · rw [hx, slot_zero] at hslot
    cases hslot
  rw [slot_of_ne id semnum hx, mem_singleton] at hslot
  refine ⟨hx, hslot, ?_⟩
  have hperm := perm_middle.symm.trans h.perm
  rw [slot_of_ne id semnum hx, ← hslot] at hperm
  exact hperm.cons_inv

/-- The entries that can not be found again. -/
def lost (es : List Entry) : Nat := es.countP fun e => e.num.toInt < 0

theorem Holds.lost_eq (h : Holds id semnum x rest es) (hfits : Fits semnum) :
    lost es = lost rest := by
  have hslot : lost (slot id semnum x) = 0 := by
    by_cases hx : x = 0
    · rw [hx, slot_zero]
      rfl
    · simp [slot_of_ne id semnum hx, lost, toInt_ofInt_of_fits hfits, hfits.1]
  rw [lost, h.perm.countP_eq, countP_append]
  exact (congrArg (· + lost rest) hslot).trans (zero_add _)

variable [Limits]

/-- At most one entry for each semaphore whose number fits. -/
structure Tidy (es : List Entry) : Prop where
  length : es.length ≤ semume
  nonzero : ∀ e ∈ es, e.adjval ≠ 0
  distinct : es.Pairwise fun a b => 0 ≤ a.num.toInt → ¬a.For b.id b.num.toInt

theorem Tidy.nil : Tidy [] := ⟨by simp, by simp, .nil⟩

theorem Tidy.sublist (h : Tidy es) (hsub : es'.Sublist es) : Tidy es' :=
  ⟨hsub.length_le.trans h.length, fun e he => h.nonzero e (hsub.subset he), h.distinct.sublist hsub⟩

theorem Tidy.perm (h : Tidy es) (hperm : es'.Perm es) : Tidy es' := by
  refine ⟨hperm.length_eq ▸ h.length, fun e he => h.nonzero e (hperm.subset he), ?_⟩
  apply (hperm.pairwise_iff ?_).mpr h.distinct
  rintro a b hab hb ⟨hid, hnum⟩
  exact hab (hnum ▸ hb) ⟨hid.symm, hnum.symm⟩

theorem Tidy.exists_holds (h : Tidy es) (id : Nat) (hfits : Fits semnum) :
    ∃ x rest, Holds id semnum x rest es := by
  obtain ⟨-, hothers⟩ | ⟨front, e, back, rfl, he, -⟩ := adjustFound_cases id semnum 0 es
  · exact ⟨0, es, .rfl, hothers⟩
  have hne := h.nonzero e (by simp)
  refine ⟨e.adjval, front ++ back, ?_, ?_⟩
  · rw [slot_of_ne id semnum hne, ← he.eq]
    exact perm_middle
  intro y hy hfor
  have hdistinct := (h.perm perm_middle.symm).distinct
  have hey := rel_of_pairwise_cons hdistinct hy
  exact hey (he.2 ▸ hfits.1) ⟨he.1.trans hfor.1.symm, he.2.trans hfor.2.symm⟩

/-- Adding to an adjustment fails only where a new entry has no room. -/
theorem Holds.adjust (h : Holds id semnum x rest es) (hfits : Fits semnum)
    (ha : Int16.ofInt a ≠ 0) :
    (adjustEntries id semnum a es = .error .einval ∧ x = 0 ∧ rest.length = semume) ∨
    ∃ es', adjustEntries id semnum a es = .ok es' ∧ ¬(x = 0 ∧ rest.length = semume) ∧
      Holds id semnum (x + Int16.ofInt a) rest es' := by
  have ha0 : a ≠ 0 := by
    rintro rfl
    exact ha rfl
  obtain ⟨hnone, hothers⟩ | ⟨front, e, back, rfl, he, hsome⟩ := adjustFound_cases id semnum a es
  · have hx : x = 0 := by
      by_contra hx
      have hmem : (⟨x, Int16.ofInt semnum, id⟩ : Entry) ∈ es :=
        h.perm.mem_iff.mpr (by simp [slot_of_ne id semnum hx])
      exact hothers _ hmem ⟨rfl, toInt_ofInt_of_fits hfits⟩
    subst hx
    have hperm := h.perm
    by_cases hfull : es.length = semume
    · exact .inl ⟨by simp [adjustEntries, hnone, ha0, hfull], rfl, hperm.length_eq ▸ hfull⟩
    refine .inr ⟨_, by simp only [adjustEntries, hnone, ha0, hfull, if_false]; rfl,
      ?_, ?_, h.others⟩
    · rintro ⟨-, hlen⟩
      exact hfull (hperm.length_eq.trans hlen)
    · rw [Int16.zero_add, slot_of_ne id semnum ha]
      exact hperm.cons _
  · obtain ⟨hx, rfl, hperm⟩ := h.found he
    refine .inr ⟨_, by simp only [adjustEntries, hsome]; rfl, fun hfull => hx hfull.1, ?_, h.others⟩
    simp only [ha0, if_false]
    have hmove : ∀ l : List Entry, (front ++ (l ++ back)).Perm (l ++ rest) := fun l =>
      (perm_append_comm_assoc ..).trans (hperm.append_left l)
    exact hmove (slot id semnum (x + Int16.ofInt a))

/-- The opposite of an adjustment takes it back, also from entries in another order. -/
theorem Tidy.adjust_back {es₁ es₁' : List Entry} (h : Tidy es) (hfits : Fits semnum)
    (ha : Int16.ofInt a ≠ 0) (hok : adjustEntries id semnum a es = .ok es₁)
    (hperm : es₁'.Perm es₁) :
    ∃ es', adjustEntries id semnum (-a) es₁' = .ok es' ∧ es'.Perm es := by
  obtain ⟨x, rest, hholds⟩ := h.exists_holds id hfits
  have hna : Int16.ofInt (-a) ≠ 0 := by
    rw [Int16.ofInt_neg]
    intro h0
    apply ha
    rw [← @Int16.neg_neg (Int16.ofInt a), h0, Int16.neg_zero]
  obtain ⟨herr, -⟩ | ⟨es₂, hok₂, hroom, hholds₂⟩ := hholds.adjust hfits ha
  · rw [herr] at hok
    cases hok
  obtain rfl : es₁ = es₂ := by
    rw [hok₂] at hok
    exact (Except.ok.inj hok).symm
  obtain ⟨-, hzero, hfull⟩ | ⟨es', hok', -, hholds'⟩ := (hholds₂.of_perm hperm).adjust hfits hna
  · -- With `rest` full there was no entry, and then there was no room for a new one.
    have hlen := hholds.perm.length_eq ▸ h.length
    have hx : x = 0 := by
      by_contra hx
      rw [slot_of_ne id semnum hx] at hlen
      simp [hfull] at hlen
    exact absurd ⟨hx, hfull⟩ hroom
  · refine ⟨es', hok', hholds'.perm.trans ?_⟩
    rw [Int16.ofInt_neg, ← Int16.sub_eq_add_neg, Int16.add_sub_cancel]
    exact hholds.perm.symm

theorem adjustEntries_of_large (es : List Entry) (hlarge : 32768 ≤ semnum) (ha : a ≠ 0) :
    adjustEntries id semnum a es =
      if es.length = semume then .error .einval
      else .ok (⟨Int16.ofInt a, Int16.ofInt semnum, id⟩ :: es) := by
  obtain ⟨hnone, -⟩ | ⟨front, e, back, -, he, -⟩ := adjustFound_cases id semnum a es
  · simp [adjustEntries, hnone, ha]
  · have hlt := e.num.toInt_lt
    have hnum := he.2
    omega

/-- What a successful adjustment does to the entries. -/
structure Adjusted (semnum : Int) (es es' : List Entry) : Prop where
  tidy : Tidy es'
  lost : lost es' = lost es + if Fits semnum then 0 else 1

theorem Tidy.adjusted (h : Tidy es) (hnum : 0 ≤ semnum) (hlt : semnum < 65536)
    (ha : Int16.ofInt a ≠ 0) (hok : adjustEntries id semnum a es = .ok es') :
    Adjusted semnum es es' := by
  by_cases hfits : Fits semnum
  · obtain ⟨x, rest, hholds⟩ := h.exists_holds id hfits
    obtain ⟨herr, -⟩ | ⟨es₂, hok₂, hroom, hholds₂⟩ := hholds.adjust hfits ha
    · rw [herr] at hok
      cases hok
    obtain rfl : es' = es₂ := by
      rw [hok₂] at hok
      exact (Except.ok.inj hok).symm
    have hboth := h.perm hholds.perm.symm
    have hrest := hboth.sublist (sublist_append_right ..)
    refine ⟨Tidy.perm ?_ hholds₂.perm,
      by rw [hholds.lost_eq hfits, hholds₂.lost_eq hfits, if_pos hfits]; rfl⟩
    by_cases hx' : x + Int16.ofInt a = 0
    · rw [hx', slot_zero]
      exact hrest
    rw [slot_of_ne id semnum hx']
    have hlen : rest.length < semume := by
      by_cases hx : x = 0
      · exact lt_of_le_of_ne hrest.length fun hfull => hroom ⟨hx, hfull⟩
      · have hle := hboth.length
        rw [slot_of_ne id semnum hx] at hle
        simpa [Nat.succ_le_iff] using hle
    refine ⟨by simpa using hlen, ?_, pairwise_cons.mpr ⟨?_, hrest.distinct⟩⟩
    · rintro e (_ | ⟨_, he⟩)
      · exact hx'
      · exact hrest.nonzero e he
    · intro e he _ hfor
      apply hholds.others e he
      exact ⟨hfor.1.symm, hfor.2.symm.trans (toInt_ofInt_of_fits hfits)⟩
  · have hlarge : 32768 ≤ semnum := not_lt.mp fun hsmall => hfits ⟨hnum, hsmall⟩
    have hneg := toInt_ofInt_of_large hlarge hlt
    rw [adjustEntries_of_large es hlarge (by rintro rfl; exact ha rfl)] at hok
    split at hok
    · cases hok
    rename_i hfull
    cases hok
    refine ⟨⟨?_, ?_, pairwise_cons.mpr ⟨?_, h.distinct⟩⟩, ?_⟩
    · exact lt_of_le_of_ne h.length hfull
    · rintro e (_ | ⟨_, he⟩)
      · exact ha
      · exact h.nonzero e he
    · intro e _ hpos
      exact absurd hpos (not_le.mpr hneg)
    · rw [if_neg hfits]
      exact countP_cons_of_pos (decide_eq_true hneg)

end XnuXzs.SysvSem
