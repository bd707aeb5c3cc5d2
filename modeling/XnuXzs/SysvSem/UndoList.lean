import XnuXzs.SysvSem.Adjustment

/-!
# The undo structures of the processes

A process has at most one structure. A vector of adjustments changes its entries only, and can
be taken back if the numbers of the semaphores fit an entry.
-/

namespace XnuXzs.SysvSem

open List

def entriesOf (p : Nat) (active : List SemUndo) : List Entry :=
  ((findUndo p active).map (·.entries)).getD []

def Present (p : Nat) (active : List SemUndo) : Prop := (findUndo p active).isSome

/-- The same adjustments, in any order. -/
def SameUndo (u v : Semu) : Prop := ∀ p, (entriesOf p u.active).Perm (entriesOf p v.active)

variable {p q : Nat} {active : List SemUndo} {es : List Entry} {op : Sembuf}

theorem findUndo_cons (su : SemUndo) :
    findUndo p (su :: active) = if su.proc = p then some su else findUndo p active := by
  by_cases h : su.proc = p <;> simp [findUndo, h]

theorem entriesOf_cons (su : SemUndo) :
    entriesOf p (su :: active) = if su.proc = p then su.entries else entriesOf p active := by
  rw [entriesOf, findUndo_cons]
  split <;> rfl

theorem entriesOf_eq_nil (h : ∀ su ∈ active, su.proc ≠ p) : entriesOf p active = [] := by
  have hnone : findUndo p active = none := find?_eq_none.mpr (by simpa using h)
  rw [entriesOf, hnone]
  rfl

theorem setEntries_procs : (setEntries p es active).map (·.proc) = active.map (·.proc) := by
  induction active with
  | nil => rfl
  | cons su rest ih =>
    rw [setEntries]
    split
    · rfl
    · simp [ih]

theorem mem_setEntries {su : SemUndo} (h : su ∈ setEntries p es active) :
    su ∈ active ∨ su.entries = es := by
  induction active with
  | nil => cases h
  | cons su' rest ih =>
    rw [setEntries] at h
    split at h <;> rcases mem_cons.mp h with rfl | hrest
    · exact .inr rfl
    · exact .inl (mem_cons_of_mem _ hrest)
    · exact .inl mem_cons_self
    · exact (ih hrest).imp_left (mem_cons_of_mem _)

theorem entriesOf_setEntries_of_ne (hq : q ≠ p) :
    entriesOf q (setEntries p es active) = entriesOf q active := by
  induction active with
  | nil => rfl
  | cons su rest ih =>
    rw [setEntries]
    split_ifs with hsu
    · have hne : su.proc ≠ q := fun h => hq (h.symm.trans hsu)
      rw [entriesOf_cons, entriesOf_cons, if_neg hne, if_neg hne]
    · rw [entriesOf_cons, entriesOf_cons, ih]

theorem setEntries_present (h : Present p active) :
    Present p (setEntries p es active) ∧ entriesOf p (setEntries p es active) = es := by
  induction active with
  | nil => cases h
  | cons su rest ih =>
    rw [setEntries]
    by_cases hsu : su.proc = p
    · rw [if_pos hsu, Present, findUndo_cons, entriesOf_cons, if_pos hsu, if_pos hsu]
      exact ⟨rfl, rfl⟩
    · rw [Present, findUndo_cons, if_neg hsu] at h
      rw [if_neg hsu, Present, findUndo_cons, entriesOf_cons, if_neg hsu, if_neg hsu]
      exact ih h

theorem Sembuf.op_ne_zero (h : op.skipped = false) : op.op ≠ 0 := by
  simp only [Sembuf.skipped, Bool.or_eq_false_iff, decide_eq_false_iff_not] at h
  exact h.2

theorem Sembuf.ofInt_ne_zero (h : op.skipped = false) : Int16.ofInt op.op.toInt ≠ 0 := by
  rw [Int16.ofInt_toInt]
  exact op.op_ne_zero h

theorem Sembuf.ofInt_neg_ne_zero (h : op.skipped = false) : Int16.ofInt (-op.op.toInt) ≠ 0 := by
  rw [Int16.ofInt_neg, Int16.ofInt_toInt]
  intro h0
  apply op.op_ne_zero h
  rw [← @Int16.neg_neg op.op, h0, Int16.neg_zero]

variable [Limits]

structure Sound (active : List SemUndo) : Prop where
  procs : active.Pairwise fun a b => a.proc ≠ b.proc
  tidy : ∀ su ∈ active, Tidy su.entries

theorem Sound.entriesOf_tidy (h : Sound active) (p : Nat) : Tidy (entriesOf p active) := by
  unfold entriesOf
  cases hfind : findUndo p active with
  | none => exact Tidy.nil
  | some su => exact h.tidy su (mem_of_find?_eq_some hfind)

theorem Sound.setEntries (h : Sound active) (htidy : Tidy es) : Sound (setEntries p es active) := by
  constructor
  · have hprocs := pairwise_map.mpr h.procs
    rw [← @setEntries_procs p _ es] at hprocs
    exact pairwise_map.mp hprocs
  intro su hsu
  rcases mem_setEntries hsu with hold | hnew
  · exact h.tidy su hold
  · exact hnew ▸ htidy

theorem Sound.sublist {active' : List SemUndo} (h : Sound active) (hsub : active'.Sublist active) :
    Sound active' :=
  ⟨h.procs.sublist hsub, fun su hsu => h.tidy su (hsub.subset hsu)⟩

theorem Sound.entriesOf_purge (h : Sound active) (p : Nat) :
    entriesOf p (active.filter fun su => !su.entries.isEmpty) = entriesOf p active := by
  induction active with
  | nil => rfl
  | cons su rest ih =>
    have ih := ih (h.sublist (sublist_cons_self ..))
    rw [entriesOf_cons, filter_cons]
    by_cases hempty : su.entries = []
    · simp only [hempty, isEmpty_nil, Bool.not_true, Bool.false_eq_true, if_false, ih]
      split_ifs with hsu
      · exact entriesOf_eq_nil fun su' hsu' => hsu ▸ (rel_of_pairwise_cons h.procs hsu').symm
      · rfl
    · have hkeep : (!su.entries.isEmpty) = true := by simpa using hempty
      rw [if_pos hkeep, entriesOf_cons, ih]

/-- The process has new entries, and the others have what they had. -/
structure Moved (p : Nat) (es : List Entry) (active active' : List SemUndo) : Prop where
  present : Present p active'
  own : entriesOf p active' = es
  others : ∀ q, q ≠ p → entriesOf q active' = entriesOf q active
  sound : Tidy es → Sound active'

theorem Moved.setEntries (h : Sound active)
    (hpresent : Present p active) : Moved p es active (setEntries p es active) where
  present := (setEntries_present hpresent).1
  own := (setEntries_present hpresent).2
  others _ hq := entriesOf_setEntries_of_ne hq
  sound htidy := h.setEntries htidy

variable {grows : Bool} {id : Nat} {semnum a : Int}

/-- A new structure is empty, and only structures without entries are given up for it. -/
theorem semuAlloc_spec {u u' : Semu} (h : Sound u.active)
    (habsent : findUndo p u.active = none) (halloc : semuAlloc grows u p = some u') :
    Moved p [] u.active u'.active := by
  have hprocs : ∀ su ∈ u.active, su.proc ≠ p := by simpa [findUndo] using habsent
  have hpush : ∀ kept : List SemUndo, kept.Sublist u.active →
      (∀ q, entriesOf q kept = entriesOf q u.active) → Moved p [] u.active (⟨p, []⟩ :: kept) := by
    intro kept hsub hsame
    have hkept := h.sublist hsub
    refine ⟨?_, ?_, fun q hq => ?_, fun _ => ⟨pairwise_cons.mpr ⟨?_, hkept.procs⟩, ?_⟩⟩
    · rw [Present, findUndo_cons, if_pos rfl]
      rfl
    · rw [entriesOf_cons, if_pos rfl]
    · rw [entriesOf_cons, if_neg hq.symm, hsame]
    · exact fun su hsu => (hprocs su (hsub.subset hsu)).symm
    · rintro su (_ | ⟨_, hsu⟩)
      · exact Tidy.nil
      · exact hkept.tidy su hsu
  unfold semuAlloc at halloc
  split at halloc
  · cases halloc
    exact hpush _ (List.Sublist.refl _) fun _ => rfl
  dsimp only at halloc
  split at halloc
  · cases halloc
    exact hpush _ filter_sublist h.entriesOf_purge
  split at halloc
  · cases halloc
    exact hpush _ (List.Sublist.refl _) fun _ => rfl
  · cases halloc

theorem semundoAdjust_present {u : Semu} (hpresent : Present p u.active) :
    semundoAdjust grows u p id semnum a = adjustIn u p id semnum a (entriesOf p u.active) := by
  obtain ⟨su, hsu⟩ := Option.isSome_iff_exists.mp hpresent
  simp [semundoAdjust, entriesOf, hsu]

theorem adjustIn_ok {u u' : Semu} (hok : adjustIn u p id semnum a es = .ok u') :
    ∃ es', adjustEntries id semnum a es = .ok es' ∧ u'.active = setEntries p es' u.active := by
  unfold adjustIn at hok
  cases hes : adjustEntries id semnum a es with
  | error e =>
    rw [hes] at hok
    cases hok
  | ok es' =>
    rw [hes] at hok
    cases hok
    exact ⟨es', rfl, rfl⟩

theorem semundoAdjust_ok {u u' : Semu} (h : Sound u.active) (ha : a ≠ 0)
    (hok : semundoAdjust grows u p id semnum a = .ok u') :
    ∃ es, adjustEntries id semnum a (entriesOf p u.active) = .ok es ∧
      Moved p es u.active u'.active := by
  by_cases hpresent : Present p u.active
  · rw [semundoAdjust_present hpresent] at hok
    obtain ⟨es, hes, hactive⟩ := adjustIn_ok hok
    exact ⟨es, hes, hactive ▸ Moved.setEntries h hpresent⟩
  have hnone := Option.not_isSome_iff_eq_none.mp hpresent
  simp only [semundoAdjust, hnone, ha, if_false] at hok
  split at hok
  · cases hok
  rename_i u₁ halloc
  have hmoved := semuAlloc_spec h hnone halloc
  obtain ⟨es, hes, hactive⟩ := adjustIn_ok hok
  have hset := @Moved.setEntries p _ es _ (hmoved.sound Tidy.nil) hmoved.present
  refine ⟨es, by simpa [entriesOf, hnone] using hes, hactive ▸ { hset with others := ?_ }⟩
  intro q hq
  exact (hset.others q hq).trans (hmoved.others q hq)

structure Step (c : Call) (op : Sembuf) (a : Int) (u u' : Semu) : Prop where
  entries : adjustEntries c.semid op.num.toNat a (entriesOf c.proc u.active) =
    .ok (entriesOf c.proc u'.active)
  present : Present c.proc u'.active
  others : ∀ q, q ≠ c.proc → entriesOf q u'.active = entriesOf q u.active
  sound : Sound u'.active
  lost : lost (entriesOf c.proc u'.active) =
    lost (entriesOf c.proc u.active) + if Fits op.num.toNat then 0 else 1

theorem Step.of_ok {c : Call} {op : Sembuf} {u u' : Semu} (h : Sound u.active)
    (ha : Int16.ofInt a ≠ 0)
    (hok : semundoAdjust c.grows u c.proc c.semid op.num.toNat a = .ok u') :
    Step c op a u u' := by
  have ha0 : a ≠ 0 := by
    rintro rfl
    exact ha rfl
  obtain ⟨es, hes, hmoved⟩ := semundoAdjust_ok h ha0 hok
  have hlt : (op.num.toNat : Int) < 65536 := by exact_mod_cast op.num.toNat_lt
  have hadjusted := (h.entriesOf_tidy c.proc).adjusted (Int.natCast_nonneg _) hlt ha hes
  obtain rfl := hmoved.own
  exact ⟨hes, hmoved.present, hmoved.others, hmoved.sound hadjusted.tidy, hadjusted.lost⟩

variable {c : Call} {done ops : List Sembuf} {u u' : Semu} {e : Errno}

theorem adjustOps_skipped (rest : List Sembuf) (hskip : op.skipped = true) :
    adjustOps c done (op :: rest) u = adjustOps c (op :: done) rest u := by
  rw [adjustOps, if_pos hskip]

theorem adjustOps_adjusted (rest : List Sembuf) (hskip : op.skipped = false)
    (hadjust : semundoAdjust c.grows u c.proc c.semid op.num.toNat (-op.op.toInt) = .ok u') :
    adjustOps c done (op :: rest) u = adjustOps c (op :: done) rest u' := by
  rw [adjustOps, if_neg (by simp [hskip]), hadjust]

theorem adjustOps_refused (rest : List Sembuf) (hskip : op.skipped = false)
    (hadjust : semundoAdjust c.grows u c.proc c.semid op.num.toNat (-op.op.toInt) = .error e) :
    adjustOps c done (op :: rest) u = .failed e done u := by
  rw [adjustOps, if_neg (by simp [hskip]), hadjust]

theorem adjustOps_cons_ok {rest : List Sembuf} (hok : adjustOps c done (op :: rest) u = .ok u') :
    (op.skipped = true ∧ adjustOps c (op :: done) rest u = .ok u') ∨
    (op.skipped = false ∧ ∃ u₁,
      semundoAdjust c.grows u c.proc c.semid op.num.toNat (-op.op.toInt) = .ok u₁ ∧
      adjustOps c (op :: done) rest u₁ = .ok u') := by
  cases hskip : op.skipped with
  | true => exact .inl ⟨rfl, adjustOps_skipped rest hskip ▸ hok⟩
  | false =>
    cases hadjust : semundoAdjust c.grows u c.proc c.semid op.num.toNat (-op.op.toInt) with
    | ok u₁ => exact .inr ⟨rfl, u₁, rfl, adjustOps_adjusted rest hskip hadjust ▸ hok⟩
    | error e =>
      rw [adjustOps_refused rest hskip hadjust] at hok
      cases hok

theorem adjustOps_append {front : List Sembuf} (rest : List Sembuf)
    (hok : adjustOps c done front u = .ok u') :
    adjustOps c done (front ++ rest) u = adjustOps c (front.reverse ++ done) rest u' := by
  induction front generalizing done u with
  | nil =>
    cases hok
    rfl
  | cons op front ih =>
    rw [cons_append, reverse_cons, append_assoc, singleton_append]
    obtain ⟨hskip, hok⟩ | ⟨hskip, u₁, hadjust, hok⟩ := adjustOps_cons_ok hok
    · rw [adjustOps_skipped _ hskip, ih hok]
    · rw [adjustOps_adjusted _ hskip hadjust, ih hok]

theorem adjustOps_failed {done' : List Sembuf}
    (hfailed : adjustOps c done ops u = .failed e done' u') :
    ∃ front op back, ops = front ++ op :: back ∧ adjustOps c done front u = .ok u' ∧
      op.skipped = false ∧
      semundoAdjust c.grows u' c.proc c.semid op.num.toNat (-op.op.toInt) = .error e := by
  induction ops generalizing done u with
  | nil => cases hfailed
  | cons op rest ih =>
    cases hskip : op.skipped with
    | true =>
      rw [adjustOps_skipped rest hskip] at hfailed
      obtain ⟨front, op', back, rfl, hok, hrefused⟩ := ih hfailed
      exact ⟨op :: front, op', back, rfl, by rw [adjustOps_skipped front hskip, hok], hrefused⟩
    | false =>
      cases hadjust : semundoAdjust c.grows u c.proc c.semid op.num.toNat (-op.op.toInt) with
      | ok u₁ =>
        rw [adjustOps_adjusted rest hskip hadjust] at hfailed
        obtain ⟨front, op', back, rfl, hok, hrefused⟩ := ih hfailed
        exact ⟨op :: front, op', back, rfl, by rw [adjustOps_adjusted front hskip hadjust, hok],
          hrefused⟩
      | error e' =>
        rw [adjustOps_refused rest hskip hadjust] at hfailed
        cases hfailed
        exact ⟨[], op, rest, rfl, rfl, hskip, hadjust⟩

theorem unadjustOps_append (front back : List Sembuf) :
    unadjustOps c (front ++ back) u = (unadjustOps c front u).bind (unadjustOps c back) := by
  induction front generalizing u with
  | nil => rfl
  | cons op front ih =>
    rw [cons_append, unadjustOps, unadjustOps]
    split
    · exact ih
    · split
      · exact ih
      · rfl

/-- The operations that leave an entry which is not found again. -/
def large (op : Sembuf) : Bool := !op.skipped && !decide (Fits op.num.toNat)

theorem adjustOps_lost (h : Sound u.active) (hok : adjustOps c done ops u = .ok u') :
    Sound u'.active ∧ lost (entriesOf c.proc u'.active) =
      lost (entriesOf c.proc u.active) + ops.countP large := by
  induction ops generalizing done u with
  | nil =>
    cases hok
    exact ⟨h, rfl⟩
  | cons op rest ih =>
    obtain ⟨hskip, hok⟩ | ⟨hskip, u₁, hadjust, hok⟩ := adjustOps_cons_ok hok
    · rw [countP_cons_of_neg (by simp [large, hskip])]
      exact ih h hok
    have hstep := Step.of_ok h (op.ofInt_neg_ne_zero hskip) hadjust
    obtain ⟨hsound, hlost⟩ := ih hstep.sound hok
    refine ⟨hsound, ?_⟩
    rw [hlost, hstep.lost, countP_cons, add_assoc, add_comm (ite ..)]
    simp [large, hskip]

theorem unadjustOps_lost {v : Semu} (h : Sound u.active) (hsome : unadjustOps c ops u = some v) :
    Sound v.active ∧ lost (entriesOf c.proc u.active) ≤ lost (entriesOf c.proc v.active) := by
  induction ops generalizing u with
  | nil =>
    cases hsome
    exact ⟨h, le_rfl⟩
  | cons op rest ih =>
    rw [unadjustOps] at hsome
    by_cases hskip : op.skipped = true
    · rw [if_pos hskip] at hsome
      exact ih h hsome
    rw [if_neg hskip] at hsome
    split at hsome
    · rename_i u₁ hadjust
      have hstep := Step.of_ok h (op.ofInt_ne_zero (by simpa using hskip)) hadjust
      obtain ⟨hsound, hle⟩ := ih hstep.sound hsome
      exact ⟨hsound, le_trans (hstep.lost ▸ Nat.le_add_right ..) hle⟩
    · cases hsome

/-- The adjustments of a vector are taken back in reverse order. -/
theorem unadjustOps_restores (h : Sound u.active) (hfits : ∀ op ∈ ops, large op = false)
    (hok : adjustOps c done ops u = .ok u') :
    ∃ v, unadjustOps c ops.reverse u' = some v ∧ SameUndo v u ∧ Sound v.active ∧
      (Present c.proc u.active → Present c.proc v.active) := by
  induction ops generalizing done u with
  | nil =>
    cases hok
    exact ⟨_, rfl, fun _ => .rfl, h, id⟩
  | cons op rest ih =>
    have hfits' : ∀ op' ∈ rest, large op' = false := fun op' hop' =>
      hfits op' (mem_cons_of_mem _ hop')
    rw [reverse_cons, unadjustOps_append]
    obtain ⟨hskip, hok⟩ | ⟨hskip, u₁, hadjust, hok⟩ := adjustOps_cons_ok hok
    · obtain ⟨v, hv, hsame, hsound, hpresent⟩ := ih h hfits' hok
      refine ⟨v, ?_, hsame, hsound, hpresent⟩
      simp [hv, unadjustOps, hskip]
    have hstep := Step.of_ok h (op.ofInt_neg_ne_zero hskip) hadjust
    obtain ⟨v₁, hv₁, hsame₁, hsound₁, hpresent₁⟩ := ih hstep.sound hfits' hok
    have hfit : Fits op.num.toNat := by simpa [large, hskip] using hfits op mem_cons_self
    obtain ⟨es, hes, hperm⟩ := (h.entriesOf_tidy c.proc).adjust_back hfit
      (op.ofInt_neg_ne_zero hskip) hstep.entries (hsame₁ c.proc)
    rw [Int.neg_neg] at hes
    have hback : semundoAdjust c.grows v₁ c.proc c.semid op.num.toNat op.op.toInt =
        .ok { v₁ with active := setEntries c.proc es v₁.active } := by
      rw [semundoAdjust_present (hpresent₁ hstep.present), adjustIn, hes]
      rfl
    have hstep' := Step.of_ok hsound₁ (op.ofInt_ne_zero hskip) hback
    refine ⟨_, ?_, ?_, hstep'.sound, fun _ => hstep'.present⟩
    · simp [hv₁, unadjustOps, hskip, hback]
    intro q
    by_cases hq : q = c.proc
    · subst hq
      have hown := Except.ok.inj (hes.symm.trans hstep'.entries)
      exact hown ▸ hperm
    · rw [hstep'.others q hq]
      exact (hsame₁ q).trans (hstep.others q hq ▸ .rfl)

end XnuXzs.SysvSem
