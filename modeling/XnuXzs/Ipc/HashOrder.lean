import XnuXzs.Ipc.HashContent

/-!
# Lookups

As long as no distance has to be pegged the table is a Robin Hood table, so that lookups are
right. None is pegged if there is an empty slot among any 4096 in a row.
-/

namespace XnuXzs.Ipc

open Lib Function Option

variable {n p fuel : Nat} {home : Nat → Nat} {slot slot' : Nat → Slot} {c : Slot}

variable (n home slot) in
/-- The distances in the slots are what they stand for. -/
def Exact : Prop :=
  ∀ s < n, ∀ i, occupant slot s = some i → (slot s).dist = disp n home i s ∧ (slot s).dist ≤ distMax

theorem Exact.update (he : Exact n home slot) (hdist : c.dist = disp n home c.index p)
    (hmax : c.dist ≤ distMax) :
    Exact n home (update slot p c) := by
  intro s hs i hi
  by_cases hsp : s = p
  · subst hsp
    obtain ⟨-, hindex⟩ := occupant_eq_some.mp hi
    rw [update_self] at hindex ⊢
    rw [← hindex]
    exact ⟨hdist, hmax⟩
  · rw [occupant, update_of_ne hsp] at hi
    rw [update_of_ne hsp]
    exact he s hs i hi

theorem peg_eq {d : Nat} (hd : d + 1 ≤ distMax) : peg d = d + 1 := if_pos hd

/-- What the loop of the insertion knows of the entry it carries. -/
structure Carries (n : Nat) (home : Nat → Nat) (slot : Nat → Slot) (p : Nat) (c : Slot) : Prop where
  order : RobinHood n home (occupant slot)
  exact : Exact n home slot
  sparse : Sparse n (occupant slot) distMax
  index : c.index ≠ 0
  home_lt : home c.index < n
  reaches : Reaches n home (occupant slot) c.index p
  dist : c.dist = disp n home c.index p

theorem Carries.dist_le (hc : Carries n home slot p c) : c.dist ≤ distMax :=
  hc.dist ▸ hc.sparse.bounds hc.home_lt hc.reaches

theorem Carries.empty (hc : Carries n home slot p c) :
    ∃ e < n, occupant slot e = none := by
  obtain ⟨e, he, -, hnone⟩ := hc.sparse _ hc.home_lt
  exact ⟨e, he, hnone⟩

theorem Carries.pass (hp : p < n) (hc : Carries n home slot p c)
    (hmore : Displaced n home (occupant slot) p (disp n home c.index p)) :
    Carries n home slot (cycNext n p) ⟨c.index, peg c.dist⟩ := by
  have htaken : occupant slot p ≠ none := by
    obtain ⟨y, hy, -⟩ := hmore
    rw [hy]
    exact some_ne_none y
  have hreaches := hc.reaches.pass hc.home_lt hp hc.empty hmore
  have hnext : disp n home c.index (cycNext n p) = c.dist + 1 := by
    rw [hc.dist]
    exact cycDist_next hc.home_lt hp (hc.reaches.not_round hc.home_lt hp htaken hc.empty)
  have hle := hc.sparse.bounds hc.home_lt hreaches
  exact { hc with reaches := hreaches, dist := (peg_eq (hnext ▸ hle)).trans hnext.symm }

/-- The carried entry takes the slot, and the one that was there is carried on. -/
theorem Carries.steal (hp : p < n) (hc : Carries n home slot p c) (hfull : (slot p).index ≠ 0)
    (hless : (slot p).dist < c.dist) :
    Carries n home (update slot p c) (cycNext n p) ⟨(slot p).index, peg (slot p).dist⟩ := by
  have hy : occupant slot p = some (slot p).index := occupant_eq_some.mpr ⟨hfull, rfl⟩
  obtain ⟨hydist, -⟩ := hc.exact p hp _ hy
  have hless' : disp n home (slot p).index p < disp n home c.index p := by
    rw [← hydist, ← hc.dist]
    exact hless
  obtain ⟨horder, hreaches⟩ := hc.order.steal hp hy hless' hc.home_lt hc.reaches
  rw [← occupant_update hc.index] at horder hreaches
  have hsparse : Sparse n (occupant (update slot p c)) distMax := by
    intro h hh
    obtain ⟨r, hr, hle, hnone⟩ := hc.sparse h hh
    refine ⟨r, hr, hle, ?_⟩
    rw [occupant_update hc.index, update_of_ne]
    · exact hnone
    · rintro rfl
      rw [hnone] at hy
      cases hy
  have hcarried : Carries n home (update slot p c) p (slot p) :=
    ⟨horder, hc.exact.update hc.dist hc.dist_le, hsparse, hfull,
      hc.order.home_lt p hp _ hy, hreaches,
      hydist⟩
  refine hcarried.pass hp ⟨c.index, ?_, hless'.le⟩
  rw [occupant_update hc.index, update_self]

theorem insertFrom_order (hp : p < n) (hc : Carries n home slot p c)
    (hresult : insertFrom n fuel slot p c = some slot') :
    RobinHood n home (occupant slot') ∧ Exact n home slot' := by
  induction fuel generalizing slot p c with
  | zero => cases hresult
  | succ fuel ih =>
    unfold insertFrom at hresult
    by_cases hfree : (slot p).index = 0
    · rw [if_pos hfree] at hresult
      cases hresult
      rw [occupant_update hc.index]
      exact ⟨hc.order.put hp (occupant_eq_none.mpr hfree) hc.home_lt hc.reaches,
        hc.exact.update hc.dist hc.dist_le⟩
    · rw [if_neg hfree] at hresult
      by_cases hless : (slot p).dist < c.dist
      · rw [if_pos hless] at hresult
        exact ih (cycNext_lt hp) (hc.steal hp hfree hless) hresult
      rw [if_neg hless] at hresult
      have hy : occupant slot p = some (slot p).index := occupant_eq_some.mpr ⟨hfree, rfl⟩
      refine ih (cycNext_lt hp) (hc.pass hp ⟨_, hy, ?_⟩) hresult
      rw [← hc.dist, ← (hc.exact p hp _ hy).1]
      exact Nat.le_of_not_lt hless

variable {α : Type*} {hash : Option α → Nat} {t : HashTable α}

theorem closer_eq {moved : Slot} (hhome : keyHome hash t moved.index < t.size) (hp : p < t.size)
    (hdist : moved.dist = disp t.size (keyHome hash t) moved.index (cycNext t.size p))
    (haway : moved.dist ≠ 0) :
    closer hash t p moved = disp t.size (keyHome hash t) moved.index p := by
  have hnext : moved.dist = disp t.size (keyHome hash t) moved.index p + 1 :=
    hdist.trans (cycDist_next_of_ne hhome hp fun hzero => haway (hdist.trans hzero))
  unfold closer
  split
  · exact Nat.min_eq_left (show disp t.size (keyHome hash t) moved.index p ≤ distMax by omega)
  · rw [hnext, Nat.add_sub_cancel]

theorem shiftFrom_order (hp : p < t.size)
    (horder : RobinHood t.size (keyHome hash t) (occupant slot))
    (hexact : Exact t.size (keyHome hash t) slot)
    (hresult : shiftFrom hash t fuel slot p = some slot') :
    RobinHood t.size (keyHome hash t) (occupant slot') ∧ Exact t.size (keyHome hash t) slot' := by
  induction fuel generalizing slot p with
  | zero => cases hresult
  | succ fuel ih =>
    unfold shiftFrom at hresult
    have hp' := cycNext_lt hp
    by_cases hend : (slot (cycNext t.size p)).index = 0 ∨ (slot (cycNext t.size p)).dist = 0
    · rw [if_pos hend] at hresult
      cases hresult
      refine ⟨?_, ?_⟩
      · rw [occupant_clear]
        refine horder.clear hp fun y hy => ?_
        obtain ⟨hne, hindex⟩ := occupant_eq_some.mp hy
        rw [← (hexact _ hp' y hy).1]
        exact hend.resolve_left (hindex ▸ hne)
      · intro s hs i hi
        by_cases hsp : s = p
        · subst hsp
          rw [occupant_clear, update_self] at hi
          cases hi
        · rw [occupant, update_of_ne hsp] at hi
          rw [update_of_ne hsp]
          exact hexact s hs i hi
    · rw [if_neg hend] at hresult
      rw [not_or] at hend
      have hmoved : occupant slot (cycNext t.size p) = some (slot (cycNext t.size p)).index :=
        occupant_eq_some.mpr ⟨hend.1, rfl⟩
      obtain ⟨hdist, hmax⟩ := hexact _ hp' _ hmoved
      have hcloser := closer_eq (horder.home_lt _ hp' _ hmoved) hp hdist hend.2
      generalize closer hash t p (slot (cycNext t.size p)) = dist at hcloser hresult
      obtain ⟨c, hc⟩ : ∃ c : Slot, c = ⟨(slot (cycNext t.size p)).index, dist⟩ := ⟨_, rfl⟩
      have hindex : c.index = (slot (cycNext t.size p)).index := by rw [hc]
      have hcdist : c.dist = disp t.size (keyHome hash t) c.index p := by
        rw [hc]
        exact hcloser
      rw [← hc] at hresult
      rw [hdist, ← hindex] at hend hmax
      rw [← hindex] at hmoved
      refine ih hp' ?_ (hexact.update hcdist ?_) hresult
      · rw [occupant_update (hindex ▸ hend.1)]
        exact horder.pull hp hmoved hend.2
      have hhome := horder.home_lt _ hp' _ hmoved
      have hnext : disp t.size (keyHome hash t) c.index (cycNext t.size p) =
          disp t.size (keyHome hash t) c.index p + 1 := cycDist_next_of_ne hhome hp hend.2
      omega

variable [DecidableEq α] {obj : α} {x index : Nat} {s : Hashed α}

theorem lookupFrom_found {s fuel p : Nat}
    (horder : RobinHood t.size (keyHome hash t) (occupant t.slot))
    (hexact : Exact t.size (keyHome hash t) t.slot) (hin : ∀ i, Keys t.size t.slot i → i < t.size)
    (hs : s < t.size) (hx : occupant t.slot s = some x) (hobj : t.object x = some obj)
    (honly : ∀ r < t.size, ∀ i, occupant t.slot r = some i → t.object i = some obj → r = s)
    (hp : p < t.size) (hle : disp t.size (keyHome hash t) x p ≤ disp t.size (keyHome hash t) x s)
    (hfuel : disp t.size (keyHome hash t) x s < disp t.size (keyHome hash t) x p + fuel) :
    lookupFrom t obj fuel p (disp t.size (keyHome hash t) x p) = some (.found x) := by
  induction fuel generalizing p with
  | zero => omega
  | succ fuel ih =>
    have hhome := horder.home_lt s hs x hx
    obtain ⟨hxdist, hxmax⟩ := hexact s hs x hx
    unfold lookupFrom
    rcases lt_or_eq_of_le hle with hless | heq
    · -- the slot is on the way to `s`, so that what it holds is displaced as far
      obtain ⟨y, hy, hfar⟩ := horder.reaches s hs x hx p hp hless
      obtain ⟨hne, hindex⟩ := occupant_eq_some.mp hy
      have hother : t.object y ≠ some obj := by
        intro hsame
        obtain rfl := honly p hp y hy hsame
        exact lt_irrefl _ hless
      have hnext : disp t.size (keyHome hash t) x (cycNext t.size p) =
          disp t.size (keyHome hash t) x p + 1 :=
        cycDist_next hhome hp (lt_of_le_of_lt hless (cycDist_lt hhome hs))
      rw [hindex, if_neg hne, (hexact p hp y hy).1, if_neg (not_lt.mpr hfar),
        if_neg (not_le.mpr (hin y ⟨p, hp, hy⟩)), if_neg hother, peg_eq (by omega), ← hnext]
      exact ih (cycNext_lt hp) (hnext ▸ hless) (by omega)
    · obtain rfl := cycDist_inj hhome hp hs heq
      obtain ⟨hne, hindex⟩ := occupant_eq_some.mp hx
      rw [hindex, if_neg hne, hxdist, if_neg (lt_irrefl _), if_neg (not_le.mpr (hin x ⟨p, hp, hx⟩)),
        if_pos hobj, if_pos rfl]

theorem lookupFrom_absent {hdist : Nat} (hin : ∀ i, Keys t.size t.slot i → i < t.size)
    (hother : ∀ i, Keys t.size t.slot i → t.object i ≠ some obj) (hp : p < t.size)
    (hempty : ∃ e < t.size, occupant t.slot e = none ∧ cycDist t.size p e < fuel) :
    lookupFrom t obj fuel p hdist = some .absent := by
  obtain ⟨e, he, hnone, hnear⟩ := hempty
  induction fuel generalizing p hdist with
  | zero => cases hnear
  | succ fuel ih =>
    unfold lookupFrom
    by_cases hfree : (t.slot p).index = 0
    · rw [if_pos hfree]
    have hy : Keys t.size t.slot (t.slot p).index := ⟨p, hp, occupant_eq_some.mpr ⟨hfree, rfl⟩⟩
    have hep : e ≠ p := by
      rintro rfl
      exact hfree (occupant_eq_none.mp hnone)
    rw [cycDist_from_next hp he hep] at hnear
    rw [if_neg hfree, if_neg (not_le.mpr (hin _ hy)), if_neg (hother _ hy)]
    split
    · rfl
    · exact ih (cycNext_lt hp) (by omega)

/-- What the table holds is what is present, and a slot is empty. -/
structure Contents (s : Hashed α) : Prop where
  size : 2 ≤ s.table.size
  distinct : Distinct s.table.size s.table.slot
  keys : ∀ i, Keys s.table.size s.table.slot i ↔ s.present i ≠ none
  objects : ∀ i obj, s.present i = some obj → s.table.object i = some obj
  inside : ∀ i obj, s.present i = some obj → 0 < i ∧ i < s.table.size
  once : ∀ i j obj, s.present i = some obj → s.present j = some obj → i = j
  empty : ∃ e < s.table.size, occupant s.table.slot e = none

namespace Contents

variable {s : Hashed α} (hc : Contents s) {index : Nat}

include hc

omit [DecidableEq α] in
theorem home_lt (i : Nat) : keyHome hash s.table i < s.table.size :=
  Nat.mod_lt _ (by have := hc.size; omega)

omit [DecidableEq α] in
theorem keys_inside (i : Nat) (hi : Keys s.table.size s.table.slot i) : i < s.table.size := by
  obtain ⟨obj, hobj⟩ := ne_none_iff_exists'.mp ((hc.keys i).mp hi)
  exact (hc.inside i obj hobj).2

variable (hash) in
theorem insert_some (hok : Insertable s obj index) :
    ∃ slot, insertFrom s.table.size s.table.size s.table.slot
      (keyHome hash s.table index) ⟨index, 0⟩ =
        some slot ∧ insert hash s.table (some obj) index = some { s.table with slot := slot } ∧
      Contents ⟨{ s.table with slot := slot }, update s.present index (some obj)⟩ := by
  obtain ⟨e, he, f, hf, hef, hnone, hnone'⟩ := hok.room
  have hhome : keyHome hash s.table index < s.table.size := hc.home_lt index
  obtain ⟨slot, hslot, hinsert, ⟨g, hfilled⟩, hdistinct, hkeys⟩ :=
    @insert_added _ hash s.table _ obj index hhome hok.positive.ne' hok.object hc.distinct
      (fun hkey => (hc.keys index).mp hkey hok.indexFree) ⟨e, he, hnone⟩
  have hnow : ∀ i o, update s.present index (some obj) i = some o →
      i = index ∧ o = obj ∨ s.present i = some o := by
    intro i o hi
    by_cases hii : i = index
    · rw [hii, update_self] at hi
      exact .inl ⟨hii, (Option.some.inj hi).symm⟩
    · exact .inr (by rwa [update_of_ne hii] at hi)
  refine ⟨slot, hslot, hinsert, hc.size, hdistinct, ?_, fun i o hi => ?_, fun i o hi => ?_,
    fun i j o hi hj => ?_, ?_⟩
  · intro i
    rw [hkeys i, hc.keys i]
    by_cases hii : i = index <;> simp [hii]
  · rcases hnow i o hi with ⟨rfl, rfl⟩ | hold
    · exact hok.object
    · exact hc.objects i o hold
  · rcases hnow i o hi with ⟨rfl, rfl⟩ | hold
    · exact ⟨hok.positive, hok.inside⟩
    · exact hc.inside i o hold
  · rcases hnow i o hi with ⟨rfl, rfl⟩ | hold
    · rcases hnow j o hj with ⟨rfl, -⟩ | hold'
      · rfl
      · exact absurd hold' (hok.objectFree j)
    · rcases hnow j o hj with ⟨rfl, rfl⟩ | hold'
      · exact absurd hold (hok.objectFree i)
      · exact hc.once i j o hold hold'
  · by_cases heg : e = g
    · exact ⟨f, hf, hfilled f hf (fun hfg => hef (heg.trans hfg.symm)) hnone'⟩
    · exact ⟨e, he, hfilled e he heg hnone⟩

variable (hash) in
theorem delete_some (hpresent : s.present index = some obj) :
    ∃ h slot, h < s.table.size ∧ shiftFrom hash s.table s.table.size s.table.slot h = some slot ∧
      delete hash s.table (some obj) index = some { s.table with slot := slot } ∧
      Contents ⟨{ s.table with slot := slot }, update s.present index none⟩ := by
  have hhome : keyHome hash s.table index < s.table.size := hc.home_lt index
  have hkey := (hc.keys index).mpr (by rw [hpresent]; exact some_ne_none _)
  obtain ⟨e, he, hnone⟩ := hc.empty
  obtain ⟨h, slot, hh, hslot, hdelete, hempty, hdistinct, hkeys⟩ :=
    @delete_removed _ hash s.table _ obj index hhome (hc.inside index obj hpresent).1.ne'
      (hc.objects index obj hpresent) hc.distinct hkey ⟨e, he, hnone⟩
  have hothers : ∀ i o, update s.present index none i = some o →
      s.present i = some o ∧ i ≠ index := by
    intro i o hi
    by_cases hii : i = index
    · rw [hii, update_self] at hi
      cases hi
    · exact ⟨by rwa [update_of_ne hii] at hi, hii⟩
  refine ⟨h, slot, hh, hslot, hdelete, hc.size, hdistinct, ?_,
    fun i o hi => hc.objects i o (hothers i o hi).1, fun i o hi => hc.inside i o (hothers i o hi).1,
    fun i j o hi hj => hc.once i j o (hothers i o hi).1 (hothers j o hj).1,
      e, he, hempty e he hnone⟩
  intro i
  rw [hkeys i, hc.keys i]
  by_cases hii : i = index <;> simp [hii]

omit [DecidableEq α] in
theorem setObject (hfree : s.present index = none) (o : Option α) :
    Contents { s with table := { s.table with object := update s.table.object index o } } := by
  refine { hc with objects := fun i obj hi => ?_ }
  have hne : i ≠ index := by
    rintro rfl
    rw [hfree] at hi
    cases hi
  exact (update_of_ne hne ..).trans (hc.objects i obj hi)

end Contents

variable (hash) in
/-- The table is in order and its distances are exact. -/
structure HashInv (s : Hashed α) : Prop where
  contents : Contents s
  order : RobinHood s.table.size (keyHome hash s.table) (occupant s.table.slot)
  exact : Exact s.table.size (keyHome hash s.table) s.table.slot

omit [DecidableEq α] in
theorem HashInv.setObject (hs : HashInv hash s) (hfree : s.present index = none) (o : Option α) :
    HashInv hash { s with table := { s.table with object := update s.table.object index o } } := by
  have hsame : ∀ r < s.table.size, ∀ i, occupant s.table.slot r = some i →
      keyHome hash { s.table with object := update s.table.object index o } i =
        keyHome hash s.table i := by
    intro r hr i hi
    have hne : i ≠ index := by
      rintro rfl
      exact (hs.contents.keys i).mp ⟨r, hr, hi⟩ hfree
    unfold keyHome
    dsimp only
    rw [update_of_ne hne]
  refine ⟨hs.contents.setObject hfree o, hs.order.congr hsame, fun r hr i hi => ?_⟩
  unfold disp
  rw [hsame r hr i hi]
  exact hs.exact r hr i hi

theorem HashInv.insert (hs : HashInv hash s) (hok : Insertable s obj index)
    (hsparse : Sparse s.table.size (occupant s.table.slot) distMax)
    (ht : insert hash s.table (some obj) index = some t) :
    HashInv hash ⟨t, update s.present index (some obj)⟩ := by
  obtain ⟨slot, hslot, hinsert, hcontents⟩ := hs.contents.insert_some hash hok
  rw [hinsert] at ht
  cases ht
  have hhome : keyHome hash s.table index < s.table.size := hs.contents.home_lt index
  have hcarries : Carries s.table.size (keyHome hash s.table)
    s.table.slot (keyHome hash s.table index)
      ⟨index, 0⟩ := by
    refine ⟨hs.order, hs.exact, hsparse, hok.positive.ne', hhome, fun r hr hlt => ?_, ?_⟩
    · unfold disp at hlt
      rw [cycDist_self] at hlt
      cases hlt
    · exact cycDist_self.symm
  obtain ⟨horder, hexact⟩ := insertFrom_order hhome hcarries hslot
  exact ⟨hcontents, horder, hexact⟩

theorem HashInv.delete (hs : HashInv hash s) (hpresent : s.present index = some obj)
    (ht : delete hash s.table (some obj) index = some t) :
    HashInv hash ⟨t, update s.present index none⟩ := by
  obtain ⟨h, slot, hh, hslot, hdelete, hcontents⟩ := hs.contents.delete_some hash hpresent
  rw [hdelete] at ht
  cases ht
  obtain ⟨horder, hexact⟩ := shiftFrom_order hh hs.order hs.exact hslot
  exact ⟨hcontents, horder, hexact⟩

variable (hash) in
/-- The table is asked for what is present, and can be changed. -/
structure Answers (s : Hashed α) : Prop where
  found : ∀ index obj, s.present index = some obj →
    lookup hash s.table (some obj) = some (.found index)
  absent : ∀ obj, (∀ index, s.present index ≠ some obj) →
    lookup hash s.table (some obj) = some .absent
  null : lookup hash s.table none = some .absent
  inserts : ∀ obj index, Insertable s obj index → ∃ t, insert hash s.table (some obj) index = some t
  deletes : ∀ obj index, s.present index = some obj →
    ∃ t, delete hash s.table (some obj) index = some t

theorem HashInv.answers (hs : HashInv hash s) : Answers hash s := by
  have hc := hs.contents
  have hlt : ∀ o, tableHash hash o s.table.size < s.table.size := fun o =>
    Nat.mod_lt _ (by have := hc.size; omega)
  refine ⟨fun index obj hpresent => ?_, fun obj habsent => ?_, rfl, fun obj index hok => ?_,
    fun obj index hpresent => ?_⟩
  · have hobj := hc.objects index obj hpresent
    obtain ⟨r, hr, hkey⟩ := (hc.keys index).mpr (by rw [hpresent]; exact some_ne_none _)
    have hhome : tableHash hash (some obj) s.table.size = keyHome hash s.table index := by
      rw [keyHome, hobj]
    have hzero : disp s.table.size (keyHome hash s.table) index (keyHome hash s.table index) = 0 :=
      cycDist_self
    have honly : ∀ p < s.table.size, ∀ i, occupant s.table.slot p = some i →
        s.table.object i = some obj → p = r := by
      intro p hp i hi hio
      obtain ⟨o, ho⟩ := ne_none_iff_exists'.mp ((hc.keys i).mp ⟨p, hp, hi⟩)
      obtain rfl : o = obj := Option.some.inj ((hc.objects i o ho).symm.trans hio)
      obtain rfl := hc.once i index o ho hpresent
      exact hc.distinct p hp r hr i hi hkey
    have hfound := @lookupFrom_found _ hash s.table _ obj index r s.table.size
      (keyHome hash s.table index) hs.order hs.exact hc.keys_inside hr hkey hobj honly
      (hc.home_lt index) (hzero ▸ Nat.zero_le _) (by
        rw [hzero, zero_add]
        exact cycDist_lt (hc.home_lt index) hr)
    rw [hzero] at hfound
    rw [lookup, hhome]
    exact hfound
  · obtain ⟨e, he, hnone⟩ := hc.empty
    refine lookupFrom_absent hc.keys_inside (fun i hi hio => ?_) (hlt _)
      ⟨e, he, hnone, cycDist_lt (hlt _) he⟩
    obtain ⟨o, ho⟩ := ne_none_iff_exists'.mp ((hc.keys i).mp hi)
    obtain rfl : o = obj := Option.some.inj ((hc.objects i o ho).symm.trans hio)
    exact habsent i ho
  · obtain ⟨slot, -, hinsert, -⟩ := hc.insert_some hash hok
    exact ⟨_, hinsert⟩
  · obtain ⟨h, slot, -, -, hdelete, -⟩ := hc.delete_some hash hpresent
    exact ⟨_, hdelete⟩

omit [DecidableEq α] in
theorem hashInv_init (hsize : 2 ≤ s.table.size) (hslots : ∀ i, s.table.slot i = ⟨0, 0⟩)
    (hpresent : ∀ i, s.present i = none) :
    HashInv hash s := by
  have hnone : ∀ i, occupant s.table.slot i = none := fun i =>
    occupant_eq_none.mpr (by rw [hslots i])
  have hno : ∀ {r i}, occupant s.table.slot r ≠ some i := by
    intro r i
    rw [hnone r]
    exact (some_ne_none i).symm
  refine ⟨⟨hsize, fun r _ _ _ i hi => absurd hi hno, fun i =>
    ⟨?_, fun h => absurd (hpresent i) h⟩, ?_, ?_,
    ?_, 0, by omega, hnone 0⟩, ⟨fun r _ x hx => absurd hx hno, fun r _ x hx => absurd hx hno⟩,
    fun r _ i hi => absurd hi hno⟩
  · rintro ⟨r, -, hi⟩
    exact absurd hi hno
  all_goals
    intro i o
    simp [hpresent]

/-- If before each insertion there is an empty slot among any 4096 in a row, the
table answers for what was inserted and not deleted in every state of every run. -/
theorem table_answers (hash : Option α → Nat) :
    (hashSystem hash fun t => Sparse t.size (occupant t.slot) distMax).Always (Answers hash) := by
  have hinv : (hashSystem hash fun t => Sparse t.size (occupant t.slot) distMax).Always
      (HashInv hash) := by
    apply System.always_of_step
    · rintro s ⟨hsize, hslots, hpresent⟩
      exact hashInv_init hsize hslots hpresent
    intro s s' hs hstep
    cases hstep with
    | setObject index o hfree => exact hs.setObject hfree o
    | insert o index t hok hsparse ht => exact hs.insert hok hsparse ht
    | delete o index t hpresent ht => exact hs.delete hpresent ht
  exact fun s hs => (hinv s hs).answers

end XnuXzs.Ipc
