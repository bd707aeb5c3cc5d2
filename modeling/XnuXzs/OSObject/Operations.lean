import XnuXzs.OSObject.Unserialize

/-!
# The operations keep the counts

An operation that puts an object into a collection succeeds on a balanced heap, if what it is
handed is alive, and leaves it balanced. No other object changes.
-/

namespace XnuXzs.OSObject

open Lib List

def Obj.kind : Obj → Tag
  | .dictionary _ => .dictionary
  | .array _ => .array
  | .set _ => .set
  | .number _ _ => .number
  | .symbol _ => .symbol
  | .string _ => .string
  | .data _ _ => .data

def bodies (h : Heap) : List Obj := h.map Cell.body

theorem Ref.eq_cell {r : Ref} {i : Nat} (hi : i ∈ r.counted) : r = .cell i := by
  cases r with
  | cell j => rw [mem_singleton.mp hi]
  | boolean | permanent => cases hi

variable {h h' : Heap} {i : Nat} {c : Cell Obj} {held : List Nat} {body : Obj} {o r : Ref}

theorem bodies_of_shrinks (hsh : Shrinks h h') : bodies h' = bodies h := by
  apply ext_getElem?
  intro i
  simp only [bodies, getElem?_map]
  rcases hi : h'[i]? with _ | c'
  · have hnone := getElem?_eq_none_iff.mp hi
    rw [hsh.length] at hnone
    rw [getElem?_eq_none hnone]
  · obtain ⟨c, hc, hbody, -⟩ := hsh.body hi
    simp [hc, hbody]

theorem bodies_set (h : Heap) (i : Nat) (c : Cell Obj) :
    bodies (h.set i c) = (bodies h).set i c.body :=
  map_set

theorem bodies_getElem? (hi : h[i]? = some c) : (bodies h)[i]? = some c.body := by
  rw [bodies, getElem?_map, hi]
  rfl

theorem getElem?_of_bodies (hi : (bodies h)[i]? = some body) :
    ∃ refs, h[i]? = some ⟨body, refs⟩ := by
  rw [bodies, getElem?_map] at hi
  obtain ⟨⟨body', refs⟩, hcell, rfl⟩ := Option.map_eq_some_iff.mp hi
  exact ⟨refs, hcell⟩

theorem bodies_retain (hi : h[i]? = some c) : bodies (h.set i (c.retain counting)) = bodies h := by
  rw [bodies_set, Cell.retain_body]
  obtain ⟨hlt, hbody⟩ := List.getElem?_eq_some_iff.mp (bodies_getElem? hi)
  rw [← hbody, set_getElem_self]

/-- The symbols that can not be freed are held. -/
def Pinned (h : Heap) (held : List Nat) : Prop :=
  ∀ i o, (bodies h)[i]? = some o → o.misfiled = true → i ∈ held

/-- At most one object more, to which `r` points. -/
def Adds (h h' : Heap) (r : Ref) : Prop :=
  bodies h' = bodies h ∨ ∃ o, bodies h' = bodies h ++ [o] ∧ r = .cell h.length

theorem Adds.more (ha : Adds h h' r) : ∃ more, bodies h' = bodies h ++ more := by
  rcases ha with hsame | ⟨o, hmore, -⟩
  · exact ⟨[], hsame.trans (append_nil _).symm⟩
  · exact ⟨[o], hmore⟩

theorem Adds.pinned (ha : Adds h h' r) (hp : Pinned h held) : Pinned h' (r.counted ++ held) := by
  intro i b hi hstuck
  rcases ha with hsame | ⟨o, hmore, rfl⟩
  · exact mem_append_right _ (hp i b (hsame ▸ hi) hstuck)
  have hlength : (bodies h).length = h.length := length_map ..
  rcases lt_or_ge i (bodies h).length with hlt | hge
  · rw [hmore, getElem?_append_left hlt] at hi
    exact mem_append_right _ (hp i b hi hstuck)
  · have hlast := (List.getElem?_eq_some_iff.mp hi).1
    rw [hmore, length_append, length_singleton] at hlast
    exact mem_append_left _ (mem_singleton.mpr (by omega))

theorem Pinned.mono {held' : List Nat} (hp : Pinned h held) (hsub : held ⊆ held') :
    Pinned h held' :=
  fun i o hi hstuck => hsub (hp i o hi hstuck)

theorem Pinned.set (hp : Pinned h held) (hset : bodies h' = (bodies h).set i body)
    (hfree : body.misfiled = false) : Pinned h' held := by
  intro j b hj hstuck
  rw [hset, getElem?_set] at hj
  split at hj
  · split at hj
    · cases hj
      rw [hfree] at hstuck
      cases hstuck
    · cases hj
  · exact hp j b hj hstuck

variable {refs : Nat} {key : Ref} {members : List Ref} {entries : List (Ref × Ref)}

theorem live_of_getElem? (hi : h[i]? = some c) (hlive : c.refs ≠ 0) :
    h.live i = .ok c := by
  simp [Heap.live, hi, hlive]

theorem live_of_held (hb : Balanced counting h held) (hi : i ∈ held) :
    ∃ c, h.live i = .ok c ∧ h[i]? = some c ∧ c.refs ≠ 0 := by
  obtain ⟨c, hc, hlive⟩ := hb.alive hi
  exact ⟨c, live_of_getElem? hc hlive, hc, hlive⟩

theorem live_eq (hb : Balanced counting h held) (hi : i ∈ held) (hc : h[i]? = some c) :
    h.live i = .ok c := by
  obtain ⟨d, hlive, hd, -⟩ := live_of_held hb hi
  cases hc.symm.trans hd
  exact hlive

theorem retain_spec (hb : Balanced counting h held) (hr : r.counted ⊆ held) :
    ∃ h', retain h r = .ok h' ∧ Balanced counting h' (r.counted ++ held) ∧
      bodies h' = bodies h := by
  cases r with
  | boolean | permanent => exact ⟨h, rfl, hb, rfl⟩
  | cell i =>
    obtain ⟨c, hok, hc, hlive⟩ := live_of_held hb (hr (mem_singleton_self i))
    refine ⟨h.set i (c.retain counting), ?_, hb.retain hc hlive, bodies_retain hc⟩
    simp only [retain, hok]
    rfl

theorem alloc_balanced (hb : Balanced counting h held) (hnew : body.members = []) :
    Balanced counting (alloc h body).2 ((alloc h body).1.counted ++ held) :=
  hb.push (by simp [counting, hnew])

theorem alloc_adds (h : Heap) (body : Obj) : Adds h (alloc h body).2 (alloc h body).1 :=
  .inr ⟨body, map_append .., rfl⟩

theorem findSymbol_spec {name : List UInt8} (hfind : findSymbol h name = some i) :
    ∃ c, h[i]? = some c ∧ c.body = .symbol name ∧ c.refs ≠ 0 := by
  obtain ⟨hlt, hi, -⟩ := findIdx?_eq_some_iff_getElem.mp hfind
  simp only [Bool.and_eq_true, decide_eq_true_eq] at hi
  exact ⟨h[i], getElem?_eq_getElem hlt, hi.1, hi.2⟩

/-- New references from a collection take the place of those held for them. -/
theorem store_spec {put : List Nat} (hb : Balanced counting h' (put ++ held)) (hi : i ∈ held)
    (hbodies : bodies h' = bodies h) (hc : h[i]? = some c) (body : Obj)
    (hmove : ∀ j, (counting.points body).count j =
      (counting.points c.body).count j + put.count j) :
    ∃ c', h'.live i = .ok c' ∧ Balanced counting (h'.set i { c' with body }) held ∧
      bodies (h'.set i { c' with body }) = (bodies h).set i body := by
  obtain ⟨c', hlive, hc', hne⟩ := live_of_held hb (mem_append_right _ hi)
  have hsame : c'.body = c.body :=
    Option.some.inj ((bodies_getElem? hc').symm.trans (hbodies ▸ bodies_getElem? hc))
  refine ⟨c', hlive, hb.store hc' hne fun j => ?_, ?_⟩
  · rw [hsame, hmove]
  · rw [bodies_set, hbodies]

theorem arraySetObject_spec (hb : Balanced counting h held) (hi : i ∈ held) (ho : o.counted ⊆ held)
    (hc : h[i]? = some ⟨.array members, refs⟩) :
    ∃ h', arraySetObject h true i o = .ok (true, h') ∧ Balanced counting h' held ∧
      bodies h' = (bodies h).set i (.array (members ++ [o])) := by
  have hlive := live_eq hb hi hc
  obtain ⟨h', hret, hb', hbodies⟩ := retain_spec hb ho
  obtain ⟨c', hlive', hb'', hst⟩ := store_spec hb' hi hbodies hc (.array (members ++ [o]))
    (by simp [counting, Obj.members])
  refine ⟨_, ?_, hb'', hst⟩
  simp only [arraySetObject, hlive, hret, hlive', bind, Except.bind, if_true]
  rfl

theorem setSetObject_spec (hb : Balanced counting h held) (hi : i ∈ held) (ho : o.counted ⊆ held)
    (hc : h[i]? = some ⟨.set members, refs⟩) (hnew : o ∉ members) :
    ∃ h', setSetObject h true i o = .ok (true, h') ∧ Balanced counting h' held ∧
      bodies h' = (bodies h).set i (.set (members ++ [o])) := by
  have hlive := live_eq hb hi hc
  obtain ⟨h', hret, hb', hbodies⟩ := retain_spec hb ho
  obtain ⟨c', hlive', hb'', hst⟩ := store_spec hb' hi hbodies hc (.set (members ++ [o]))
    (by simp [counting, Obj.members])
  refine ⟨_, ?_, hb'', hst⟩
  simp only [setSetObject, hlive, hret, hlive', bind, Except.bind, hnew, if_true, if_false]
  rfl

theorem replaceValue_none (hkey : key ∉ entries.map Prod.fst) :
    replaceValue key o entries = none := by
  induction entries with
  | nil => rfl
  | cons e rest ih =>
    rw [map_cons, mem_cons, not_or] at hkey
    rw [replaceValue, if_neg (Ne.symm hkey.1), ih hkey.2]
    rfl

theorem dictSetObject_spec (hb : Balanced counting h held) (hi : i ∈ held)
    (hkey : key.counted ⊆ held) (ho : o.counted ⊆ held)
    (hc : h[i]? = some ⟨.dictionary entries, refs⟩) (hnew : key ∉ entries.map Prod.fst) :
    ∃ h', dictSetObject h true i (some key) o = .ok (true, h') ∧ Balanced counting h' held ∧
      bodies h' = (bodies h).set i (.dictionary (entries ++ [(key, o)])) := by
  have hlive := live_eq hb hi hc
  obtain ⟨h', hret, hb', hbodies⟩ := retain_spec hb hkey
  obtain ⟨h'', hret', hb'', hbodies'⟩ :=
    retain_spec hb' (List.Subset.trans ho (subset_append_right ..))
  rw [← append_assoc] at hb''
  obtain ⟨c', hlive', hb₁, hst⟩ := store_spec hb'' hi (hbodies'.trans hbodies) hc
    (.dictionary (entries ++ [(key, o)])) fun j => by
      simp only [counting, Obj.members, flatMap_append, flatMap_cons, flatMap_nil, append_nil,
        count_append]
      omega
  refine ⟨_, ?_, hb₁, hst⟩
  simp only [dictSetObject, hlive, hret, hret', hlive', bind, Except.bind, replaceValue_none hnew,
    if_true]
  rfl

end XnuXzs.OSObject
