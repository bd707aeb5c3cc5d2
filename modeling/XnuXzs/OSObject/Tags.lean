import XnuXzs.OSObject.Filling

/-!
# Objects and tags

The decoder's array of objects runs along the serializer's array of tags. A round
that reads a record keeps them so: a tag names an object that is there, and any
other record makes one that is not.
-/

namespace XnuXzs.OSObject

open Lib List

/-- Some rounds, of which `r` is the outcome of the last one. -/
inductive Leads (env : Env) (buf : List UInt8) : Unserializer → Round → Prop
  | last {s : Unserializer} {r : Round} (hround : round env buf false s = .ok r)
      (hlater : ∀ s', r = .more s' → s.pos + 4 ≤ s'.pos) : Leads env buf s r
  | step {s s' : Unserializer} {r : Round} (hround : round env buf false s = .ok (.more s'))
      (hlater : s.pos + 4 ≤ s'.pos) (hrest : Leads env buf s' r) : Leads env buf s r

/-- The end of the last member of a collection. -/
def leave (s : Unserializer) : Round :=
  match pop s.stack with
  | none => .done true s
  | some (p, rest) =>
    match ({ s with stack := rest } : Unserializer).enter p with
    | some s => .more s
    | none => .done false { s with stack := rest }

variable {env : Env} {buf : List UInt8} {s s' : Unserializer}

theorem Leads.trans {r : Round} (ha : Leads env buf s (.more s')) (hb : Leads env buf s' r) :
    Leads env buf s r := by
  generalize hr : Round.more s' = t at ha
  induction ha with
  | last hround hlater =>
    subst hr
    exact .step hround (hlater s' rfl) hb
  | step hround hlater _ ih => exact .step hround hlater (ih hr)

/-- There are no more rounds than words in the buffer. -/
theorem Leads.run {ok : Bool} (hl : Leads env buf s (.done ok s')) {n : Nat} (hpos : 0 < n)
    (hn : buf.length < s.pos + 4 * n) : run env buf false n s = .ok (ok, s') := by
  generalize hr : Round.done ok s' = r at hl
  induction hl generalizing n with
  | last hround =>
    subst hr
    obtain ⟨n, rfl⟩ := Nat.exists_eq_succ_of_ne_zero hpos.ne'
    simp only [OSObject.run, hround, bind, Except.bind]
    rfl
  | step hround hlater _ ih =>
    obtain ⟨n, rfl⟩ := Nat.exists_eq_succ_of_ne_zero hpos.ne'
    have hin := round_more hround
    simp only [OSObject.run, hround, bind, Except.bind]
    exact ih (by omega) (by omega) hr

theorem descend_end (start : Nat) : descend env start s true none = .ok (leave s) := by
  unfold descend leave
  rcases pop s.stack with _ | ⟨p, rest⟩
  · rfl
  · dsimp only
    rcases ({ s with stack := rest } : Unserializer).enter p with _ | t <;> rfl

theorem leave_pos (hmore : leave s = .more s') : s'.pos = s.pos := by
  unfold leave at hmore
  split at hmore
  · cases hmore
  · split at hmore
    · rename_i henter
      cases hmore
      unfold Unserializer.enter at henter
      split at henter <;> cases henter <;> rfl
    · cases hmore

/-- The decoded object for a tagged one. -/
def img (tags objs : List Ref) (a : Ref) : Ref := objs[tags.idxOf a]?.getD a

variable {objs tags : List Ref} {a : Ref}

section

variable (hlen : tags.length = objs.length) (ha : a ∈ tags)
include hlen ha

theorem img_append
    (more more' : List Ref) : img (tags ++ more) (objs ++ more') a = img tags objs a := by
  have hlt := idxOf_lt_length_of_mem ha
  rw [img, img, idxOf_append_of_mem ha, getElem?_append_left (hlen ▸ hlt)]

theorem getElem?_img : objs[tags.idxOf a]? = some (img tags objs a) := by
  have hlt : tags.idxOf a < objs.length := hlen ▸ idxOf_lt_length_of_mem ha
  rw [img, getElem?_eq_getElem hlt]
  rfl

theorem img_mem : img tags objs a ∈ objs :=
  mem_of_getElem? (getElem?_img hlen ha)

end

theorem img_getElem (hnodup : tags.Nodup) {k : Nat} {b : Ref}
    (ha : tags[k]? = some a) (hb : objs[k]? = some b) : img tags objs a = b := by
  obtain ⟨hlt, rfl⟩ := List.getElem?_eq_some_iff.mp ha
  rw [img, hnodup.idxOf_getElem k hlt, hb]
  rfl

theorem img_injective (hlen : tags.length = objs.length) (hnodup : objs.Nodup)
    {a' : Ref} (ha : a ∈ tags) (ha' : a' ∈ tags) (heq : img tags objs a = img tags objs a') :
    a = a' := by
  have hidx : tags.idxOf a = tags.idxOf a' := by
    have hlt : tags.idxOf a < objs.length := hlen ▸ idxOf_lt_length_of_mem ha
    apply (getElem?_inj hlt hnodup).mp
    rw [getElem?_img hlen ha, getElem?_img hlen ha', heq]
  exact (idxOf_inj ha).mp hidx

variable (g : Graph) (pool : Pool)

/-- The tags and the objects run along each other. -/
structure Ready (tags : List Ref) (s : Unserializer) : Prop where
  sound : Sound pool s
  fresh : Fresh s
  length : tags.length = s.objs.length
  tagsNodup : tags.Nodup
  objsNodup : s.objs.Nodup
  occurs : ∀ a ∈ tags, Occurs g.heap g.root a
  heads : ∀ a ∈ tags, ∃ v v', view g.heap a = some v ∧ view s.heap (img tags s.objs a) = some v' ∧
    v'.emptied = v.emptied

/-- The decoded object has all of its members. -/
def Complete (tags : List Ref) (s : Unserializer) (a : Ref) : Prop :=
  ∃ v, view g.heap a = some v ∧ v.members ⊆ tags ∧ view s.heap (img tags s.objs a) = some
    (match v.shape with
      | some K => .object (K.fill (v.members.map (img tags s.objs)))
      | none => v)

variable {g pool} {h h' : Heap} {r b : Ref} {v : View} {f : Fetched} {next capacity : Nat}

theorem view_of_bodies (hsame : ∀ i, r = .cell i → (bodies h')[i]? = (bodies h)[i]?) :
    view h' r = view h r := by
  cases r with
  | boolean => rfl
  | permanent => rfl
  | cell i =>
    have hi := congrArg (Option.map View.object) (hsame i rfl)
    simp only [bodies, getElem?_map, Option.map_map] at hi
    exact hi

theorem view_cell {i : Nat} {body : Obj} (hi : (bodies h)[i]? = some body) :
    view h (.cell i) = some (.object body) := by
  obtain ⟨refs, hcell⟩ := getElem?_of_bodies hi
  simp [view, hcell]

theorem Shape.emptied_fill (K : Shape) (l : List Ref) :
    (View.object (K.fill l)).emptied = .object (K.fill []) := by
  cases K <;> rfl

theorem heads_put {p : Place} (hfilled : Filled s p) (hput : PutSpec pool s s' p b)
    (hv : view s.heap r = some v) : ∃ v', view s'.heap r = some v' ∧ v'.emptied = v.emptied := by
  by_cases hr : ∃ c, p.container = some c ∧ r = .cell c
  · obtain ⟨c, hc, rfl⟩ := hr
    cases p with
    | inside K d l =>
      cases hc
      obtain ⟨hbody, -, -⟩ := hfilled
      obtain ⟨hbody', -, -⟩ := hput.filled
      rw [view_cell hbody] at hv
      cases hv
      refine ⟨_, view_cell hbody', ?_⟩
      rw [Shape.emptied_fill, Shape.emptied_fill]
    | _ => cases hc
  · refine ⟨v, ?_, rfl⟩
    rw [view_of_bodies fun i hi => ?_]
    · exact hv
    · apply hput.same.2 i
      intro hc
      exact hr ⟨i, hc, hi⟩

theorem Ready.put {p : Place} (hr : Ready g pool tags s) (hfilled : Filled s p)
    (hput : PutSpec pool s s' p b) : Ready g pool tags s' := by
  refine ⟨hput.sound, fun hnone => absurd hnone hput.result, ?_, hr.tagsNodup, ?_, hr.occurs, ?_⟩
  · rw [hput.objs]
    exact hr.length
  · rw [hput.objs]
    exact hr.objsNodup
  intro a ha
  obtain ⟨v, v', hv, hv', heq⟩ := hr.heads a ha
  obtain ⟨v'', hv'', heq'⟩ := heads_put hfilled hput hv'
  rw [← hput.objs] at hv''
  exact ⟨v, v'', hv, hv'', heq'.trans heq⟩

theorem view_extends {more : List Obj} (hsame : bodies h' = bodies h ++ more)
    (hv : view h r = some v) : view h' r = some v := by
  rw [view_of_bodies fun i hi => ?_]
  · exact hv
  subst hi
  rw [hsame]
  apply getElem?_append_left
  rcases hcell : h[i]? with _ | c
  · simp [view, hcell] at hv
  · exact (List.getElem?_eq_some_iff.mp (bodies_getElem? hcell)).1

theorem isSymbol_iff : isSymbol h r = true ↔ ∃ name, view h r = some (.object (.symbol name)) := by
  cases r with
  | boolean | permanent => simp [isSymbol, view]
  | cell i =>
    simp only [isSymbol, view]
    rcases h[i]? with _ | ⟨body, refs⟩
    · simp
    · cases body <;> simp

theorem Sound.cell_notMem (hs : Sound pool s) : Ref.cell s.heap.length ∉ s.objs := by
  intro hmem
  have hheld : s.heap.length ∈ s.objs.flatMap Ref.counted ++ pool.ext :=
    counted_subset hmem (mem_singleton_self _)
  obtain ⟨c, hc, -⟩ := hs.balanced.alive hheld
  exact absurd (List.getElem?_eq_some_iff.mp hc).1 (lt_irrefl _)

theorem View.eq_of_emptied {w : View} (hshape : v.shape = none) (heq : w.emptied = v) : w = v := by
  unfold View.emptied at heq
  split at heq
  · rename_i K _
    subst heq
    cases K <;> cases hshape
  · exact heq

/-- A fetched object is not among the objects: a cell is new, and a shared object would have
another tag. -/
theorem fetched_notMem {o : Ref} (hr : Ready g pool tags s) (hf : FetchedAs s.heap v next f)
    (ho : Occurs g.heap g.root o) (hv : view g.heap o = some v) (hnew : o ∉ tags) :
    f.o ∉ s.objs := by
  rcases hf.cell with hcell | ⟨hshape, hshared⟩
  · rw [hcell]
    exact hr.sound.cell_notMem
  intro hmem
  obtain ⟨k, hk, hget⟩ := getElem_of_mem hmem
  have hlt : k < tags.length := hr.length ▸ hk
  have hka := getElem?_eq_getElem hlt
  have himg := img_getElem hr.tagsNodup hka (getElem?_eq_getElem hk)
  obtain ⟨w, w', hw, hw', heq⟩ := hr.heads tags[k] (getElem_mem hlt)
  rw [himg, hget] at hw'
  obtain ⟨more, hmore⟩ := hf.adds.more
  have hsame := view_extends hmore hw'
  rw [hf.view] at hsame
  cases hsame
  -- the tagged object looks the same, so it is the same
  have hemptied : v.emptied = v := by rw [View.emptied, hshape]
  rw [hemptied, hemptied] at heq
  obtain rfl := View.eq_of_emptied hshape heq.symm
  apply hnew
  rcases hshared with ⟨name, rfl⟩ | ⟨value, rfl⟩
  · rw [g.symbols o tags[k] name ho (hr.occurs _ (getElem_mem hlt)) hv hw]
    exact getElem_mem hlt
  have hboolean : ∀ r, view g.heap r = some (.boolean value) → r = .boolean value := by
    intro r hr'
    cases r with
    | boolean => simpa [view] using hr'
    | permanent | cell => simp [view] at hr'
  rw [hboolean o hv, ← hboolean _ hw]
  exact getElem_mem hlt

variable {p : Place} {o : Ref} {last : Bool}

theorem round_tag (henv : env.Grants) (hr : Ready g pool tags s) (hfilled : Filled s p)
    (hpoint : Pointing s p) (ho : o ∈ tags) (haccept : Accepts s (img tags s.objs o) p)
    (hlen : tags.length ≤ 2 ^ 24)
    (hseg : SegmentAt buf s.pos (recordBytes (0x0c000000 ||| tags.idxOf o, []) last)) :
    ∃ s', round env buf false s = descend env s.pos s' last none ∧
      PutSpec pool { s with pos := s.pos + 4 } s' p (img tags s.objs o) := by
  have hidx := idxOf_lt_length_of_mem ho
  obtain ⟨key, hword, hlast, hfetch⟩ := @fetch_tag env buf s.heap s.objs s.pos last _ _
    (getElem?_img hr.length ho) (by omega) hseg
  have hin := hseg.length_le
  rw [recordBytes_length] at hin
  have hs : Sound pool { s with pos := s.pos + 4 } :=
    { hr.sound with balanced := hr.sound.balanced }
  have hfirst : s.result = none → s.objs.head? = some (img tags s.objs o) := by
    intro hnone
    have hempty := hr.fresh hnone
    rw [eq_nil_of_length_eq_zero (hr.length.trans (congrArg List.length hempty))] at ho
    cases ho
  obtain ⟨s', hadd, hput⟩ := @addMember_puts env pool { s with pos := s.pos + 4 } s.pos _ henv hs p
    hfilled hpoint (img_mem hr.length ho) haccept hfirst
  refine ⟨s', ?_, hput⟩
  rw [round, if_neg (by omega), hword]
  simp only [bind, Except.bind, hfetch, Bool.false_eq_true, false_and, if_false, enroll, if_true,
    place, hadd, hlast]

/-- The state in which a new object is placed. -/
def enrolled (s : Unserializer) (f : Fetched) (capacity : Nat) : Unserializer :=
  { s with heap := f.heap, pos := f.pos, objs := s.objs ++ [f.o], objsCapacity := capacity }

theorem Filled.enrolled (hfilled : Filled s p) (hf : FetchedAs s.heap v next f) :
    Filled (enrolled s f capacity) p := by
  cases p with
  | top | returned => exact hfilled
  | inside K c l =>
    obtain ⟨hbody, hsym, hres⟩ := hfilled
    obtain ⟨more, hmore⟩ := hf.adds.more
    refine ⟨?_, hsym, hres⟩
    have hlt := (List.getElem?_eq_some_iff.mp hbody).1
    exact (congrArg (·[c]?) hmore).trans ((getElem?_append_left hlt).trans hbody)

theorem Accepts.enrolled (haccept : Accepts s b p) (hf : FetchedAs s.heap v next f) :
    Accepts (enrolled s f capacity) b p := by
  cases p with
  | top | returned => trivial
  | inside K c l =>
    cases K with
    | array => trivial
    | set => exact haccept
    | dictionary =>
      intro k hk
      obtain ⟨hsymbol, hkey, hself⟩ := haccept k hk
      obtain ⟨name, hname⟩ := isSymbol_iff.mp hsymbol
      obtain ⟨more, hmore⟩ := hf.adds.more
      exact ⟨isSymbol_iff.mpr ⟨name, view_extends hmore hname⟩, hkey, hself⟩

theorem setAtIndex_ok {grown : Option Nat} (hgrown : grown.isSome) {capacity capacityMax idx : Nat}
    (hidx : idx < capacityMax) : ∃ n, setAtIndex grown capacity capacityMax idx = some n := by
  obtain ⟨slack, rfl⟩ := Option.isSome_iff_exists.mp hgrown
  unfold setAtIndex
  split
  · exact ⟨capacity, rfl⟩
  · exact ⟨_, by rw [if_pos (by omega)]; rfl⟩

theorem View.emptied_emptied (v : View) : v.emptied.emptied = v.emptied := by
  rcases v with value | obj
  · rfl
  · cases obj <;> rfl

theorem round_new (henv : env.Grants) (hr : Ready g pool tags s) (hfilled : Filled s p)
    (hpoint : Pointing s p) (ho : Occurs g.heap g.root o) (hv : view g.heap o = some v)
    (hwf : v.WellFormed g.heap) (hsmall : v.Small) (hplain : v.Plain) (hnew : o ∉ tags)
    (haccept : ∀ b, b ∉ s.objs → Accepts s b p) (hlen : tags.length < 2 ^ 24)
    (hseg : SegmentAt buf s.pos (recordBytes v.record last)) :
    ∃ f capacity s', FetchedAs s.heap v (s.pos + (recordBytes v.record last).length) f ∧
      f.o ∉ s.objs ∧ round env buf false s = descend env s.pos s' last f.opens ∧
      PutSpec pool (enrolled s f capacity) s' p f.o := by
  obtain ⟨key, f, hword, hlast, hfetch, hf⟩ := @fetches_of_segment env buf s.heap s.objs s.pos last
    henv g.heap v hwf hsmall hplain hseg
  have hnotMem := fetched_notMem hr hf ho hv hnew
  have hin := hseg.length_le
  rw [recordBytes_length] at hin
  obtain ⟨capacity, hcapacity⟩ := @setAtIndex_ok (env.objs s.pos) (henv.objs _) s.objsCapacity
    objsCapacityMax s.objs.length (hr.length ▸ hlen)
  have hs : Sound pool (enrolled s f capacity) :=
    hr.sound.enroll (hf.balanced _ hr.sound.balanced) hf.adds
  have hfirst : s.result = none → (s.objs ++ [f.o]).head? = some f.o := by
    intro hnone
    rw [hr.fresh hnone]
    rfl
  obtain ⟨s', hadd, hput⟩ := @addMember_puts env pool (enrolled s f capacity) s.pos f.o henv hs p
    (hfilled.enrolled hf) (by cases p <;> exact hpoint) mem_concat_self
    ((haccept f.o hnotMem).enrolled hf) hfirst
  refine ⟨f, capacity, s', hf, hnotMem, ?_, hput⟩
  rw [round, if_neg (by omega), hword]
  simp only [enrolled] at hadd
  simp only [bind, Except.bind, hfetch, hf.hasLength, hf.isRef, Bool.false_eq_true, false_and,
    if_false, enroll, hcapacity, place, hadd, hlast, if_true]

theorem Ready.enroll (hr : Ready g pool tags s) (hfilled : Filled s p) (ho : Occurs g.heap g.root o)
    (hv : view g.heap o = some v) (hnew : o ∉ tags) (hf : FetchedAs s.heap v next f)
    (hnotMem : f.o ∉ s.objs) (hput : PutSpec pool (enrolled s f capacity) s' p f.o) :
    Ready g pool (tags ++ [o]) s' ∧ img (tags ++ [o]) s'.objs o = f.o := by
  have hobjs : s'.objs = s.objs ++ [f.o] := hput.objs
  have himg : img (tags ++ [o]) s'.objs o = f.o := by
    rw [img, hobjs, idxOf_append_of_notMem hnew, idxOf_cons_self, add_zero, hr.length,
      getElem?_concat_length]
    rfl
  refine ⟨⟨hput.sound, fun hnone => absurd hnone hput.result, ?_, ?_, ?_, ?_, ?_⟩, himg⟩
  · rw [hobjs, length_append, length_append, hr.length]
    rfl
  · exact nodup_append.mpr ⟨hr.tagsNodup, nodup_singleton o, fun a ha b hb => by
      rintro rfl
      exact hnew (mem_singleton.mp hb ▸ ha)⟩
  · rw [hobjs]
    exact nodup_append.mpr ⟨hr.objsNodup, nodup_singleton f.o, fun a ha b hb => by
      rintro rfl
      exact hnotMem (mem_singleton.mp hb ▸ ha)⟩
  · intro a ha
    rcases mem_append.mp ha with hold | hlast
    · exact hr.occurs a hold
    · exact mem_singleton.mp hlast ▸ ho
  intro a ha
  rcases mem_append.mp ha with hold | hlast
  · obtain ⟨w, w', hw, hw', heq⟩ := hr.heads a hold
    obtain ⟨more, hmore⟩ := hf.adds.more
    have hlook := view_extends hmore hw'
    obtain ⟨w'', hw'', heq'⟩ := heads_put (hfilled.enrolled hf) hput hlook
    rw [← img_append hr.length hold [o] [f.o], ← hobjs] at hw''
    exact ⟨w, w'', hw, hw'', heq'.trans heq⟩
  · obtain rfl := mem_singleton.mp hlast
    obtain ⟨w'', hw'', heq'⟩ := heads_put (hfilled.enrolled hf) hput hf.view
    rw [himg]
    exact ⟨v, w'', hv, hw'', heq'.trans (View.emptied_emptied v)⟩

end XnuXzs.OSObject
