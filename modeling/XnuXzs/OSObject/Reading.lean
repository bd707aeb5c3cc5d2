import XnuXzs.OSObject.Tags

/-!
# Reading what was written

A collection is filled while its members are read. By induction on the depth the decoder is done
with an object where the serializer was, with all of its members.
-/

namespace XnuXzs.OSObject

open Lib List

variable (g : Graph) (pool : Pool) {l : List Ref} {m : Ref} {c : Nat}

/-- `a` is a member of `b`. -/
def Under (h : Heap) (a b : Ref) : Prop := ∃ v, view h b = some v ∧ a ∈ v.members

/-- New tags are those of the members, and of what is under new tags. -/
theorem encodeAll_extends {h : Heap} {f : List Ref → Ref → Bool → List UInt8 × List Ref}
    {members : List Ref}
    (hf : ∀ m ∈ members, ∀ tags last, ∃ more, (f tags m last).2 = tags ++ more ∧ ∀ a ∈ more, a = m ∨
      ∃ b ∈ more, Under h a b)
    (tags : List Ref) :
    ∃ more, (encodeAll f tags members).2 = tags ++ more ∧
      ∀ a ∈ more, a ∈ members ∨ ∃ b ∈ more, Under h a b := by
  induction members generalizing tags with
  | nil => exact ⟨[], (append_nil _).symm, nofun⟩
  | cons m rest ih =>
    obtain ⟨first, hfirst, hunder⟩ := hf m (mem_cons_self ..) tags rest.isEmpty
    obtain ⟨others, hothers, hunder'⟩ :=
      ih (fun r hr => hf r (mem_cons_of_mem _ hr)) (tags ++ first)
    refine ⟨first ++ others, by simp [encodeAll, hfirst, hothers], fun a ha => ?_⟩
    rcases mem_append.mp ha with ha | ha
    · rcases hunder a ha with rfl | ⟨b, hb, hab⟩
      · exact .inl (mem_cons_self ..)
      · exact .inr ⟨b, mem_append_left _ hb, hab⟩
    · rcases hunder' a ha with hm | ⟨b, hb, hab⟩
      · exact .inl (mem_cons_of_mem _ hm)
      · exact .inr ⟨b, mem_append_right _ hb, hab⟩

theorem encode_extends (h : Heap) (n : Nat) (tags : List Ref) (o : Ref) (last : Bool) :
    ∃ more, (encode h n tags o last).2 = tags ++ more ∧
      ∀ a ∈ more, a = o ∨ ∃ b ∈ more, Under h a b := by
  induction n generalizing tags o last with
  | zero => exact ⟨[], (append_nil _).symm, nofun⟩
  | succ n ih =>
    rw [encode]
    split
    · exact ⟨[], (append_nil _).symm, nofun⟩
    split
    · exact ⟨[], (append_nil _).symm, nofun⟩
    · rename_i v hv
      obtain ⟨more, hmore, hunder⟩ :=
        encodeAll_extends (fun m _ tags last => ih tags m last) (tags ++ [o])
      refine ⟨o :: more, by rw [hmore, append_assoc, singleton_append], fun a ha => ?_⟩
      rcases mem_cons.mp ha with rfl | ha
      · exact .inl rfl
      rcases hunder a ha with hm | ⟨b, hb, hab⟩
      · exact .inr ⟨o, mem_cons_self .., v, hv, hm⟩
      · exact .inr ⟨b, mem_cons_of_mem _ hb, hab⟩

/-- What is known when an object has been read, its members included. -/
structure Grown (tags tags' : List Ref) (s s' : Unserializer) (hole : Option Nat) (len : Nat) :
    Prop where
  ready : Ready g pool tags' s'
  pos : s'.pos = s.pos + len
  tagsMore : ∃ more, tags' = tags ++ more
  objsMore : ∃ more, s'.objs = s.objs ++ more
  result : s.result ≠ none → s'.result = s.result
  length : (bodies s.heap).length ≤ (bodies s'.heap).length
  frame : ∀ i < (bodies s.heap).length, hole ≠ some i → (bodies s'.heap)[i]? = (bodies s.heap)[i]?
  complete : ∀ a ∈ tags', a ∉ tags → Complete g tags' s' a

section Members

variable {g pool} {tags tags' tags'' : List Ref} {s s' s'' : Unserializer} {hole : Option Nat}
  {len : Nat} {a : Ref}

theorem Grown.img_eq (hg : Grown g pool tags tags' s s' hole len) (hr : Ready g pool tags s)
    (ha : a ∈ tags) : img tags' s'.objs a = img tags s.objs a := by
  obtain ⟨more, rfl⟩ := hg.tagsMore
  obtain ⟨more', hobjs⟩ := hg.objsMore
  rw [hobjs]
  exact img_append hr.length ha more more'

theorem Grown.mem (hg : Grown g pool tags tags' s s' hole len) (ha : a ∈ tags) : a ∈ tags' := by
  obtain ⟨more, rfl⟩ := hg.tagsMore
  exact mem_append_left _ ha

/-- A complete object stays so while something else is filled. -/
theorem Complete.grown (hg : Grown g pool tags tags' s s' hole len) (hr : Ready g pool tags s)
    (ha : a ∈ tags) (hc : Complete g tags s a)
    (hne : ∀ c, hole = some c → img tags s.objs a ≠ .cell c) : Complete g tags' s' a := by
  obtain ⟨v, hv, hsub, hview⟩ := hc
  refine ⟨v, hv, fun m hm => hg.mem (hsub hm), ?_⟩
  have hmap := map_congr_left fun m hm => hg.img_eq hr (hsub hm)
  rw [hg.img_eq hr ha, hmap, ← hview]
  apply view_of_bodies
  intro i hi
  apply hg.frame i
  · rw [hi] at hview
    rcases hcell : s.heap[i]? with _ | c
    · simp [view, hcell] at hview
    · exact (List.getElem?_eq_some_iff.mp (bodies_getElem? hcell)).1
  · exact fun hhole => hne i hhole hi

/-- The hole is an object that had its tag before. -/
def HoleOld (tags : List Ref) (s : Unserializer) (hole : Option Nat) : Prop :=
  ∀ c, hole = some c → ∃ a ∈ tags, img tags s.objs a = .cell c

theorem Grown.trans {m n : Nat} (hold : HoleOld tags s hole) (hr : Ready g pool tags s)
    (ha : Grown g pool tags tags' s s' hole m) (hb : Grown g pool tags' tags'' s' s'' hole n) :
    Grown g pool tags tags'' s s'' hole (m + n) where
  ready := hb.ready
  pos := by rw [hb.pos, ha.pos, add_assoc]
  tagsMore := by
    obtain ⟨a, hta⟩ := ha.tagsMore
    obtain ⟨b, htb⟩ := hb.tagsMore
    exact ⟨a ++ b, by rw [htb, hta, append_assoc]⟩
  objsMore := by
    obtain ⟨a, hoa⟩ := ha.objsMore
    obtain ⟨b, hob⟩ := hb.objsMore
    exact ⟨a ++ b, by rw [hob, hoa, append_assoc]⟩
  result := by
    intro hres
    have hmid := ha.result hres
    rw [hb.result (by rwa [hmid]), hmid]
  length := ha.length.trans hb.length
  frame := by
    intro i hi hne
    rw [hb.frame i (hi.trans_le ha.length) hne, ha.frame i hi hne]
  complete := by
    intro a hmem hnew
    by_cases hmid : a ∈ tags'
    · apply Complete.grown hb ha.ready hmid (ha.complete a hmid hnew)
      intro c hc himg
      obtain ⟨d, hd, himg'⟩ := hold c hc
      rw [← ha.img_eq hr hd] at himg'
      have heq := img_injective ha.ready.length ha.ready.objsNodup hmid (ha.mem hd)
        (himg.trans himg'.symm)
      exact hnew (heq ▸ hd)
    · exact hb.complete a hmem hmid

end Members

/-- The members that a collection of the shape may have. -/
def Suits (K : Shape) (a : Ref) (whole : List Ref) : Prop :=
  match K with
  | .array => True
  | .set => whole.Nodup
  | .dictionary => leftover whole = none ∧ ((pairs whole).map Prod.fst).Nodup ∧ a ∉ whole ∧
    ∀ k ∈ (pairs whole).map Prod.fst, ∃ name, view g.heap k = some (.object (.symbol name))

/-- The object may come next at the place. -/
structure Fits (tags : List Ref) (s : Unserializer) (p : Place) (o : Ref) : Prop where
  accepts : ∀ b, b ∉ s.objs ∨ o ∈ tags ∧ b = img tags s.objs o → Accepts s b p
  key : ∀ c l, p = .inside .dictionary c l → leftover l = none →
    ∃ name, view g.heap o = some (.object (.symbol name))
  old : HoleOld tags s p.container

theorem short_cases (hshort : ∀ x y rest, l = x :: y :: rest → False) :
    l = [] ∨ ∃ k, l = [k] := by
  cases l with
  | nil => exact .inl rfl
  | cons k l =>
    cases l with
    | nil => exact .inr ⟨k, rfl⟩
    | cons y rest => exact absurd rfl (hshort k y rest)

theorem keys_initial {a b : List Ref} (hwhole : leftover (a ++ b) = none) :
    (pairs a).map Prod.fst ++ (leftover a).toList <+: (pairs (a ++ b)).map Prod.fst := by
  induction a using pairs.induct with
  | case1 x y rest ih =>
    exact prefix_cons_inj _ |>.mpr (ih hwhole)
  | case2 a hshort =>
    obtain rfl | ⟨k, rfl⟩ := short_cases hshort
    · exact nil_prefix
    · cases b with
      | nil => cases hwhole
      | cons v rest =>
        exact (prefix_cons_inj _).mpr nil_prefix

theorem keys_subset (l : List Ref) : (pairs l).map Prod.fst ++ (leftover l).toList ⊆ l := by
  induction l using pairs.induct with
  | case1 x y rest ih =>
    exact cons_subset.mpr ⟨mem_cons_self .., fun k hk =>
      mem_cons_of_mem _ (mem_cons_of_mem _ (ih hk))⟩
  | case2 l hshort =>
    obtain rfl | ⟨k, rfl⟩ := short_cases hshort
    · exact nil_subset _
    · exact List.Subset.refl _

section Fits

variable {g pool} {tags : List Ref} {s : Unserializer}

theorem Suits.fits {K : Shape} {a : Ref} {done rest : List Ref}
    (hsuits : Suits g K a (done ++ m :: rest)) (hr : Ready g pool tags s) (hdone : done ⊆ tags)
    (ha : a ∈ tags) (hc : img tags s.objs a = .cell c) :
    Fits g tags s (.inside K c (done.map (img tags s.objs))) m := by
  have hinj : ∀ {x y : Ref}, x ∈ tags → y ∈ tags → img tags s.objs x = img tags s.objs y → x = y :=
    fun hx hy => img_injective hr.length hr.objsNodup hx hy
  have hmapped : ∀ b ∈ done.map (img tags s.objs), b ∈ s.objs := by
    intro b hb
    obtain ⟨x, hx, rfl⟩ := mem_map.mp hb
    exact img_mem hr.length (hdone hx)
  refine ⟨?_, ?_, ?_⟩
  · intro b hb
    cases K with
    | array => trivial
    | set =>
      intro hmem
      rcases hb with hnew | ⟨hm, rfl⟩
      · exact hnew (hmapped b hmem)
      obtain ⟨x, hx, heq⟩ := mem_map.mp hmem
      have hxm := hinj (hdone hx) hm heq
      subst hxm
      exact (nodup_append.mp hsuits).2.2 x hx x (mem_cons_self ..) rfl
    | dictionary =>
      obtain ⟨hleft, hnodup, hself, hkeys⟩ := hsuits
      intro k hk
      rw [leftover_map] at hk
      obtain ⟨k₀, hk₀, rfl⟩ := Option.map_eq_some_iff.mp hk
      have hinitial := keys_initial hleft
      rw [hk₀, Option.toList_some] at hinitial
      have hpending := hnodup.sublist hinitial.sublist
      have hkeysDone := keys_subset done
      rw [hk₀, Option.toList_some] at hkeysDone
      have hk₀tags := hdone (hkeysDone mem_concat_self)
      refine ⟨?_, ?_, ?_⟩
      · obtain ⟨name, hname⟩ := hkeys k₀ (hinitial.subset (mem_concat_self))
        obtain ⟨v, v', hv, hv', heq⟩ := hr.heads k₀ hk₀tags
        rw [hname] at hv
        cases hv
        rw [View.eq_of_emptied (v := .object (.symbol name)) rfl heq] at hv'
        exact isSymbol_iff.mpr ⟨name, hv'⟩
      · rw [pairs_map, map_map]
        intro hmem
        obtain ⟨e, he, heq⟩ := mem_map.mp hmem
        have hkey := mem_map_of_mem (f := Prod.fst) he
        have hsame := hinj (hdone (hkeysDone (mem_append_left _ hkey))) hk₀tags heq
        exact (nodup_append.mp hpending).2.2 _ hkey k₀ (mem_singleton_self _) hsame
      · rcases hb with hnew | ⟨hm, rfl⟩
        · rintro rfl
          exact hnew (hc ▸ img_mem hr.length ha)
        intro heq
        have hma := hinj hm ha (heq.trans hc.symm)
        subst hma
        exact hself (mem_append_right _ (mem_cons_self ..))
  · rintro c' l hp hnone
    cases hp
    obtain ⟨hleft, -, -, hkeys⟩ := hsuits
    rw [leftover_map, Option.map_eq_none_iff] at hnone
    have hwhole : leftover ((done ++ [m]) ++ rest) = none := by
      rwa [append_assoc, singleton_append]
    have hinitial := keys_initial hwhole
    rw [((pairs_append_one done m).1 hnone).2, Option.toList_some, append_assoc,
      singleton_append] at hinitial
    exact hkeys m (hinitial.subset mem_concat_self)
  · rintro d ⟨⟩
    exact ⟨a, ha, hc⟩

end Fits

variable (env : Env) (buf : List UInt8)

/-- An object is read: it is put into the place, and the loop goes on behind it. -/
structure ReadAt (tags : List Ref) (s : Unserializer) (p : Place) (o : Ref) (last : Bool)
    (out : List UInt8 × List Ref) (s' : Unserializer) : Prop where
  grown : Grown g pool tags out.2 s s' p.container out.1.length
  mem : o ∈ out.2
  filled : Filled s' (p.next (img out.2 s'.objs o))
  ahead : if last then Leads env buf s (leave s') ∧ pop s'.stack = pop s.stack
    else Leads env buf s (.more s') ∧ s'.stack = s.stack ∧
      Pointing s' (p.next (img out.2 s'.objs o))

/-- Objects of so many levels are read as they were written. -/
def Follows (n : Nat) : Prop :=
  ∀ {o : Ref} {s : Unserializer} {tags : List Ref} {p : Place} {last : Bool},
    Ready g pool tags s → Filled s p → Pointing s p → Fits g tags s p o →
    (last = false → p ≠ .top) → Nests g.heap n o → Occurs g.heap g.root o →
    SegmentAt buf s.pos (encode g.heap n tags o last).1 → s.stack.length + n ≤ 63 →
    (encode g.heap n tags o last).2.length ≤ 2 ^ 24 →
    ∃ s', ReadAt g pool env buf tags s p o last (encode g.heap n tags o last) s'

section Induction

variable {g pool env buf} {tags tags' : List Ref} {s s₁ s' : Unserializer} {p : Place} {b o : Ref}
  {last : Bool} {n len : Nat} {v : View} {K : Shape}

/-- The members of a collection, read one after the other; the last one ends it. -/
theorem Follows.members {n : Nat} (hfollows : Follows g pool env buf n) {K : Shape} {c : Nat}
    {a : Ref} {done rest : List Ref} (hne : rest ≠ []) (hsuits : Suits g K a (done ++ rest))
    (hr : Ready g pool tags s) (hdone : done ⊆ tags) (ha : a ∈ tags)
    (hc : img tags s.objs a = .cell c)
    (hfilled : Filled s (.inside K c (done.map (img tags s.objs))))
    (hpoint : Pointing s (.inside K c (done.map (img tags s.objs))))
    (hmembers : ∀ m ∈ rest, Nests g.heap n m ∧ Occurs g.heap g.root m)
    (hseg : SegmentAt buf s.pos (encodeAll (encode g.heap n) tags rest).1)
    (hstack : s.stack.length + n ≤ 63)
    (hcount : (encodeAll (encode g.heap n) tags rest).2.length ≤ 2 ^ 24) :
    ∃ s', Grown g pool tags (encodeAll (encode g.heap n) tags rest).2 s s' (some c)
        (encodeAll (encode g.heap n) tags rest).1.length ∧
      done ++ rest ⊆ (encodeAll (encode g.heap n) tags rest).2 ∧
      Filled s' (.inside K c ((done ++ rest).map
        (img (encodeAll (encode g.heap n) tags rest).2 s'.objs))) ∧
      Leads env buf s (leave s') ∧ pop s'.stack = pop s.stack := by
  induction rest generalizing s tags done with
  | nil => exact absurd rfl hne
  | cons m rest ih =>
    obtain ⟨hnests, hoccurs⟩ := hmembers m (mem_cons_self ..)
    simp only [encodeAll] at hseg hcount ⊢
    generalize hfirst : encode g.heap n tags m rest.isEmpty = first at hseg hcount ⊢
    have hsegFirst : SegmentAt buf s.pos first.1 := by
      simpa using hseg.trans (segmentAt_append_left _ _)
    obtain ⟨more, hmore, -⟩ := @encodeAll_extends g.heap (encode g.heap n) rest
      (fun m _ tags last => encode_extends g.heap n tags m last) first.2
    have hcountFirst : first.2.length ≤ 2 ^ 24 := by
      rw [hmore, length_append] at hcount
      omega
    rw [← hfirst] at hsegFirst hcountFirst
    obtain ⟨s₁, hread⟩ := hfollows hr hfilled hpoint (hsuits.fits hr hdone ha hc)
      (by simp) hnests hoccurs hsegFirst hstack hcountFirst
    rw [hfirst] at hread
    obtain ⟨hgrown, hmem, hfilled₁, hahead⟩ := hread
    have hdone₁ : done ++ [m] ⊆ first.2 := by
      intro x hx
      rcases mem_append.mp hx with hold | hlast
      · exact hgrown.mem (hdone hold)
      · exact mem_singleton.mp hlast ▸ hmem
    have hmap : (done ++ [m]).map (img first.2 s₁.objs) =
        done.map (img tags s.objs) ++ [img first.2 s₁.objs m] := by
      rw [map_append, map_singleton]
      congr 1
      exact map_congr_left fun x hx => hgrown.img_eq hr (hdone hx)
    simp only [Place.next, ← hmap] at hfilled₁ hahead
    cases rest with
    | nil =>
      simp only [encodeAll, append_nil]
      exact ⟨s₁, hgrown, hdone₁, hfilled₁, hahead⟩
    | cons m' rest' =>
      obtain ⟨hleads, hstack₁, hpoint₁⟩ := hahead
      have hwhole : done ++ m :: m' :: rest' = (done ++ [m]) ++ m' :: rest' := by
        rw [append_assoc, singleton_append]
      rw [hwhole] at hsuits ⊢
      have hsegRest : SegmentAt buf s₁.pos
          (encodeAll (encode g.heap n) first.2 (m' :: rest')).1 := by
        rw [hgrown.pos]
        exact hseg.trans (segmentAt_append_right _ _)
      have hold : HoleOld tags s (some c) := by
        rintro d ⟨⟩
        exact ⟨a, ha, hc⟩
      obtain ⟨s₂, hgrown₂, hsub, hfilled₂, hleads₂, hpop₂⟩ :=
        ih (by simp) hsuits hgrown.ready hdone₁
        (hgrown.mem ha) ((hgrown.img_eq hr ha).trans hc) hfilled₁ hpoint₁
        (fun x hx => hmembers x (mem_cons_of_mem _ hx)) hsegRest (by rwa [hstack₁]) hcount
      refine ⟨s₂, ?_, hsub, hfilled₂, hleads.trans hleads₂, by rw [hpop₂, hstack₁]⟩
      rw [length_append]
      exact hgrown.trans hold hr hgrown₂

theorem Ready.withPos (hr : Ready g pool tags s) (pos : Nat) : Ready g pool tags { s with pos } :=
  { hr with sound := { hr.sound with balanced := hr.sound.balanced } }

theorem Pointing.next {p : Place} (hpoint : Pointing s p) (htop : p ≠ .top)
    (hparent : s'.parent = s.parent) (hdict : s'.dict = s.dict) (harray : s'.array = s.array)
    (hset : s'.set = s.set) (b : Ref) : Pointing s' (p.next b) := by
  cases p with
  | top => exact absurd rfl htop
  | inside K c l =>
    simp only [Place.next, Pointing, hparent, hdict, harray, hset]
    exact hpoint
  | returned => exact hpoint

theorem leads_put (hpoint : Pointing s p) (htop : last = false → p ≠ .top)
    (hround : round env buf false s = descend env s.pos s' last none)
    (hlater : s.pos + 4 ≤ s'.pos) (hstack : s'.stack = s.stack) (hparent : s'.parent = s.parent)
    (hdict : s'.dict = s.dict) (harray : s'.array = s.array) (hset : s'.set = s.set) :
    if last then Leads env buf s (leave s') ∧ pop s'.stack = pop s.stack
    else Leads env buf s (.more s') ∧ s'.stack = s.stack ∧ Pointing s' (p.next b) := by
  cases last with
  | true =>
    rw [descend_end] at hround
    refine ⟨.last hround fun t ht => ?_, congrArg pop hstack⟩
    rwa [leave_pos ht]
  | false =>
    refine ⟨.last hround ?_, hstack, hpoint.next (htop rfl) hparent hdict harray hset b⟩
    rintro t ⟨⟩
    exact hlater

theorem ReadAt.tag (henv : env.Grants) (hr : Ready g pool tags s) (hfilled : Filled s p)
    (hpoint : Pointing s p) (hfits : Fits g tags s p o) (htop : last = false → p ≠ .top)
    (ho : o ∈ tags) (hseg : SegmentAt buf s.pos (encode g.heap (n + 1) tags o last).1)
    (hcount : (encode g.heap (n + 1) tags o last).2.length ≤ 2 ^ 24) :
    ∃ s', ReadAt g pool env buf tags s p o last (encode g.heap (n + 1) tags o last) s' := by
  have hidx : tags.idxOf? o = some (tags.idxOf o) := by
    rcases hk : tags.idxOf? o with _ | k
    · exact absurd ho (idxOf?_eq_none_iff.mp hk)
    · obtain ⟨hlt, hget, -⟩ := idxOf?_eq_some_iff.mp hk
      rw [← hget, hr.tagsNodup.idxOf_getElem k hlt]
  simp only [encode, hidx] at hseg hcount ⊢
  obtain ⟨s', hround, hput⟩ := round_tag henv hr hfilled hpoint ho
    (hfits.accepts _ (.inr ⟨ho, rfl⟩)) hcount hseg
  have hobjs := hput.objs
  have hready := @Ready.put _ s' tags g pool _ p (hr.withPos (s.pos + 4)) hfilled hput
  refine ⟨s', ⟨hready, ?_, ⟨[], (append_nil _).symm⟩,
    ⟨[], by rw [hobjs, append_nil]⟩, hput.keeps, hput.same.1.ge, fun i _ => hput.same.2 i,
    fun a ha hnew => absurd ha hnew⟩, ho, ?_, ?_⟩
  · simp [hput.pos, recordBytes_length]
  · rw [hobjs]
    exact hput.filled
  · exact leads_put hpoint htop hround hput.pos.ge hput.stack
      hput.parent hput.dict hput.array hput.set

/-- A new object has been put, and it has no members yet. -/
structure Begun (g : Graph) (pool : Pool) (tags : List Ref) (s : Unserializer) (p : Place) (o : Ref)
    (v : View) (len : Nat) (b : Ref) (s' : Unserializer) : Prop where
  ready : Ready g pool (tags ++ [o]) s'
  image : img (tags ++ [o]) s'.objs o = b
  cell : v.shape ≠ none → b = .cell s.heap.length
  looks : view s'.heap b = some v.emptied
  filled : Filled s' (p.next b)
  pos : s'.pos = s.pos + len
  objs : s'.objs = s.objs ++ [b]
  keeps : s.result ≠ none → s'.result = s.result
  result : s'.result ≠ none
  length : (bodies s.heap).length ≤ (bodies s'.heap).length
  frame : ∀ i < (bodies s.heap).length, p.container ≠ some i →
    (bodies s'.heap)[i]? = (bodies s.heap)[i]?
  stack : s'.stack = s.stack
  parent : s'.parent = s.parent
  dict : s'.dict = s.dict
  array : s'.array = s.array
  set : s'.set = s.set

theorem round_begins (henv : env.Grants) (hr : Ready g pool tags s) (hfilled : Filled s p)
    (hpoint : Pointing s p) (hfits : Fits g tags s p o) (ho : Occurs g.heap g.root o)
    (hv : view g.heap o = some v) (hwf : v.WellFormed g.heap) (hsmall : v.Small)
    (hplain : v.Plain) (hnew : o ∉ tags) (hcount : tags.length < 2 ^ 24)
    (hseg : SegmentAt buf s.pos (recordBytes v.record last)) :
    ∃ b s', Begun g pool tags s p o v (recordBytes v.record last).length b s' ∧
      round env buf false s =
        descend env s.pos s' last (if v.members = [] then none else some s.heap.length) := by
  obtain ⟨f, capacity, s', hf, hnotMem, hround, hput⟩ := round_new henv hr hfilled hpoint ho hv hwf
    hsmall hplain hnew (fun b hb => hfits.accepts b (.inl hb)) hcount hseg
  rw [hf.opens] at hround
  obtain ⟨hready, himage⟩ := hr.enroll hfilled ho hv hnew hf hnotMem hput
  obtain ⟨more, hmore⟩ := hf.adds.more
  refine ⟨f.o, s',
    { hput with ready := hready, image := himage, cell := ?_, looks := ?_,
                pos := hput.pos.trans hf.pos, length := ?_, frame := ?_ }, hround⟩
  · intro hshape
    rcases hf.cell with hcell | ⟨hnone, -⟩
    · exact hcell
    · exact absurd hnone hshape
  · -- the new object is not the one that it was put into
    rw [← hf.view]
    apply view_of_bodies
    intro i hi
    apply hput.same.2 i
    intro hc
    obtain ⟨a, ha, himg⟩ := hfits.old i hc
    exact hnotMem (hi ▸ himg ▸ img_mem hr.length ha)
  · rw [hput.same.1]
    exact (congrArg List.length hmore).ge.trans' (by rw [length_append]; omega)
  · intro i hi hne
    rw [hput.same.2 i hne]
    exact (congrArg (·[i]?) hmore).trans (getElem?_append_left hi)

theorem Begun.leaf (hbegun : Begun g pool tags s p o v (recordBytes v.record last).length b s')
    (hv : view g.heap o = some v) (hempty : v.members = []) (hpoint : Pointing s p)
    (htop : last = false → p ≠ .top)
    (hround : round env buf false s = descend env s.pos s' last none) :
    ReadAt g pool env buf tags s p o last (recordBytes v.record last, tags ++ [o]) s' := by
  refine ⟨⟨hbegun.ready, hbegun.pos, ⟨[o], rfl⟩, ⟨[b], hbegun.objs⟩, hbegun.keeps, hbegun.length,
    hbegun.frame, ?_⟩, mem_concat_self, ?_, ?_⟩
  · intro a ha hnew
    obtain rfl : a = o := by
      rcases mem_append.mp ha with hold | hlast
      · exact absurd hold hnew
      · exact mem_singleton.mp hlast
    refine ⟨v, hv, by rw [hempty]; exact nil_subset _, ?_⟩
    rw [hbegun.image, hbegun.looks, View.emptied, hempty]
    rfl
  · rw [hbegun.image]
    exact hbegun.filled
  · have hlater : s.pos + 4 ≤ s'.pos := by
      rw [hbegun.pos, recordBytes_length]
      omega
    exact leads_put hpoint htop hround hlater hbegun.stack hbegun.parent hbegun.dict hbegun.array
      hbegun.set

theorem Nests.notMem_self {h : Heap} (ho : Nests h n o) (hv : view h o = some v) :
    o ∉ v.members := by
  induction n with
  | zero => cases ho
  | succ n ih =>
    intro hmem
    obtain ⟨w, hw, hmembers⟩ := ho
    rw [hv] at hw
    cases hw
    exact ih (hmembers o hmem) hmem

theorem suits_of_wellFormed (hshape : v.shape = some K) (hwf : v.WellFormed g.heap)
    (hself : o ∉ v.members) : Suits g K o v.members := by
  rcases v with value | obj
  · cases hshape
  cases obj with
  | dictionary entries =>
    cases hshape
    obtain ⟨hpairs, hleft⟩ := pairs_flatMap entries
    refine ⟨hleft, ?_, hself, ?_⟩
    · simp only [View.members, Obj.members, hpairs]
      exact hwf.2
    simp only [View.members, Obj.members, hpairs]
    intro k hk
    obtain ⟨e, he, rfl⟩ := mem_map.mp hk
    exact hwf.1 e he
  | array => cases hshape; trivial
  | set => cases hshape; exact hwf
  | _ => cases hshape

/-- The pointers of the loop may be elsewhere. -/
structure SameObjects (t s : Unserializer) : Prop where
  heap : t.heap = s.heap
  objs : t.objs = s.objs
  pos : t.pos = s.pos
  result : t.result = s.result

theorem enter_fill {c : Nat} {K : Shape} {l : List Ref}
    (hc : (bodies s.heap)[c]? = some (K.fill l)) : s.enter c = some
      { s with parent := some c, dict := if K = .dictionary then some c else none
               array := if K = .array then some c else none
               set := if K = .set then some c else none } := by
  obtain ⟨refs, hcell⟩ := getElem?_of_bodies hc
  cases K <;> simp [Unserializer.enter, hcell, Shape.fill]

theorem Begun.sym_none (hbegun : Begun g pool tags s p o v len b s')
    (hfits : Fits g tags s p o) (hv : view g.heap o = some v) (hshape : v.shape ≠ none) :
    s'.sym = none := by
  have hfilled := hbegun.filled
  cases p with
  | top | returned => exact hfilled.1
  | inside K c l =>
    rw [hfilled.2.1]
    cases K with
    | array => rfl
    | set => rfl
    | dictionary =>
      rcases hleft : leftover l with _ | k
      · obtain ⟨name, hname⟩ := hfits.key c l rfl hleft
        rw [hv] at hname
        cases hname
        exact absurd rfl hshape
      · exact ((pairs_append_one l b).2 k hleft).2

theorem Begun.opens (henv : env.Grants) (hbegun : Begun g pool tags s p o v len b s₁)
    (hshape : v.shape = some K) (hsym : s₁.sym = none) (hstack : s.stack.length + 1 ≤ 63)
    (hround : round env buf false s = descend env s.pos s₁ last (some s.heap.length)) :
    ∃ t, round env buf false s = .ok (.more t) ∧ Ready g pool (tags ++ [o]) t ∧
      Filled t (.inside K s.heap.length []) ∧ Pointing t (.inside K s.heap.length []) ∧
      t.stack = (if last then none else s.parent) :: s.stack ∧ SameObjects t s₁ := by
  have hb := hbegun.cell (by rw [hshape]; nofun)
  have hbody : (bodies s₁.heap)[s.heap.length]? = some (K.fill []) := by
    have hlooks := hbegun.looks
    rw [hb, View.emptied, hshape] at hlooks
    simp only [view, Option.map_eq_some_iff] at hlooks
    obtain ⟨cell, hcell, heq⟩ := hlooks
    rw [bodies_getElem? hcell, View.object.inj heq]
  have hmem : Ref.cell s.heap.length ∈ s₁.objs := by
    rw [hbegun.objs, hb]
    exact mem_concat_self
  obtain ⟨capacity, hcapacity⟩ := @setAtIndex_ok (env.stack s.pos) (henv.stack _) s₁.stackCapacity
    stackCapacityMax (s₁.stack.length + 1)
      (by rw [hbegun.stack]; exact lt_of_le_of_lt hstack (by decide))
  let t₀ : Unserializer := { s₁ with stack := (if last then none else s₁.parent) :: s₁.stack
                                     stackCapacity := capacity }
  have hsound₀ : Sound pool t₀ := by
    refine { hbegun.ready.sound with stack := ?_ }
    intro d hd
    rcases mem_cons.mp hd with htop | hbelow
    · split at htop
      · cases htop
      · exact hbegun.ready.sound.parent d htop.symm
    · exact hbegun.ready.sound.stack d hbelow
  have henter := @enter_fill t₀ s.heap.length K [] hbody
  have hmore : descend env s.pos s₁ last (some s.heap.length) = .ok (.more
      { t₀ with parent := some s.heap.length
                dict := if K = .dictionary then some s.heap.length else none
                array := if K = .array then some s.heap.length else none
                set := if K = .set then some s.heap.length else none }) := by
    simp only [t₀] at henter
    simp only [descend, hcapacity, henter]
    rfl
  refine ⟨_, hround.trans hmore, ⟨hsound₀.enter hmem, hbegun.ready.fresh, hbegun.ready.length,
    hbegun.ready.tagsNodup, hbegun.ready.objsNodup, hbegun.ready.occurs, hbegun.ready.heads⟩,
    ⟨hbody, ?_, hbegun.result⟩, ⟨rfl, rfl, rfl, rfl⟩, ?_, rfl, rfl, rfl, rfl⟩
  · rw [show ({ t₀ with parent := _, dict := _, array := _, set := _ } : Unserializer).sym =
      s₁.sym from rfl, hsym]
    cases K <;> rfl
  · simp [t₀, hbegun.stack, hbegun.parent]

theorem Grown.moved {w : Unserializer} {hole : Option Nat}
    (hg : Grown g pool tags tags' s s' hole len) (hsound : Sound pool w) (hsame : SameObjects w s')
    (hsome : w.result ≠ none) : Grown g pool tags tags' s w hole len where
  ready := by
    refine ⟨hsound, fun hnone => absurd hnone hsome, ?_, hg.ready.tagsNodup,
      ?_, hg.ready.occurs, ?_⟩
    · rw [hsame.objs]
      exact hg.ready.length
    · rw [hsame.objs]
      exact hg.ready.objsNodup
    · rw [hsame.objs, hsame.heap]
      exact hg.ready.heads
  pos := hsame.pos.trans hg.pos
  tagsMore := hg.tagsMore
  objsMore := by
    rw [hsame.objs]
    exact hg.objsMore
  result hres := hsame.result.trans (hg.result hres)
  length := by
    rw [hsame.heap]
    exact hg.length
  frame := by
    rw [hsame.heap]
    exact hg.frame
  complete := by
    intro a ha hnew
    obtain ⟨v, hv, hsub, hview⟩ := hg.complete a ha hnew
    refine ⟨v, hv, hsub, ?_⟩
    rw [hsame.heap, hsame.objs]
    exact hview

section

variable {t s₂ : Unserializer}

theorem Begun.frame_inner (hbegun : Begun g pool tags s p o v len b s₁) (hsame : SameObjects t s₁)
    (hg : Grown g pool (tags ++ [o]) tags' t s₂ (some s.heap.length) n) {i : Nat}
    (hi : i < (bodies s.heap).length) : (bodies s₂.heap)[i]? = (bodies s₁.heap)[i]? := by
  have hinner : some s.heap.length ≠ some i := by
    rintro ⟨⟩
    rw [bodies, length_map] at hi
    exact absurd hi (lt_irrefl _)
  rw [hg.frame i (by rw [hsame.heap]; exact hi.trans_le hbegun.length) hinner, hsame.heap]

theorem Begun.closed (hbegun : Begun g pool tags s p o v len b s₁)
    (hr : Ready g pool (tags ++ [o]) t) (hv : view g.heap o = some v) (hshape : v.shape = some K)
    (hsame : SameObjects t s₁) (hg : Grown g pool (tags ++ [o]) tags' t s₂ (some s.heap.length) n)
    (hsub : v.members ⊆ tags')
    (hfilled : Filled s₂ (.inside K s.heap.length (v.members.map (img tags' s₂.objs)))) :
    Grown g pool tags tags' s s₂ p.container (len + n) := by
  have hb := hbegun.cell (by rw [hshape]; nofun)
  have himage : img tags' s₂.objs o = .cell s.heap.length := by
    rw [hg.img_eq hr mem_concat_self, hsame.objs, hbegun.image, hb]
  refine ⟨hg.ready, ?_, ?_, ?_, ?_, ?_, ?_, ?_⟩
  · rw [hg.pos, hsame.pos, hbegun.pos, add_assoc]
  · obtain ⟨more, hmore⟩ := hg.tagsMore
    exact ⟨[o] ++ more, by rw [hmore, append_assoc]⟩
  · obtain ⟨more, hmore⟩ := hg.objsMore
    exact ⟨[b] ++ more, by rw [hmore, hsame.objs, hbegun.objs, append_assoc]⟩
  · intro hres
    rw [hg.result (by rw [hsame.result]; exact hbegun.result), hsame.result, hbegun.keeps hres]
  · apply hbegun.length.trans
    rw [← hsame.heap]
    exact hg.length
  · intro i hi hne
    rw [hbegun.frame_inner hsame hg hi]
    exact hbegun.frame i hi hne
  · intro a ha hnew
    by_cases hao : a = o
    · subst hao
      refine ⟨v, hv, hsub, ?_⟩
      rw [himage, hshape]
      exact view_cell hfilled.1
    apply hg.complete a ha
    intro hmem
    rcases mem_append.mp hmem with hold | hlast
    · exact hnew hold
    · exact hao (mem_singleton.mp hlast)

theorem Begun.filled_outside (hbegun : Begun g pool tags s p o v len b s₁) (hfilled : Filled s p)
    (hsym₁ : s₁.sym = none) (hsym : s₂.sym = none) (hsame : SameObjects t s₁)
    (hg : Grown g pool (tags ++ [o]) tags' t s₂ (some s.heap.length) n) : Filled s₂ (p.next b) := by
  have hres : s₂.result = s₁.result :=
    (hg.result (by rw [hsame.result]; exact hbegun.result)).trans hsame.result
  have hafter := hbegun.filled
  cases p with
  | top | returned => exact ⟨hsym, hres.trans hafter.2⟩
  | inside K' c l =>
    obtain ⟨hbody, hpending, hsome⟩ := hafter
    have hlt : c < (bodies s.heap).length := (List.getElem?_eq_some_iff.mp hfilled.1).1
    refine ⟨?_, ?_, by rw [hres]; exact hsome⟩
    · rw [hbegun.frame_inner hsame hg hlt]
      exact hbody
    · rw [hsym, ← hpending, hsym₁]

end

theorem Shape.pending_map (K : Shape) (φ : Ref → Ref) (l : List Ref) :
    K.pending (l.map φ) = (K.pending l).map φ := by
  cases K
  · exact leftover_map φ l
  · rfl
  · rfl

theorem View.shape_of_members (hne : v.members ≠ []) : ∃ K, v.shape = some K := by
  rcases v with value | obj
  · exact absurd rfl hne
  · cases obj with
    | dictionary | array | set => exact ⟨_, rfl⟩
    | _ => exact absurd rfl hne

theorem leave_to {stack : List (Option Nat)} (hs : Sound pool s')
    (hstack : ∀ d, some d ∈ stack → .cell d ∈ s'.objs) (hc : .cell c ∈ s'.objs)
    (hpop : pop s'.stack = some (c, stack)) (hfilled : Filled s' (.inside K c l)) :
    ∃ w, leave s' = .more w ∧ Sound pool w ∧ Filled w (.inside K c l) ∧
      Pointing w (.inside K c l) ∧ w.stack = stack ∧ SameObjects w s' := by
  let t : Unserializer := { s' with stack := stack }
  have ht : Sound pool t := { hs with stack := hstack }
  have henter := @enter_fill t c K l hfilled.1
  refine ⟨_, ?_, ht.enter hc, hfilled, ⟨rfl, rfl, rfl, rfl⟩, rfl, rfl, rfl, rfl, rfl⟩
  simp only [t] at henter
  simp only [leave, hpop, henter]
  rfl

theorem Begun.collection (henv : env.Grants) (hfollows : Follows g pool env buf n)
    (hbegun : Begun g pool tags s p o v (recordBytes v.record last).length b s₁)
    (hr : Ready g pool tags s) (hfilled : Filled s p) (hpoint : Pointing s p)
    (hfits : Fits g tags s p o) (htop : last = false → p ≠ .top) (hv : view g.heap o = some v)
    (hwf : v.WellFormed g.heap) (hself : o ∉ v.members) (hne : v.members ≠ [])
    (hmembers : ∀ m ∈ v.members, Nests g.heap n m ∧ Occurs g.heap g.root m)
    (hseg : SegmentAt buf (s.pos + (recordBytes v.record last).length)
      (encodeAll (encode g.heap n) (tags ++ [o]) v.members).1)
    (hstack : s.stack.length + (n + 1) ≤ 63)
    (hcount : (encodeAll (encode g.heap n) (tags ++ [o]) v.members).2.length ≤ 2 ^ 24)
    (hround : round env buf false s = descend env s.pos s₁ last (some s.heap.length)) :
    ∃ s', ReadAt g pool env buf tags s p o last
      (recordBytes v.record last ++ (encodeAll (encode g.heap n) (tags ++ [o]) v.members).1,
        (encodeAll (encode g.heap n) (tags ++ [o]) v.members).2) s' := by
  obtain ⟨K, hshape⟩ := View.shape_of_members hne
  have hsym₁ := hbegun.sym_none hfits hv (by rw [hshape]; nofun)
  obtain ⟨t, hround', hready, hfilledT, hpointT, hstackT, hsame⟩ := hbegun.opens henv hshape hsym₁
    (by omega) hround
  have hlater : s.pos + 4 ≤ t.pos := by
    rw [hsame.pos, hbegun.pos, recordBytes_length]
    omega
  have himage : img (tags ++ [o]) t.objs o = b := by rw [hsame.objs, hbegun.image]
  obtain ⟨s₂, hgrown, hsub, hfilled₂, hleads, hpop⟩ :=
    @Follows.members g pool env buf (tags ++ [o]) t
    n hfollows K s.heap.length o [] v.members hne (suits_of_wellFormed hshape hwf hself) hready
    (nil_subset _) mem_concat_self (himage.trans (hbegun.cell (by rw [hshape]; nofun)))
    hfilledT hpointT hmembers (by rw [hsame.pos, hbegun.pos]; exact hseg)
    (by rw [hstackT, length_cons]; omega) hcount
  rw [hstackT] at hpop
  generalize hout : encodeAll (encode g.heap n) (tags ++ [o]) v.members = out at *
  have hsym : s₂.sym = none := by
    rw [hfilled₂.2.1, nil_append, Shape.pending_map, (View.eq_fill hshape).2]
    rfl
  have hgrown' : Grown g pool tags out.2 s s₂ p.container
      (recordBytes v.record last ++ out.1).length := by
    rw [length_append]
    exact hbegun.closed hready hv hshape hsame hgrown hsub hfilled₂
  have houter := hbegun.filled_outside hfilled hsym₁ hsym hsame hgrown
  have himage₂ : img out.2 s₂.objs o = b := (hgrown.img_eq hready mem_concat_self).trans himage
  have hmem := hgrown.mem mem_concat_self
  cases last with
  | true =>
    refine ⟨s₂, hgrown', hmem, by rwa [himage₂], ?_⟩
    exact ⟨.step hround' hlater hleads, hpop⟩
  | false =>
    cases p with
    | top => exact absurd rfl (htop rfl)
    | returned => exact hpoint.elim
    | inside K' c l =>
      obtain ⟨more, hmore⟩ := hgrown'.objsMore
      have hkept : ∀ r ∈ s.objs, r ∈ s₂.objs := by
        intro r hr'
        rw [hmore]
        exact mem_append_left _ hr'
      simp only [Bool.false_eq_true, if_false, hpoint.1] at hpop
      obtain ⟨w, hleave, hsound, hfilledW, hpointW, hstackW, hsameW⟩ :=
        leave_to hgrown'.ready.sound (fun d hd => hkept _ (hr.sound.stack d hd))
          (hkept _ (hr.sound.parent c hpoint.1)) hpop houter
      have himageW : img out.2 w.objs o = b := by rw [hsameW.objs, himage₂]
      refine ⟨w, hgrown'.moved hsound hsameW (by rw [hsameW.result]; exact houter.2.2),
        hmem, by rw [himageW]; exact hfilledW, ?_⟩
      rw [hleave] at hleads
      exact ⟨.step hround' hlater hleads, hstackW, hpointW⟩

theorem occurs_member (hv : view g.heap o = some v) (hm : m ∈ v.members) :
    Occurs g.heap g.root m := by
  cases o with
  | boolean value | permanent name =>
    cases hv
    cases hm
  | cell i =>
    obtain ⟨c, hc, rfl⟩ := Option.map_eq_some_iff.mp hv
    exact .inr ⟨c, mem_of_getElem? hc, hm⟩

/-- Objects of any depth are read as they were written. -/
theorem follows (henv : env.Grants)
    (hsmall : ∀ r v, Occurs g.heap g.root r → view g.heap r = some v → v.Small)
    (hplain : ∀ r v, Occurs g.heap g.root r → view g.heap r = some v → v.Plain) (n : Nat) :
    Follows g pool env buf n := by
  induction n with
  | zero =>
    intro o s tags p last _ _ _ _ _ hnests
    exact hnests.elim
  | succ n ih =>
    intro o s tags p last hr hfilled hpoint hfits htop hnests ho hseg hstack hcount
    by_cases hmem : o ∈ tags
    · exact ReadAt.tag henv hr hfilled hpoint hfits htop hmem hseg hcount
    obtain ⟨v, hv, hwf⟩ := g.wellFormed o ho
    have hself := hnests.notMem_self hv
    obtain ⟨v', hv', hdeep⟩ := hnests
    obtain rfl : v = v' := Option.some.inj (hv.symm.trans hv')
    simp only [encode, idxOf?_eq_none_iff.mpr hmem, hv] at hseg hcount ⊢
    obtain ⟨more, hmore, -⟩ := @encodeAll_extends g.heap (encode g.heap n) v.members
      (fun m _ tags last => encode_extends g.heap n tags m last) (tags ++ [o])
    have hroom : tags.length < 2 ^ 24 := by
      rw [hmore, length_append, length_append, length_singleton] at hcount
      omega
    obtain ⟨b, s₁, hbegun, hround⟩ := round_begins henv hr hfilled hpoint hfits ho hv hwf
      (hsmall o v ho hv) (hplain o v ho hv) hmem hroom
      (by simpa using hseg.trans (segmentAt_append_left _ _))
    by_cases hne : v.members = []
    · rw [if_pos hne] at hround
      simp only [hne, encodeAll, append_nil]
      exact ⟨s₁, hbegun.leaf hv hne hpoint htop hround⟩
    rw [if_neg hne] at hround
    exact hbegun.collection henv ih hr hfilled hpoint hfits htop hv hwf hself hne
      (fun m hm => ⟨hdeep m hm, occurs_member hv hm⟩)
      (hseg.trans (segmentAt_append_right _ _)) hstack hcount hround

end Induction

end XnuXzs.OSObject
