import XnuXzs.OSObject.Reading

/-!
# Out and back

What the decoder makes of the bytes of a graph is the graph again.
-/

namespace XnuXzs.OSObject

open Lib List

variable {g : Graph} {pool : Pool} {env : Env} {buf : List UInt8} {K : Shape} {v : View} {h : Heap}
  {body : Obj} {b m : Ref} {tags : List Ref} {d : Decoded} {ext : List Nat}

/-- Every tagged object has been read. -/
structure Restored (g : Graph) (tags : List Ref) (d : Decoded) : Prop where
  root : g.root ∈ tags
  result : d.result = some (img tags d.objs g.root)
  length : tags.length = d.objs.length
  nodup : d.objs.Nodup
  tagsNodup : tags.Nodup
  under : ∀ a ∈ tags, a = g.root ∨ ∃ b ∈ tags, Under g.heap a b
  complete : ∀ a ∈ tags, ∃ v, view g.heap a = some v ∧ v.members ⊆ tags ∧
    view d.heap (img tags d.objs a) = some
      (match v.shape with
        | some K => .object (K.fill (v.members.map (img tags d.objs)))
        | none => v)

theorem decode_restores (henv : env.Grants)
    (hsmall : ∀ r v, Occurs g.heap g.root r → view g.heap r = some v → v.Small)
    (hplain : ∀ r v, Occurs g.heap g.root r → view g.heap r = some v → v.Plain)
    (hnests : Nests g.heap 60 g.root) (hcount : (encode g.heap 60 [] g.root true).2.length ≤ 2 ^ 24)
    (hbuf : buf = [0xd3, 0, 0, 0] ++ (encode g.heap 60 [] g.root true).1) :
    ∃ d, decode env pool.heap true buf = .ok d ∧
      Restored g (encode g.heap 60 [] g.root true).2 d ∧
      Balanced counting d.heap (d.objs.flatMap Ref.counted ++ pool.ext) ∧
      Pinned d.heap (d.objs.flatMap Ref.counted ++ pool.ext) ∧
      ∀ r, d.result = some r → d.objs.head? = some r := by
  let s : Unserializer := { heap := pool.heap, pos := 4 }
  have hs : Sound pool s := sound_start pool
  have hfresh : Fresh s := fun _ => rfl
  have hready : Ready g pool [] s :=
    ⟨hs, hfresh, rfl, nodup_nil, nodup_nil, by simp, by simp⟩
  have hseg : SegmentAt buf s.pos (encode g.heap 60 [] g.root true).1 := by
    rw [hbuf]
    exact segmentAt_append_right _ _
  obtain ⟨s', hread⟩ := @follows g pool env buf henv hsmall hplain 60 g.root s [] .top true hready
    ⟨rfl, rfl⟩ ⟨rfl, rfl, rfl, rfl⟩ ⟨fun _ _ =>
      trivial, by simp, by simp [HoleOld, Place.container]⟩ (by simp)
    hnests (.inl rfl) hseg (by simp only [s, length_nil]; omega) hcount
  obtain ⟨hleads, hpop⟩ : Leads env buf s (leave s') ∧ pop s'.stack = none := hread.ahead
  have hleave : leave s' = .done true s' := by rw [leave, hpop]
  rw [hleave] at hleads
  have hrun := hleads.run (Nat.succ_pos (buf.length / 4)) (by simp only [s]; omega)
  have hsignature : readSignature buf = .ok (some false) := by
    rw [hbuf]
    rfl
  obtain ⟨more, hmore, hunder⟩ := encode_extends g.heap 60 [] g.root true
  have hsound := hread.grown.ready.sound
  refine ⟨_,
    by simp only [decode, hsignature, bind, Except.bind, if_true, s] at hrun ⊢; rw [hrun]; rfl,
    ⟨hread.mem, hread.filled.2, hread.grown.ready.length, hread.grown.ready.objsNodup,
      hread.grown.ready.tagsNodup, ?_, ?_⟩,
    hsound.balanced, hsound.pinned, hsound.result⟩
  · rw [hmore, nil_append]
    exact hunder
  · intro a ha
    exact hread.grown.complete a ha (by simp)

theorem Shape.members_fill {l : List Ref} (hnone : K.pending l = none) :
    (K.fill l).members = l := by
  cases K with
  | array => rfl
  | set => rfl
  | dictionary =>
    simp only [Shape.fill, Obj.members]
    induction l using pairs.induct with
    | case1 x y rest ih => simp [pairs, ih hnone]
    | case2 l hshort =>
      obtain rfl | ⟨k, rfl⟩ := short_cases hshort
      · rfl
      · cases hnone

theorem alike_leaf (R : Ref → Ref → Prop) (hshape : v.shape = none) : Alike R v v := by
  rcases v with value | obj
  · exact .boolean value
  cases obj with
  | number value size => exact .number value size
  | symbol name => exact .symbol name
  | string bytes => exact .string bytes
  | data bytes => exact .data bytes _ _
  | _ => cases hshape

theorem forall₂_map {α β : Type} {S : α → β → Prop} {φ : α → β} {l : List α}
    (hl : ∀ a ∈ l, S a (φ a)) : List.Forall₂ S l (l.map φ) :=
  List.forall₂_map_right_iff.mpr (List.forall₂_same.mpr hl)

theorem alike_fill {R : Ref → Ref → Prop} {φ : Ref → Ref} (hshape : v.shape = some K)
    (hR : ∀ m ∈ v.members, R m (φ m)) :
    Alike R v (.object (K.fill (v.members.map φ))) := by
  rcases v with value | obj
  · cases hshape
  cases obj with
  | dictionary entries =>
    cases hshape
    simp only [View.members, Obj.members, Shape.fill, pairs_map, (pairs_flatMap entries).1]
    refine .dictionary (forall₂_map fun e he => ?_)
    have hmem : ∀ r ∈ [e.1, e.2], R r (φ r) := fun r hr =>
      hR r (mem_flatMap.mpr ⟨e, he, hr⟩)
    exact ⟨hmem e.1 (mem_cons_self ..), hmem e.2 (mem_cons_of_mem _ (mem_cons_self ..))⟩
  | array members =>
    cases hshape
    exact .array (forall₂_map hR)
  | set members =>
    cases hshape
    exact .set (forall₂_map hR)
  | _ => cases hshape

theorem contains_member {i j : Nat} (halive : refsAt h i ≠ 0)
    (hview : view h (.cell i) = some (.object body)) (hm : .cell j ∈ body.members) :
    Contains counting h i j := by
  obtain ⟨cell, hcell, heq⟩ := Option.map_eq_some_iff.mp hview
  cases heq
  refine ⟨cell, hcell, ?_⟩
  rw [Cell.outgoing, if_neg (refsAt_of_getElem? hcell ▸ halive)]
  exact mem_flatMap.mpr ⟨_, hm, mem_singleton_self j⟩

theorem cell_of_member (hview : view h b = some (.object body)) (hm : m ∈ body.members) :
    ∃ i, b = .cell i := by
  cases b with
  | boolean => cases hview
  | permanent =>
    cases hview
    cases hm
  | cell i => exact ⟨i, rfl⟩

theorem Alive.member {held : List Nat} (hb : Balanced counting h held) (halive : Alive h b)
    (hview : view h b = some (.object body)) (hm : m ∈ body.members) : Alive h m := by
  obtain ⟨i, rfl⟩ := cell_of_member hview hm
  cases m with
  | boolean | permanent => trivial
  | cell j =>
    have hcontains := contains_member halive hview hm
    exact hb.refs_ne_zero (mem_append_right _ hcontains.mem_inside)

/-- The decoded members of a collection. -/
theorem Restored.members {tags : List Ref} {d : Decoded} (hd : Restored g tags d) {a m : Ref}
    {v : View} (ha : a ∈ tags) (hv : view g.heap a = some v) (hm : m ∈ v.members) :
    ∃ body, view d.heap (img tags d.objs a) = some (.object body) ∧
      img tags d.objs m ∈ body.members := by
  obtain ⟨v', hv', -, hview⟩ := hd.complete a ha
  cases hv.symm.trans hv'
  obtain ⟨K, hshape⟩ := View.shape_of_members (ne_nil_of_mem hm)
  rw [hshape] at hview
  refine ⟨_, hview, ?_⟩
  rw [Shape.members_fill (by rw [Shape.pending_map, (View.eq_fill hshape).2]; rfl)]
  exact mem_map_of_mem hm

/-- The decoded objects keep each other when the caller holds the root. -/
theorem Restored.kept (hd : Restored g tags d)
    (hb : Balanced counting d.heap (d.objs.flatMap Ref.counted ++ ext)) :
    Kept counting d.heap (owned d.result ++ ext)
      {i | i ∈ d.objs.flatMap Ref.counted ++ ext} := by
  intro i hi
  rcases mem_append.mp hi with hobj | hext
  · obtain ⟨r, hr, hri⟩ := mem_flatMap.mp hobj
    obtain ⟨k, hk, rfl⟩ := getElem_of_mem hr
    have hlt : k < tags.length := hd.length ▸ hk
    have himg := img_getElem hd.tagsNodup (getElem?_eq_getElem hlt) (getElem?_eq_getElem hk)
    rw [← himg] at hri
    rcases hd.under tags[k] (getElem_mem hlt) with hroot | ⟨b, hb', v, hv, hm⟩
    · refine .inl (mem_append_left _ ?_)
      rw [hd.result, ← hroot]
      exact hri
    · obtain ⟨body, hview, hmem⟩ := hd.members hb' hv hm
      obtain ⟨j, hj⟩ := cell_of_member hview hmem
      have hheld : j ∈ d.objs.flatMap Ref.counted ++ ext :=
        mem_append_left _ (mem_flatMap.mpr ⟨_, img_mem hd.length hb', hj ▸ mem_singleton_self j⟩)
      refine .inr ⟨j, hheld, ?_⟩
      rw [hj] at hview
      exact contains_member (hb.refs_ne_zero (mem_append_left _ hheld))
        hview (Ref.eq_cell hri ▸ hmem)
  · exact .inl (mem_append_right _ hext)

theorem Restored.isomorphic (hd : Restored g tags d)
    (hb : Balanced counting h (owned d.result ++ ext)) (hbodies : bodies h = bodies d.heap) :
    Isomorphic g.heap g.root h (img tags d.objs g.root) := by
  refine ⟨fun a b => a ∈ tags ∧ b = img tags d.objs a ∧ Alive h b, ⟨hd.root, rfl, ?_⟩, ?_, ?_, ?_⟩
  · -- the caller has a reference to the root
    rw [hd.result] at hb
    rcases hroot : img tags d.objs g.root with value | name | i
    · trivial
    · trivial
    · rw [hroot] at hb
      exact hb.refs_ne_zero (mem_append_left _ (mem_append_left _ (mem_singleton_self i)))
  · rintro a b b' ⟨-, rfl, -⟩ ⟨-, rfl, -⟩
    rfl
  · rintro a a' b ⟨ha, rfl, -⟩ ⟨ha', heq, -⟩
    exact img_injective hd.length hd.nodup ha ha' heq
  · rintro a b ⟨ha, rfl, halive⟩
    obtain ⟨v, hv, hsub, hview⟩ := hd.complete a ha
    rw [← view_of_bodies fun i _ => congrArg (·[i]?) hbodies] at hview
    refine ⟨halive, v, _, hv, hview, ?_⟩
    rcases hshape : v.shape with _ | K
    · exact alike_leaf _ hshape
    refine alike_fill hshape fun m hm => ⟨hsub hm, rfl, ?_⟩
    obtain ⟨body, hbody, hmem⟩ := hd.members ha hv hm
    rw [← view_of_bodies fun i _ => congrArg (·[i]?) hbodies] at hbody
    exact halive.member hb hbody hmem

theorem binaryWithCapacity_spec {senv : SerialEnv} (hpage : 0 < senv.pageSize) {inCapacity : Nat}
    {s : Serializer} (hs : binaryWithCapacity senv inCapacity = some s) :
    s.data = [0xd3, 0, 0, 0] ∧ s.tags = [] ∧ s.endCollection = true ∧ 0 < s.capacityIncrement := by
  unfold binaryWithCapacity at hs
  split at hs
  · cases hs
  rcases hround : roundPage senv.pageSize inCapacity with _ | capacity
  · rw [hround] at hs
    cases hs
  have hle := le_roundPage hpage hround
  simp only [hround] at hs
  split at hs
  · cases hs
    exact ⟨rfl, rfl, rfl, by simp only; omega⟩
  · cases hs

/-- A graph in which fewer than 60 collections stand in each other is written, and
what is read from the bytes is isomorphic to it. -/
theorem unserialize_serialize (g : Graph) (pool : Pool) {senv : SerialEnv} (hsenv : senv.Grants)
    {env : Env} (henv : env.Grants) {inCapacity : Nat} {s₀ : Serializer}
    (hs₀ : binaryWithCapacity senv inCapacity = some s₀) (hnests : Nests g.heap 60 g.root)
    (hsmall : ∀ r v, Occurs g.heap g.root r → view g.heap r = some v → v.Small)
    (hplain : ∀ r v, Occurs g.heap g.root r → view g.heap r = some v → v.Plain)
    (hcount : (encode g.heap 60 [] g.root true).2.length ≤ 2 ^ 24)
    (hsize : 4 + (encode g.heap 60 [] g.root true).1.length + s₀.capacityIncrement +
      senv.pageSize ≤ 2 ^ 32) {n : Nat} (hn : 60 ≤ n) :
    ∃ s, binarySerialize senv g.heap n s₀ g.root = (true, s) ∧
      ∃ r h, OSUnserializeBinary env pool.heap true s.data = .ok (some r, h) ∧
        Isomorphic g.heap g.root h r := by
  obtain ⟨hdata, htags, hend, hincrement⟩ := binaryWithCapacity_spec hsenv.page hs₀
  have hsame : encode g.heap n s₀.tags g.root s₀.endCollection =
      encode g.heap 60 [] g.root true := by
    rw [htags, hend]
    exact encode_mono hnests hn [] true
  have hroom : Room senv s₀ (encode g.heap n s₀.tags g.root s₀.endCollection).1.length := by
    rw [hsame]
    refine ⟨hincrement, by rw [hdata]; decide, ?_⟩
    rw [hdata]
    exact hsize
  obtain ⟨s, hserialize, hwrote⟩ := binarySerialize_writes hsenv (hnests.mono hn) hroom
  rw [hsame] at hwrote
  refine ⟨s, hserialize, ?_⟩
  obtain ⟨d, hdecode, hrestored, hb, hpinned, hresult⟩ := @decode_restores g pool env s.data henv
    hsmall hplain hnests hcount (by rw [hwrote.data, hdata])
  obtain ⟨h, hrelease, hb', hshrinks⟩ := releaseAll_balanced (Decoded.split hresult hb)
    (hrestored.kept hb) fun i c hi => hpinned i c.body (bodies_getElem? hi)
  refine ⟨_, h, ?_, hrestored.isomorphic hb' (bodies_of_shrinks hshrinks)⟩
  rw [← hrestored.result]
  simp only [OSUnserializeBinary, hdecode, bind, Except.bind, hrelease]
  rfl

/-- Every request is granted, with pages of 4096 bytes. -/
def plainSerialEnv : SerialEnv where
  granted _ := true
  tagged _ := true
  pageSize := 4096

/-- A dictionary with one key, which also stands twice in the array that is its value. -/
def sharedKeyHeap : Heap :=
  [⟨.dictionary [(.cell 1, .cell 2)], 1⟩, ⟨.symbol [0x6b], 3⟩, ⟨.array [.cell 1, .cell 1], 1⟩]

theorem sharedKey_occurs {r : Ref} (hr : Occurs sharedKeyHeap (.cell 0) r) :
    r = .cell 0 ∨ r = .cell 1 ∨ r = .cell 2 := by
  simp only [Occurs, sharedKeyHeap, mem_cons, not_mem_nil, or_false, exists_eq_or_imp,
    exists_eq_left, Obj.members, flatMap_cons, flatMap_nil, append_nil] at hr
  grind

def sharedKey : Graph where
  heap := sharedKeyHeap
  root := .cell 0
  wellFormed := by
    intro r hr
    rcases sharedKey_occurs hr with rfl | rfl | rfl
    · refine ⟨_, rfl, ?_, nodup_singleton _⟩
      intro e he
      rw [mem_singleton.mp he]
      exact ⟨_, rfl⟩
    · exact ⟨_, rfl, by decide, by decide⟩
    · exact ⟨_, rfl, trivial⟩
  symbols := by
    intro a b name ha hb hva hvb
    rcases sharedKey_occurs ha with rfl | rfl | rfl
    · cases hva
    · rcases sharedKey_occurs hb with rfl | rfl | rfl
      · cases hvb
      · rfl
      · cases hvb
    · cases hva

theorem plainSerialEnv_grants : plainSerialEnv.Grants := ⟨fun _ => rfl, fun _ => rfl, by decide⟩

theorem plainEnv_grants : plainEnv.Grants :=
    ⟨fun _ => rfl, fun _ => rfl, fun _ => rfl, fun _ => rfl⟩

theorem sharedKey_views {P : View → Prop} (hP : ∀ v, view sharedKeyHeap (.cell 0) = some v → P v)
    (hP₁ : ∀ v, view sharedKeyHeap (.cell 1) = some v → P v)
    (hP₂ : ∀ v, view sharedKeyHeap (.cell 2) = some v → P v) (r : Ref) (v : View)
    (hr : Occurs sharedKey.heap sharedKey.root r) (hv : view sharedKey.heap r = some v) : P v := by
  rcases sharedKey_occurs hr with rfl | rfl | rfl
  · exact hP v hv
  · exact hP₁ v hv
  · exact hP₂ v hv

theorem sharedKey_nests : Nests sharedKey.heap 60 sharedKey.root := by
  have hsymbol : Nests sharedKeyHeap 58 (.cell 1) := ⟨_, rfl, nofun⟩
  refine ⟨_, rfl, ?_⟩
  intro m hm
  rcases mem_cons.mp hm with rfl | hm
  · exact hsymbol.mono (by decide)
  rw [mem_singleton.mp hm]
  refine ⟨_, rfl, ?_⟩
  intro k hk
  rcases mem_cons.mp hk with rfl | hk
  · exact hsymbol
  · rw [mem_singleton.mp hk]
    exact hsymbol

/-- The hypotheses hold of a graph with an object at three positions. -/
theorem unserialize_serialize_sharedKey : ∃ s₀ s, binaryWithCapacity plainSerialEnv 4 = some s₀ ∧
    binarySerialize plainSerialEnv sharedKey.heap 60 s₀ sharedKey.root = (true, s) ∧
    ∃ r h, OSUnserializeBinary plainEnv emptyPool.heap true s.data = .ok (some r, h) ∧
      Isomorphic sharedKey.heap sharedKey.root h r := by
  have hs₀ : binaryWithCapacity plainSerialEnv 4 = some _ := rfl
  have hsmall (k : Nat) (hk : k ≤ 2) : k < 2 ^ 24 := by omega
  obtain ⟨s, hs⟩ := unserialize_serialize sharedKey emptyPool plainSerialEnv_grants plainEnv_grants
    hs₀ sharedKey_nests
    (sharedKey_views (by rintro v ⟨⟩; exact hsmall 1 (by decide))
      (by rintro v ⟨⟩; exact hsmall 1 (by decide)) (by rintro v ⟨⟩; exact hsmall 2 le_rfl))
    (sharedKey_views (by rintro v ⟨⟩; trivial) (by rintro v ⟨⟩; trivial) (by rintro v ⟨⟩; trivial))
    (by decide +kernel) (by decide +kernel) (n := 60) le_rfl
  exact ⟨_, s, hs₀, hs⟩

/-- Data that its owner has excluded from serialization. -/
def hiddenData : Graph where
  heap := [⟨.data [1] false, 1⟩]
  root := .cell 0
  wellFormed := by
    rintro r (rfl | ⟨c, hc, hr⟩)
    · exact ⟨_, rfl, trivial⟩
    · rw [mem_singleton.mp hc] at hr
      cases hr
  symbols := by
    rintro a b name (rfl | ⟨c, hc, hr⟩) - hva -
    · cases hva
    · rw [mem_singleton.mp hc] at hr
      cases hr

/-- The data comes back without its bytes. -/
theorem hiddenData_lost : Nests hiddenData.heap 60 hiddenData.root ∧
    (∀ r v, Occurs hiddenData.heap hiddenData.root r → view hiddenData.heap r = some v → v.Small) ∧
    ∃ s₀ s, binaryWithCapacity plainSerialEnv 4 = some s₀ ∧
      binarySerialize plainSerialEnv hiddenData.heap 60 s₀ hiddenData.root = (true, s) ∧
      OSUnserializeBinary plainEnv emptyPool.heap true s.data =
        .ok (some (.cell 0), [⟨.data [] true, 1⟩]) ∧
      ¬ Isomorphic hiddenData.heap hiddenData.root [⟨.data [] true, 1⟩] (.cell 0) := by
  refine ⟨⟨_, rfl, nofun⟩, ?_, _, _, rfl, rfl, by decide +kernel, ?_⟩
  · rintro r v (rfl | ⟨c, hc, hr⟩) hv
    · cases hv
      exact (by decide : 1 < 2 ^ 24)
    · rw [mem_singleton.mp hc] at hr
      cases hr
  · rintro ⟨R, hroot, -, -, hR⟩
    obtain ⟨-, v, v', hv, hv', halike⟩ := hR _ _ hroot
    cases hv
    cases hv'
    cases halike

end XnuXzs.OSObject
