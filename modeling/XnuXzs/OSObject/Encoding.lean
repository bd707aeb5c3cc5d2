import XnuXzs.OSObject.Serialize

/-!
# The bytes of a graph

What the serializer writes when it gets its memory: for each object not tagged yet a record and
those of its members, and for the others a record of the tag.
-/

namespace XnuXzs.OSObject

open Lib List

def View.members : View → List Ref
  | .boolean _ => []
  | .object o => o.members

/-- The first word without its mark, and the bytes after it. -/
def View.record : View → Nat × List UInt8
  | .boolean value => (0x0b000000 ||| value.toNat, [])
  | .object (.dictionary entries) => (0x01000000 ||| entries.length, [])
  | .object (.array members) => (0x02000000 ||| members.length, [])
  | .object (.set members) => (0x03000000 ||| members.length, [])
  | .object leaf => (leafRecord leaf).getD (0, [])

def recordBytes (record : Nat × List UInt8) (last : Bool) : List UInt8 :=
  padded (keyBytes record.1 last ++ record.2)

/-- A list of objects, of which the last one has the mark. -/
def encodeAll (f : List Ref → Ref → Bool → List UInt8 × List Ref) :
    List Ref → List Ref → List UInt8 × List Ref
  | tags, [] => ([], tags)
  | tags, m :: rest =>
    let first := f tags m rest.isEmpty
    let others := encodeAll f first.2 rest
    (first.1 ++ others.1, others.2)

/-- The bytes of an object and the tags after it. -/
def encode (h : Heap) : Nat → List Ref → Ref → Bool → List UInt8 × List Ref
  | 0, tags, _, _ => ([], tags)
  | n + 1, tags, o, last =>
    match tags.idxOf? o with
    | some tagIdx => (recordBytes (0x0c000000 ||| tagIdx, []) last, tags)
    | none =>
      match view h o with
      | none => ([], tags)
      | some v =>
        let members := encodeAll (encode h n) (tags ++ [o]) v.members
        (recordBytes v.record last ++ members.1, members.2)

/-- Fewer than `n` collections stand in each other. -/
def Nests (h : Heap) : Nat → Ref → Prop
  | 0, _ => False
  | n + 1, o => ∃ v, view h o = some v ∧ ∀ m ∈ v.members, Nests h n m

variable {m n : Nat} {o : Ref}

theorem Nests.mono {h : Heap} (ho : Nests h m o) (hle : m ≤ n) :
    Nests h n o := by
  induction m generalizing n o with
  | zero => cases ho
  | succ m ih =>
    obtain ⟨v, hv, hmembers⟩ := ho
    obtain ⟨n, rfl⟩ : ∃ k, n = k + 1 := ⟨n - 1, by omega⟩
    exact ⟨v, hv, fun r hr => ih (hmembers r hr) (by omega)⟩

theorem encodeAll_congr {f g : List Ref → Ref → Bool → List UInt8 × List Ref} {members : List Ref}
    (hsame : ∀ m ∈ members, ∀ tags last, f tags m last = g tags m last) (tags : List Ref) :
    encodeAll f tags members = encodeAll g tags members := by
  induction members generalizing tags with
  | nil => rfl
  | cons m rest ih =>
    rw [encodeAll, encodeAll, hsame m (mem_cons_self ..)]
    rw [ih fun r hr => hsame r (mem_cons_of_mem _ hr)]

/-- The bound on the depth does not matter once it is large enough. -/
theorem encode_mono {h : Heap} (ho : Nests h m o) (hle : m ≤ n) (tags : List Ref) (last : Bool) :
    encode h n tags o last = encode h m tags o last := by
  induction m generalizing n o tags last with
  | zero => cases ho
  | succ m ih =>
    obtain ⟨v, hv, hmembers⟩ := ho
    obtain ⟨n, rfl⟩ : ∃ k, n = k + 1 := ⟨n - 1, by omega⟩
    rw [encode, encode, hv]
    dsimp only
    rw [encodeAll_congr fun r hr tags last =>
      ih (hmembers r hr) (Nat.le_of_succ_le_succ hle) tags last]

section Writes

variable {env : SerialEnv} {h : Heap} {s s' : Serializer}

structure SerialEnv.Grants (env : SerialEnv) : Prop where
  granted : ∀ n, env.granted n = true
  tagged : ∀ n, env.tagged n = true
  page : 0 < env.pageSize

theorem le_roundPage {pageSize n r : Nat} (hpage : 0 < pageSize)
    (hr : roundPage pageSize n = some r) :
    n ≤ r := by
  unfold roundPage at hr
  split at hr
  · cases hr
  cases hr
  have hmod := Nat.div_add_mod (n + (pageSize - 1)) pageSize
  have hlt := Nat.mod_lt (n + (pageSize - 1)) hpage
  rw [mul_comm] at hmod
  omega

theorem le_ensureCapacity (henv : env.Grants) {capacity n : Nat} (hn : n + env.pageSize ≤ 2 ^ 32) :
    n ≤ ensureCapacity env capacity n := by
  unfold ensureCapacity
  split
  · assumption
  have hpage := henv.page
  rcases hr : roundPage env.pageSize n with _ | r
  · unfold roundPage at hr
    rw [if_neg (by omega)] at hr
    cases hr
  · simp only [henv.granted, if_true]
    exact le_roundPage hpage hr

theorem reserve_ok (henv : env.Grants) {s : Serializer} {size : Nat}
    (hinc : 0 < s.capacityIncrement) (hpos : 0 < s.data.length)
    (hfits : s.data.length + size + s.capacityIncrement + env.pageSize ≤ 2 ^ 32) :
    ∃ c, reserve env s size = some { s with capacity := c } := by
  unfold reserve
  have hless : ¬ 2 ^ 32 ≤ s.data.length + size := by omega
  simp only [hless, if_false]
  split
  · exact ⟨s.capacity, rfl⟩
  have hdiv := Nat.div_add_mod (s.data.length + size - 1) s.capacityIncrement
  have hmod := Nat.mod_lt (s.data.length + size - 1) hinc
  rw [mul_comm] at hdiv
  have hround : ((s.data.length + size - 1) / s.capacityIncrement + 1) * s.capacityIncrement =
      (s.data.length + size - 1) / s.capacityIncrement * s.capacityIncrement +
        s.capacityIncrement := by ring
  rw [hround, Nat.mod_eq_of_lt (by omega)]
  have hgrown := @le_ensureCapacity env henv s.capacity
    ((s.data.length + size - 1) / s.capacityIncrement * s.capacityIncrement + s.capacityIncrement)
    (by omega)
  rw [if_neg (by omega), if_neg (by omega)]
  exact ⟨_, rfl⟩

/-- The serializer can take so many more bytes. -/
structure Room (env : SerialEnv) (s : Serializer) (size : Nat) : Prop where
  increment : 0 < s.capacityIncrement
  started : 0 < s.data.length
  fits : s.data.length + size + s.capacityIncrement + env.pageSize ≤ 2 ^ 32

/-- The bytes are appended, and the mark of the end is used up. -/
structure Wrote (s s' : Serializer) (out : List UInt8 × List Ref) : Prop where
  data : s'.data = s.data ++ out.1
  tags : s'.tags = out.2
  endCollection : s'.endCollection = false
  increment : s'.capacityIncrement = s.capacityIncrement

theorem Room.mono {a b : Nat} (hr : Room env s b) (hle : a ≤ b) : Room env s a := by
  have := hr.fits
  exact ⟨hr.increment, hr.started, by omega⟩

theorem Room.after {out : List UInt8 × List Ref} {size : Nat}
    (hr : Room env s (out.1.length + size)) (hw : Wrote s s' out) : Room env s' size := by
  have hfits := hr.fits
  have hstarted := hr.started
  refine ⟨hw.increment ▸ hr.increment, ?_, ?_⟩
  · rw [hw.data, length_append]
    omega
  · rw [hw.data, length_append, hw.increment]
    omega

theorem addBinary_writes (henv : env.Grants) {s : Serializer} {key : Nat} {last : Bool}
    (hend : s.endCollection = false) (hr : Room env s (recordBytes (key, []) last).length) :
    ∃ s', addBinary env s (keyBytes key last) = (true, s') ∧
      Wrote s s' (recordBytes (key, []) last, s.tags) := by
  simp only [recordBytes, append_nil] at hr ⊢
  obtain ⟨c, hc⟩ := reserve_ok henv hr.increment hr.started hr.fits
  simp only [addBinary, hc]
  exact ⟨_, rfl, rfl, rfl, hend, rfl⟩

theorem addBinaryObject_writes (henv : env.Grants) {s : Serializer} {o : Ref}
    {record : Nat × List UInt8} (hr : Room env s (recordBytes record s.endCollection).length) :
    ∃ s', addBinaryObject env s o record.1 record.2 = (true, s') ∧
      Wrote s s' (recordBytes record s.endCollection, s.tags ++ [o]) := by
  obtain ⟨c, hc⟩ := @reserve_ok env henv { s with tags := s.tags ++ [o] } _ hr.increment hr.started
    hr.fits
  simp only [recordBytes] at hc
  simp only [addBinaryObject, henv.tagged, if_true, hc]
  exact ⟨_, rfl, rfl, rfl, rfl, rfl⟩

def WritesAs (env : SerialEnv) (f : Serializer → Ref → Bool × Serializer)
    (F : List Ref → Ref → Bool → List UInt8 × List Ref) (members : List Ref) : Prop :=
  ∀ m ∈ members, ∀ s, Room env s (F s.tags m s.endCollection).1.length →
    ∃ s', f s m = (true, s') ∧ Wrote s s' (F s.tags m s.endCollection)

variable {f : Serializer → Ref → Bool × Serializer}
  {F : List Ref → Ref → Bool → List UInt8 × List Ref}

theorem Wrote.trans {s'' : Serializer} {a b : List UInt8 × List Ref} (ha : Wrote s s' a)
    (hb : Wrote s' s'' b) : Wrote s s'' (a.1 ++ b.1, b.2) :=
  ⟨by rw [hb.data, ha.data, append_assoc], hb.tags, hb.endCollection,
    hb.increment.trans ha.increment⟩

theorem serializeMember_writes {m : Ref} (hf : WritesAs env f F [m]) {last : Bool}
    (hr : Room env s (F s.tags m last).1.length) :
    ∃ s', serializeMember f s last m = (true, s') ∧ Wrote s s' (F s.tags m last) := by
  obtain ⟨s', hs', hw⟩ := hf m (mem_singleton_self m) { s with endCollection := last }
    ⟨hr.increment, hr.started, hr.fits⟩
  simp only [serializeMember, hs', if_true]
  exact ⟨s', rfl, hw.data, hw.tags, hw.endCollection, hw.increment⟩

theorem serializeMembers_writes {members : List Ref} (hf : WritesAs env f F members)
    (hend : s.endCollection = false) (hr : Room env s (encodeAll F s.tags members).1.length) :
    ∃ s', serializeMembers f s members = (true, s') ∧ Wrote s s' (encodeAll F s.tags members) := by
  induction members generalizing s with
  | nil => exact ⟨s, rfl, (append_nil _).symm, rfl, hend, rfl⟩
  | cons m rest ih =>
    simp only [encodeAll, length_append] at hr ⊢
    have hone : WritesAs env f F [m] := fun r hr' => by
      rw [mem_singleton.mp hr']
      exact hf m (mem_cons_self ..)
    obtain ⟨s', hs', hw⟩ := serializeMember_writes hone (hr.mono (Nat.le_add_right ..))
    have hrest := hr.after hw
    rw [← hw.tags] at hrest ⊢
    obtain ⟨s'', hs'', hw'⟩ := ih (fun r hr' => hf r (mem_cons_of_mem _ hr')) hw.endCollection hrest
    simp only [serializeMembers, hs', hs'', if_true]
    exact ⟨s'', rfl, hw.trans hw'⟩

/-- A key is never the last one, so the mark goes to the last value. -/
theorem serializeEntries_writes {entries : List (Ref × Ref)}
    (hf : WritesAs env f F (entries.flatMap fun e => [e.1, e.2])) (hend : s.endCollection = false)
    (hr : Room env s (encodeAll F s.tags (entries.flatMap fun e => [e.1, e.2])).1.length) :
    ∃ s', serializeEntries f s entries = (true, s') ∧
      Wrote s s' (encodeAll F s.tags (entries.flatMap fun e => [e.1, e.2])) := by
  induction entries generalizing s with
  | nil => exact ⟨s, rfl, (append_nil _).symm, rfl, hend, rfl⟩
  | cons e rest ih =>
    have hlast : (rest.flatMap fun e => [e.1, e.2]).isEmpty = rest.isEmpty := by
      cases rest <;> rfl
    simp only [flatMap_cons, cons_append, nil_append, encodeAll, isEmpty_cons,
      hlast, length_append] at hf hr ⊢
    obtain ⟨s', hs', hw⟩ := hf e.1 (mem_cons_self ..) s
      (by rw [hend]; exact hr.mono (Nat.le_add_right ..))
    rw [hend] at hw
    have hr' := hr.after hw
    rw [← hw.tags] at hr' ⊢
    have hone : WritesAs env f F [e.2] := fun r hmem => by
      rw [mem_singleton.mp hmem]
      exact hf e.2 (mem_cons_of_mem _ (mem_cons_self ..))
    obtain ⟨s'', hs'', hw'⟩ := serializeMember_writes hone (hr'.mono (Nat.le_add_right ..))
    have hr'' := hr'.after hw'
    rw [← hw'.tags] at hr'' ⊢
    obtain ⟨t, ht, hwt⟩ := ih (fun r hmem => hf r (mem_cons_of_mem _ (mem_cons_of_mem _ hmem)))
      hw'.endCollection hr''
    simp only [serializeEntries, hs', hs'', ht, if_true]
    exact ⟨t, rfl, hw.trans (hw'.trans hwt)⟩

theorem binarySerialize_writes (henv : env.Grants) (ho : Nests h n o)
    (hr : Room env s (encode h n s.tags o s.endCollection).1.length) :
    ∃ s', binarySerialize env h n s o = (true, s') ∧
      Wrote s s' (encode h n s.tags o s.endCollection) := by
  induction n generalizing o s with
  | zero => cases ho
  | succ n ih =>
    obtain ⟨v, hv, hmembers⟩ := ho
    have hwrites : WritesAs env (binarySerialize env h n) (encode h n) v.members :=
      fun m hm s hr => ih (hmembers m hm) hr
    simp only [encode, hv] at hr ⊢
    simp only [binarySerialize, hv]
    rcases htag : s.tags.idxOf? o with _ | tagIdx
    · simp only [htag, length_append] at hr ⊢
      have hhead := hr.mono (Nat.le_add_right ..)
      obtain ⟨s', hs', hw⟩ := @addBinaryObject_writes env henv s o _ hhead
      have hrest := hr.after hw
      have htags : s'.tags = s.tags ++ [o] := hw.tags
      rw [← htags] at hrest ⊢
      -- a leaf has no members, so its record is all
      have hleaf (hnone : v.members = []) : Wrote s s'
          (recordBytes v.record s.endCollection ++ (encodeAll (encode h n) s'.tags v.members).1,
            (encodeAll (encode h n) s'.tags v.members).2) := by
        rw [hnone, htags]
        simpa [encodeAll] using hw
      rcases v with value | obj
      · simp only [View.record] at hs'
        exact ⟨s', hs', hleaf rfl⟩
      cases obj with
      | dictionary entries =>
        obtain ⟨s'', hs'', hw'⟩ := serializeEntries_writes hwrites hw.endCollection hrest
        simp only [View.record] at hs'
        simp only [hs', if_true]
        exact ⟨s'', hs'', hw.trans hw'⟩
      | array | set =>
        obtain ⟨s'', hs'', hw'⟩ := serializeMembers_writes hwrites hw.endCollection hrest
        simp only [View.record] at hs'
        simp only [hs', if_true]
        exact ⟨s'', hs'', hw.trans hw'⟩
      | data bytes serializable => cases serializable <;> exact ⟨s', hs', hleaf rfl⟩
      | _ => exact ⟨s', hs', hleaf rfl⟩
    · simp only [htag] at hr ⊢
      obtain ⟨s', hs', hw⟩ := @addBinary_writes env henv { s with endCollection := false }
        (0x0c000000 ||| tagIdx) s.endCollection rfl ⟨hr.increment, hr.started, hr.fits⟩
      exact ⟨s', hs', hw.data, hw.tags, hw.endCollection, hw.increment⟩

end Writes

end XnuXzs.OSObject
