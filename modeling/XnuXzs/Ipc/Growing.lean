import XnuXzs.Ipc.EntryOps
import XnuXzs.Ipc.EntryCopy

/-!
# The installed table

The invariant is about the space as it will be when the holder of the lock is done: each entry
has a good copy, or is marked, or is still to be copied.
-/

namespace XnuXzs.Ipc

open Lib List Function

variable {α : Type*} {count ncount : Nat} {which : Nat → Bool}

/-- The space after all that is about to be stored. -/
def Growth.settled (s : Growth α) : Space α := runStores s.space s.pending

/-- The entries that a pass has still to do. -/
def Pc.covers : Pc α → Nat → Prop
  | .scan i hi, j | .loadBits i hi _, j | .loadNext i hi _ _, j => i ≤ j ∧ j ≤ hi
  | .walked _, _ | .installed, _ => False

variable (count) in
/-- There is an entry that may differ from its copy. -/
def Growth.Noted (s : Growth α) : Prop := ∃ i, InTable count i ∧ Dirty s.settled s.taken i

variable (count) in
/-- What the copying thread has loaded is right, or will be loaded again. -/
def PcInv (s : Growth α) : Pc α → Prop
  | .scan i hi => 0 < i ∧ hi < count
  | .loadBits i hi object => 0 < i ∧ i ≤ hi ∧ hi < count ∧
      (Dirty s.settled s.taken i ∨ object = (s.settled.entry i).object)
  | .loadNext i hi object bits => 0 < i ∧ i ≤ hi ∧ hi < count ∧
      (Dirty s.settled s.taken i ∨
        object = (s.settled.entry i).object ∧ bits = (s.settled.entry i).bits)
  | .walked freeIndex => freeIndex = freeEnd count s.copy count 0 ∧
      (s.Noted count ∨ (s.copy.entry 0).next = (s.settled.entry 0).next)
  | .installed => False

variable (count ncount which) in
structure GrowInv (s : Growth α) : Prop where
  pos : 0 < count
  lt : count < ncount
  max : ncount ≤ countMax
  space : ∃ free, SpaceInv count s.settled s.taken free
  marks : Marks count s.space
  pendingMarks : ∀ i, .modified i ∈ s.pending → InTable count i
  targets : ∀ st ∈ s.pending, ∀ i, st.target = some i → i = 0 ∨ Dirty s.settled s.taken i
  noted : s.pending ≠ [] → s.Noted count
  hash : CopyHash count ncount s.copy
  head : (s.copy.entry 0).object = none
  fresh : ∀ i, count ≤ i → s.copy.entry i = (freshCopy count ncount which).entry i
  copied : ∀ i, InTable count i →
    Dirty s.settled s.taken i ∨ s.pc.covers i ∨ s.copy.entry i = s.settled.entry i
  pc : PcInv count s s.pc

variable {s : Growth α} {i hi : Nat}

/-- A load of an entry is right, or the entry is marked. -/
theorem GrowInv.load (h : GrowInv count ncount which s) (hi : 0 < i) :
    Dirty s.settled s.taken i ∨ s.space.entry i = s.settled.entry i := by
  by_cases htarget : ∃ st ∈ s.pending, st.target = some i
  · obtain ⟨st, hst, heq⟩ := htarget
    exact .inl ((h.targets st hst i heq).resolve_left hi.ne')
  · refine .inr (runStores_entry fun st hst heq => htarget ⟨st, hst, heq⟩).symm

theorem GrowInv.loadHead (h : GrowInv count ncount which s) :
    s.Noted count ∨ s.space.entry 0 = s.settled.entry 0 := by
  by_cases hpending : s.pending = []
  · refine .inr ?_
    rw [Growth.settled, hpending]
    rfl
  · exact .inl (h.noted hpending)

theorem Growth.Idle.settled (h : s.Idle) : s.settled = s.space := by
  rw [Growth.settled, h.1]
  rfl

theorem GrowInv.start (h : GrowInv count ncount which s) (hpending : s.pending = [])
    {stores : List (Store α)} {taken : Option Nat}
    (hspace : ∃ free, SpaceInv count (runStores s.space stores) taken free)
    (hmarked : Marked count s.space s.taken taken stores) :
    GrowInv count ncount which { s with pending := stores, taken := taken } := by
  have hsettled : s.settled = s.space := by
    rw [Growth.settled, hpending]
    rfl
  have hdirty : ∀ {i}, Dirty s.settled s.taken i → Dirty (runStores s.space stores) taken i := by
    rw [hsettled]
    rintro i (htaken | hmark)
    · exact hmarked.given i htaken
    · exact runStores_dirty hmark
  have hkept : ∀ {i}, 0 < i → Dirty (runStores s.space stores) taken i ∨
      (runStores s.space stores).entry i = s.settled.entry i := by
    intro i hi
    by_cases htarget : ∃ st ∈ stores, st.target = some i
    · obtain ⟨st, hst, heq⟩ := htarget
      exact .inl ((hmarked.targets st hst i heq).resolve_left hi.ne')
    · rw [hsettled]
      exact .inr (runStores_entry fun st hst heq => htarget ⟨st, hst, heq⟩)
  refine ⟨h.pos, h.lt, h.max, hspace, h.marks, hmarked.modified,
    hmarked.targets, hmarked.noted, h.hash,
    h.head, h.fresh, fun i hi => ?_, ?_⟩
  · rcases h.copied i hi with hold | hcovers | hsame
    · exact .inl (hdirty hold)
    · exact .inr (.inl hcovers)
    · rcases hkept hi.1 with hnew | heq
      · exact .inl hnew
      · exact .inr (.inr (hsame.trans heq.symm))
  · have hpc := h.pc
    cases hs : s.pc with
    | scan i hi | installed =>
      rw [hs] at hpc
      exact hpc
    | loadBits i hi object =>
      rw [hs] at hpc
      obtain ⟨hpos, hle, hlt, hload⟩ := hpc
      refine ⟨hpos, hle, hlt, ?_⟩
      rcases hload with hold | rfl
      · exact .inl (hdirty hold)
      · exact (hkept hpos).imp id fun heq => (congrArg Entry.object heq).symm
    | loadNext i hi object bits =>
      rw [hs] at hpc
      obtain ⟨hpos, hle, hlt, hload⟩ := hpc
      refine ⟨hpos, hle, hlt, ?_⟩
      rcases hload with hold | ⟨rfl, rfl⟩
      · exact .inl (hdirty hold)
      · exact (hkept hpos).imp id fun heq =>
          ⟨(congrArg Entry.object heq).symm, (congrArg Entry.bits heq).symm⟩
    | walked freeIndex =>
      rw [hs] at hpc
      refine ⟨hpc.1, ?_⟩
      rcases hpc.2 with ⟨i, hi, hold⟩ | hhead
      · exact .inl ⟨i, hi, hdirty hold⟩
      by_cases hstores : stores = []
      · refine .inr (hhead.trans ?_)
        rw [hsettled, Growth.settled, hstores]
        rfl
      · exact .inl (hmarked.noted hstores)

/-- A store does not change what the space will be. -/
theorem GrowInv.store (h : GrowInv count ncount which s) {st : Store α} {rest : List (Store α)}
    (hpending : s.pending = st :: rest) :
    GrowInv count ncount which { s with space := st.apply s.space, pending := rest } := by
  have hsettled : s.settled = runStores (st.apply s.space) rest := by
    rw [Growth.settled, hpending]
    rfl
  obtain ⟨hpos, hlt, hmax, hspace, hmarks, hmodified, htargets,
    hnoted, hhash, hhead, hfresh, hcopied, hpc⟩ := h
  rw [hpending] at hmodified htargets hnoted
  have hnoted := hnoted (cons_ne_nil st rest)
  unfold Growth.Noted at hnoted
  rw [hsettled] at hspace htargets hnoted hcopied
  refine ⟨hpos, hlt, hmax, hspace, hmarks.apply ?_, fun i hi => hmodified i (mem_cons_of_mem st hi),
    fun st' hst' => htargets st' (mem_cons_of_mem st hst'), fun _ => hnoted, hhash, hhead, hfresh,
    hcopied, ?_⟩
  · rintro i rfl
    exact hmodified i mem_cons_self
  cases hs : s.pc with
  | scan i hi | installed =>
    rw [hs] at hpc
    exact hpc
  | loadBits | loadNext =>
    rw [hs] at hpc
    unfold PcInv at hpc ⊢
    rwa [hsettled] at hpc
  | walked freeIndex =>
    rw [hs] at hpc
    exact ⟨hpc.1, .inl hnoted⟩

theorem GrowInv.locked (h : GrowInv count ncount which s) [DecidableEq α] {t : Growth α}
    (hstep : LockedStep count s t) : GrowInv count ncount which t := by
  obtain ⟨free, hspace⟩ := h.space
  have hmax := h.lt.le.trans h.max
  cases hstep with
  | claim obj roll stores i hidle hheld hclaim =>
    rw [hidle.settled, hidle.2] at hspace
    obtain ⟨stores', x, hspec, hinv, hmarked⟩ := claim_spec hspace hmax hheld obj roll
    cases hspec.symm.trans hclaim
    exact h.start hidle.1 ⟨_, hinv⟩ (hidle.2 ▸ hmarked)
  | allocName index gen roll stores taken hidle hindex halloc =>
    rw [hidle.settled, hidle.2] at hspace
    obtain ⟨stores', taken', free', hspec, hinv, hmarked⟩ := allocName_spec hspace hindex gen roll
    cases hspec.symm.trans halloc
    exact h.start hidle.1 ⟨_, hinv⟩ (hidle.2 ▸ hmarked)
  | edit i edits hi hdone =>
    rw [Growth.settled, hi.1] at hspace
    obtain ⟨hinv, hmarked⟩ := edit_spec hspace hi.2 hdone
    exact h.start hi.1 ⟨_, hinv⟩ hmarked
  | dealloc i obj gen stores hi hdealloc =>
    rw [Growth.settled, hi.1] at hspace
    obtain ⟨hinv, hmarked⟩ := dealloc_spec hspace hi.2
    unfold dealloc at hdealloc
    dsimp only at hdealloc
    split at hdealloc
    · cases hdealloc
    · cases hdealloc
      exact h.start hi.1 ⟨_, hinv⟩ hmarked
  | store st rest hpending => exact h.store hpending

variable (count ncount) in
/-- The installed table, compared with the one it replaces. The last entry of the old free list,
maybe the head, is linked to the new entries. -/
structure Installed (s : Growth α) (old new : List Nat) (last : Nat) : Prop where
  oldList : FreeList (fun i => (s.space.entry i).next) old
  lastOld : ∃ front, 0 :: old = front ++ [last]
  entries : ∀ i, InTable count i → s.copy.entry i =
    if i = last then { s.space.entry i with next := count } else s.space.entry i
  newList : FreeList (fun i => (s.copy.entry i).next) (old ++ new)
  newFirst : new.head? = some count
  newEntries : ∀ i, i ∈ new ↔ count ≤ i ∧ i < ncount
  exact : ∀ i, i ∈ old ++ new ↔
    InTable ncount i ∧ typeOf (s.copy.entry i).bits = 0 ∧ (s.copy.entry i).object = none
  tableFree : s.space.tableFree = (old ++ new).length
  distinct : Distinct ncount s.copy.slot
  hashed : ∀ i, Keys ncount s.copy.slot i ↔ InTable ncount i ∧
    typeOf (s.copy.entry i).bits = typeSend

section Grow

variable {freeIndex : Nat}

theorem GrowInv.scan (h : GrowInv count ncount which s) (hpc : s.pc = .scan i hi) (hle : i ≤ hi) :
    GrowInv count ncount which { s with pc := .loadBits i hi (s.space.entry i).object } := by
  have hpcInv := h.pc
  rw [hpc] at hpcInv
  refine { h with copied := fun j hj => ?_, pc := ⟨hpcInv.1, hle, hpcInv.2, ?_⟩ }
  · have hcopied := h.copied j hj
    rwa [hpc] at hcopied
  · exact (h.load hpcInv.1).imp id fun heq => congrArg Entry.object heq

theorem GrowInv.loadBits (h : GrowInv count ncount which s) {object : Option α}
    (hpc : s.pc = .loadBits i hi object) :
    GrowInv count ncount which { s with pc := .loadNext i hi object (s.space.entry i).bits } := by
  have hpcInv := h.pc
  rw [hpc] at hpcInv
  obtain ⟨hpos, hle, hlt, hload⟩ := hpcInv
  refine { h with copied := fun j hj => ?_, pc := ⟨hpos, hle, hlt, ?_⟩ }
  · have hcopied := h.copied j hj
    rwa [hpc] at hcopied
  · rcases hload with hdirty | hobject
    · exact .inl hdirty
    · exact (h.load hpos).imp id fun heq => ⟨hobject, congrArg Entry.bits heq⟩

theorem GrowInv.loadNext [DecidableEq α] {hash : Option α → Nat} (h : GrowInv count ncount which s)
    {i hi : Nat} {object : Option α} {bits : UInt32} (hpc : s.pc = .loadNext i hi object bits) :
    ∃ copy, copyEntry ncount hash s.copy i object bits (s.space.entry i).next = some copy ∧
      GrowInv count ncount which { s with copy := copy, pc := .scan (i + 1) hi } := by
  have hpcInv := h.pc
  rw [hpc] at hpcInv
  obtain ⟨hpos, hle, hlt, hload⟩ := hpcInv
  obtain ⟨slot, hcopy, hhash⟩ := @copyEntry_spec _ count ncount _ hash s.copy i h.hash h.lt
    ⟨hpos, lt_of_le_of_lt hle hlt⟩ object bits (s.space.entry i).next
  refine ⟨_, hcopy, h.pos, h.lt, h.max, h.space, h.marks, h.pendingMarks,
    h.targets, h.noted, hhash, ?_,
    fun j hj => ?_, fun j hj => ?_, Nat.succ_pos i, hlt⟩
  · exact (congrArg Entry.object (update_of_ne hpos.ne ..)).trans h.head
  · exact (update_of_ne (by omega) ..).trans (h.fresh j hj)
  by_cases hji : j = i
  · subst hji
    dsimp only
    rw [update_self]
    rcases hload with hdirty | ⟨rfl, rfl⟩
    · exact .inl hdirty
    · refine (h.load hpos).imp id fun heq => .inr ?_
      rw [heq]
      rfl
  · dsimp only
    rw [update_of_ne hji]
    have hcopied := h.copied j hj
    rw [hpc] at hcopied
    refine hcopied.imp id (Or.imp (fun hcovers => ⟨?_, hcovers.2⟩) id)
    have := hcovers.1
    omega

theorem GrowInv.rebase [DecidableEq α] (h : GrowInv count ncount which s)
    (hpc : s.pc = .scan i hi) (hlt : ¬ i ≤ hi) {copy : Copy α}
    (hcopy : copy = { s.copy with
      entry := update s.copy.entry 0 { s.copy.entry 0 with next := (s.space.entry 0).next } }) :
    GrowInv count ncount which
      { s with copy := copy, pc := .walked (freeEnd count copy count 0) } := by
  have hother : ∀ j, 0 < j → copy.entry j = s.copy.entry j := by
    intro j hj
    rw [hcopy]
    exact update_of_ne hj.ne' _ s.copy.entry
  have hzero : copy.entry 0 = { s.copy.entry 0 with next := (s.space.entry 0).next } := by
    rw [hcopy]
    exact update_self 0 _ s.copy.entry
  have hslot : copy.slot = s.copy.slot := by rw [hcopy]
  refine { h with
    hash := ⟨?_, fun j => ?_⟩, head := ?_, fresh := fun j hj => ?_,
    copied := fun j hj => ?_, pc := ⟨rfl, ?_⟩ }
  · dsimp only
    rw [hslot]
    exact h.hash.distinct
  · dsimp only
    rw [hslot, h.hash.keys]
    refine and_congr_right fun hj => ?_
    rw [hother j hj.1]
  · dsimp only
    rw [hzero]
    exact h.head
  · exact (hother j (h.pos.trans_le hj)).trans (h.fresh j hj)
  · dsimp only
    rw [hother j hj.1]
    have hcopied := h.copied j hj
    rw [hpc] at hcopied
    refine hcopied.imp id (Or.imp (fun hcovers => absurd (hcovers.1.trans hcovers.2) hlt) id)
  · dsimp only
    rw [hzero]
    rcases h.loadHead with hnoted | heq
    · exact .inl hnoted
    · exact .inr (show (s.space.entry 0).next = (s.settled.entry 0).next by rw [heq])

theorem GrowInv.rescan (h : GrowInv count ncount which s) (hidle : s.Idle)
    (hpc : s.pc = .walked freeIndex) (hmarked : s.space.lowMod < count) :
    (0 < s.space.highMod ∧ 0 < s.space.lowMod ∧ s.space.highMod < count) ∧
      GrowInv count ncount which { s with
        space := { s.space with lowMod := count, highMod := 0 }
        pc := .scan (Nat.max 1 s.space.lowMod) s.space.highMod } := by
  obtain ⟨hlow, -, hhigh, hrange⟩ := h.marks
  have hsettled := hidle.settled
  obtain ⟨hpending, htaken⟩ := hidle
  obtain ⟨free, hspace⟩ := h.space
  rw [hsettled] at hspace
  have hsettled' : ({ s with
      space := { s.space with lowMod := count, highMod := 0 }
      pc := .scan (Nat.max 1 s.space.lowMod) s.space.highMod } : Growth α).settled =
      { s.space with lowMod := count, highMod := 0 } := by
    rw [Growth.settled, hpending]
    rfl
  refine ⟨by omega, h.pos, h.lt, h.max, ⟨free, ?_⟩,
    ⟨h.pos, le_rfl, h.pos, fun hlt => absurd hlt (lt_irrefl _)⟩,
    h.pendingMarks, fun st hst => ?_, absurd hpending, h.hash, h.head, h.fresh, fun i hi => ?_, ?_⟩
  · rw [hsettled']
    exact ⟨hspace.list, hspace.range, hspace.objects, hspace.taken_range, hspace.exact, hspace.send,
      hspace.tableFree⟩
  · rw [hpending] at hst
    cases hst
  · rw [hsettled']
    rcases h.copied i hi with hdirty | hcovers | hsame
    · rw [hsettled, htaken] at hdirty
      refine .inr (.inl ⟨?_, (hdirty.resolve_left nofun).2⟩)
      exact max_le hi.1 (hdirty.resolve_left nofun).1
    · rw [hpc] at hcovers
      exact hcovers.elim
    · exact .inr (.inr (hsettled ▸ hsame))
  · exact ⟨lt_of_lt_of_le one_pos (le_max_left ..), hhigh⟩

theorem GrowInv.clean (h : GrowInv count ncount which s) (hidle : s.Idle)
    (hpc : s.pc = .walked freeIndex) (hclean : ¬ s.space.lowMod < count) :
    freeIndex = freeEnd count s.copy count 0 ∧ (s.copy.entry 0).next = (s.space.entry 0).next ∧
      ∀ i, InTable count i → s.copy.entry i = s.space.entry i := by
  have hsettled := hidle.settled
  have hnotDirty : ∀ i, InTable count i → ¬ Dirty s.settled s.taken i := by
    rintro i hi (htaken | hmark)
    · rw [hidle.2] at htaken
      cases htaken
    · rw [hsettled] at hmark
      exact hclean (lt_of_le_of_lt hmark.1 hi.2)
  have hpcInv := h.pc
  rw [hpc] at hpcInv
  obtain ⟨hwalk, hhead⟩ := hpcInv
  rw [← hsettled]
  refine ⟨hwalk, hhead.resolve_left fun ⟨i, hi, hdirty⟩ => hnotDirty i hi hdirty, fun i hi => ?_⟩
  have hi' := (h.copied i hi).resolve_left (hnotDirty i hi)
  rw [hpc] at hi'
  exact hi'.resolve_left id

theorem length_of_mem_iff {l : List Nat} {a b : Nat} (hnodup : l.Nodup)
    (hmem : ∀ i, i ∈ l ↔ a ≤ i ∧ i < b) : l.length = b - a := by
  have hperm : l.Perm (List.range' a (b - a)) := by
    refine (perm_ext_iff_of_nodup hnodup nodup_range').mpr fun i => ?_
    rw [hmem, mem_range'_1]
    omega
  rw [hperm.length_eq, length_range']

variable {old : List Nat}

theorem GrowInv.new_entry (h : GrowInv count ncount which s) (hge : count ≤ i) (hlt : i < ncount) :
    (s.copy.entry i).bits = genMask ∧ (s.copy.entry i).object = none := by
  obtain ⟨-, -, -, -, hbits, hnone, -⟩ := @freshCopy_spec α count ncount which h.pos h.lt
  rw [h.fresh i hge]
  exact ⟨hbits i hge hlt, hnone i⟩

theorem GrowInv.free_iff (h : GrowInv count ncount which s)
    (hspace : SpaceInv count s.space none old)
    (hcopied : ∀ i, InTable count i → s.copy.entry i = s.space.entry i) (i : Nat) :
    i ∈ old ∨ count ≤ i ∧ i < ncount ↔
    InTable ncount i ∧ typeOf (s.copy.entry i).bits = 0 ∧ (s.copy.entry i).object = none := by
  rcases lt_or_ge i count with hlt | hge
  · rw [or_iff_left (by omega)]
    constructor
    · intro hold
      have hi : InTable count i := ⟨pos_of_ne_zero (hspace.list.ne_zero hold), hlt⟩
      rw [hcopied i hi]
      exact ⟨⟨hi.1, hlt.trans h.lt⟩, (hspace.exact i hi nofun).mp hold,
        hspace.objects i (mem_cons_of_mem 0 hold)⟩
    · rintro ⟨hi, htype, -⟩
      have hi : InTable count i := ⟨hi.1, hlt⟩
      rw [hcopied i hi] at htype
      exact (hspace.exact i hi nofun).mpr htype
  · have hnot : i ∉ old := fun hold => not_lt.mpr hge (hspace.range i hold)
    rw [or_iff_right hnot]
    constructor
    · rintro ⟨-, hlt⟩
      obtain ⟨hbits, hnone⟩ := h.new_entry hge hlt
      exact ⟨⟨h.pos.trans_le hge, hlt⟩, by rw [hbits]; decide, hnone⟩
    · rintro ⟨hi, -⟩
      exact ⟨hge, hi.2⟩

theorem GrowInv.hashed_iff (h : GrowInv count ncount which s)
    (hspace : SpaceInv count s.space none old)
    (hcopied : ∀ i, InTable count i → s.copy.entry i = s.space.entry i) (i : Nat) :
    Keys ncount s.copy.slot i ↔ InTable ncount i ∧ typeOf (s.copy.entry i).bits = typeSend := by
  rw [h.hash.keys i]
  constructor
  · rintro ⟨hi, -, hsend⟩
    exact ⟨⟨hi.1, hi.2.trans h.lt⟩, hsend⟩
  rintro ⟨hi, hsend⟩
  rcases lt_or_ge i count with hlt | hge
  · have hi : InTable count i := ⟨hi.1, hlt⟩
    rw [hcopied i hi] at hsend ⊢
    exact ⟨hi, Option.isSome_iff_ne_none.mpr (hspace.send i hi nofun hsend), hsend⟩
  · rw [(h.new_entry hge hi.2).1] at hsend
    exact absurd hsend (by decide)

theorem GrowInv.install (h : GrowInv count ncount which s) (hidle : s.Idle)
    (hpc : s.pc = .walked freeIndex) (hclean : ¬ s.space.lowMod < count) :
    ((s.copy.entry freeIndex).next = 0 ∧ (s.copy.entry freeIndex).object = none) ∧
      freeIndex < count ∧
      ∃ old new, Installed count ncount { s with
        space := { s.space with tableFree := s.space.tableFree + (ncount - count) }
        copy := { s.copy with
          entry := update s.copy.entry freeIndex { s.copy.entry freeIndex with next := count } }
        pc := .installed } old new freeIndex := by
  obtain ⟨hwalk, hhead, hcopied⟩ := h.clean hidle hpc hclean
  obtain ⟨old, hspace⟩ := h.space
  rw [hidle.settled, hidle.2] at hspace
  have hin : ∀ i ∈ old, InTable count i := fun i hi =>
    ⟨pos_of_ne_zero (hspace.list.ne_zero hi), hspace.range i hi⟩
  have hnexts : ∀ i ∈ 0 :: old, (s.copy.entry i).next = (s.space.entry i).next := by
    intro i hi
    rcases mem_cons.mp hi with rfl | hi
    · exact hhead
    · rw [hcopied i (hin i hi)]
  have hobjects : ∀ i ∈ 0 :: old, (s.copy.entry i).object = none := by
    intro i hi
    rcases mem_cons.mp hi with rfl | hmem
    · exact h.head
    · rw [hcopied i (hin i hmem)]
      exact hspace.objects i hi
  have hlist : FreeList (fun i => (s.copy.entry i).next) old := hspace.list.congr hnexts
  rw [freeEnd_last hlist.visits hin hobjects
    ((hspace.list.length_le hspace.range).trans (Nat.sub_le count 1))] at hwalk
  have hlast : 0 :: old = (0 :: old).dropLast ++ [freeIndex] := by
    rw [hwalk]
    exact (dropLast_append_getLast _).symm
  have hmemLast : freeIndex ∈ 0 :: old := by
    rw [hlast]
    exact mem_append_right _ mem_cons_self
  have hltLast : freeIndex < count := by
    rcases mem_cons.mp hmemLast with rfl | hmem
    · exact h.pos
    · exact hspace.range _ hmem
  have hend : (s.copy.entry freeIndex).next = 0 := by
    have hvisits := hlist.visits
    rw [hlast] at hvisits
    exact (visits_snoc.mp hvisits).2
  obtain ⟨rest, hnodup, hmem, hvisits, -⟩ := @freshCopy_spec α count ncount which h.pos h.lt
  have hnewNext : Visits (fun i => (s.copy.entry i).next) count (count :: rest) 0 :=
    hvisits.congr fun i hi => by rw [h.fresh i ((hmem i).mp hi).1]
  have happended := hlist.append hlast hnewNext hnodup fun i hi hold => by
    have hge := ((hmem i).mp hi).1
    rcases mem_cons.mp hold with rfl | hold
    · exact absurd h.pos (not_lt.mpr hge)
    · exact absurd (hspace.range i hold) (not_lt.mpr hge)
  -- the link at the end of the list is all that the installation changes
  have hentry : ∀ i, update s.copy.entry freeIndex { s.copy.entry freeIndex with next := count } i =
      if i = freeIndex then { s.copy.entry i with next := count } else s.copy.entry i := by
    intro i
    by_cases hi : i = freeIndex
    · rw [hi, update_self, if_pos rfl]
    · rw [update_of_ne hi, if_neg hi]
  have hkept : ∀ i, (update s.copy.entry freeIndex
      { s.copy.entry freeIndex with next := count } i).bits = (s.copy.entry i).bits ∧
      (update s.copy.entry freeIndex
        { s.copy.entry freeIndex with next := count } i).object = (s.copy.entry i).object := by
    intro i
    rw [hentry i]
    split <;> exact ⟨rfl, rfl⟩
  refine ⟨⟨hend, hobjects _ hmemLast⟩, hltLast, old, count :: rest, ?_⟩
  refine ⟨hspace.list, ⟨_, hlast⟩, fun i hi => ?_, happended.congr fun i _ => ?_,
    rfl, hmem, fun i => ?_, ?_,
    h.hash.distinct, fun i => ?_⟩
  · exact (hentry i).trans (by rw [hcopied i hi])
  · dsimp only
    rw [hentry i]
    split_ifs with hi
    · rw [hi, update_self]
    · rw [update_of_ne hi]
  · dsimp only
    rw [(hkept i).1, (hkept i).2, mem_append, hmem]
    exact h.free_iff hspace hcopied i
  · rw [length_append, length_of_mem_iff hnodup hmem, ← hspace.tableFree]
  · dsimp only
    rw [(hkept i).1]
    exact h.hashed_iff hspace hcopied i

variable (count ncount which) in
/-- The invariant up to the installation, and what was installed from then on. -/
structure GrowthInv (s : Growth α) : Prop where
  copying : s.pc ≠ .installed → GrowInv count ncount which s
  installed : s.pc = .installed → ∃ old new last, Installed count ncount s old new last

theorem GrowInv.growthInv (h : GrowInv count ncount which s) : GrowthInv count ncount which s := by
  refine ⟨fun _ => h, fun hpc => ?_⟩
  have hpcInv := h.pc
  rw [hpc] at hpcInv
  exact hpcInv.elim

theorem GrowInv.grow [DecidableEq α] (hash : Option α → Nat) (h : GrowInv count ncount which s)
    (hmay : s.MayGrow) :
    ∃ t, growStep count ncount hash s = some t ∧ GrowthInv count ncount which t := by
  unfold growStep
  cases hpc : s.pc with
  | scan i hi =>
    dsimp only
    split_ifs with hle
    · exact ⟨_, rfl, (h.scan hpc hle).growthInv⟩
    · exact ⟨_, rfl, (h.rebase hpc hle rfl).growthInv⟩
  | loadBits => exact ⟨_, rfl, (h.loadBits hpc).growthInv⟩
  | loadNext i hi object bits =>
    obtain ⟨copy, hcopy, hinv⟩ := @GrowInv.loadNext _ _ _ _ _ _ hash h i hi object bits hpc
    dsimp only
    rw [hcopy]
    exact ⟨_, rfl, hinv.growthInv⟩
  | walked freeIndex =>
    have hidle := hmay ⟨freeIndex, hpc⟩
    dsimp only
    unfold finish
    by_cases hmarked : s.space.lowMod < count
    · obtain ⟨hasserts, hinv⟩ := h.rescan hidle hpc hmarked
      rw [if_pos hmarked, if_pos hasserts]
      exact ⟨_, rfl, hinv.growthInv⟩
    obtain ⟨hasserts, -, old, new, hinstalled⟩ := h.install hidle hpc hmarked
    rw [if_neg hmarked]
    rw [if_pos hasserts]
    exact ⟨_, rfl, absurd rfl, fun _ => ⟨old, new, freeIndex, hinstalled⟩⟩
  | installed =>
    have hpcInv := h.pc
    rw [hpc] at hpcInv
    exact hpcInv.elim

end Grow

variable [DecidableEq α] {hash : Option α → Nat}

theorem growthInv_init (hinit : (growth count ncount which hash).init s) :
    GrowthInv count ncount which s := by
  obtain ⟨hpos, hlt, hmax, hidle, ⟨free, hspace⟩, hlow, hhigh, hcopy, hpc⟩ := hinit
  have hsettled := hidle.settled
  obtain ⟨hpending, htaken⟩ := hidle
  obtain ⟨-, -, -, -, -, -, hzero⟩ := @freshCopy_spec α count ncount which hpos hlt
  have hempty : ∀ r, occupant s.copy.slot r = none := by
    intro r
    rw [hcopy]
    exact occupant_eq_none.mpr rfl
  apply GrowInv.growthInv
  refine ⟨hpos, hlt, hmax, ⟨free, by rwa [hsettled, htaken]⟩,
    ⟨by omega, by omega, by omega, by omega⟩,
    fun i hi => ?_, fun st hst => ?_, absurd hpending, ⟨fun r _ _ _ i hi => ?_, fun i => ?_⟩, ?_,
    fun i _ => by rw [hcopy], fun i hi => .inr (.inl ?_), ?_⟩
  · rw [hpending] at hi
    cases hi
  · rw [hpending] at hst
    cases hst
  · rw [hempty r] at hi
    cases hi
  · refine iff_of_false ?_ ?_
    · rintro ⟨r, -, hr⟩
      rw [hempty r] at hr
      cases hr
    · rintro ⟨hi, hsome, -⟩
      rw [hcopy, hzero i hi.2] at hsome
      cases hsome
  · rw [hcopy, hzero 0 hpos]
  · rw [hpc]
    have := hi.1
    have := hi.2
    exact ⟨by omega, by omega⟩
  · rw [hpc]
    exact ⟨one_pos, by omega⟩

theorem growthInv_always :
    (growth count ncount which hash).Always (@GrowthInv α count ncount which) := by
  apply System.always_of_step
  · exact fun s hinit => growthInv_init hinit
  intro s t hs hstep
  cases hstep with
  | grow hmay hpc hgrow =>
    obtain ⟨t', ht', hinv⟩ := (hs.copying hpc).grow hash hmay
    cases ht'.symm.trans hgrow
    exact hinv
  | locked hpc hlocked => exact ((hs.copying hpc).locked hlocked).growthInv

variable (count ncount hash) in
/-- No assertion fails, and what is installed is what is to be installed. -/
structure GrowthSafe (s : Growth α) : Prop where
  grows : s.pc ≠ .installed → s.MayGrow → ∃ t, growStep count ncount hash s = some t
  modified : s.pc ≠ .installed → ∀ st rest, s.pending = st :: rest → st.asserts count s.space
  claims : s.pc ≠ .installed → s.Idle → (s.space.entry 0).next ≠ 0 → ∀ obj roll,
    ∃ stores i, claim count s.space obj roll = some (stores, i)
  names : s.pc ≠ .installed → s.Idle → ∀ index gen roll, InTable count index →
    ∃ stores i, allocName count s.space index gen roll = some (stores, i)
  deallocs : s.pc ≠ .installed → ∀ i, s.MayChange count i → (s.space.entry i).next = 0 →
    ∃ stores, dealloc count s.space (s.space.entry i).object i (genOf (s.space.entry i).bits) =
      some stores
  installed : s.pc = .installed → ∃ old new last, Installed count ncount s old new last

/-- The table is grown while other threads change it. In every state no assertion fails, and the
installed table has the entries of the old one, its free list followed by the new entries, and the
entries of type send in its hash. -/
theorem grown_table (count ncount : Nat) (which : Nat → Bool) (hash : Option α → Nat) :
    (growth count ncount which hash).Always (GrowthSafe count ncount hash) := by
  intro s hs
  have hinv := growthInv_always s hs
  refine ⟨fun hpc hmay => ?_, fun hpc st rest hpending => ?_, fun hpc hidle hheld obj roll => ?_,
    fun hpc hidle index gen roll hindex => ?_, fun hpc i hi hrequest => ?_, hinv.installed⟩
  · obtain ⟨t, ht, -⟩ := (hinv.copying hpc).grow hash hmay
    exact ⟨t, ht⟩
  · have h := hinv.copying hpc
    cases st with
    | modified i =>
      have hi := h.pendingMarks i (by rw [hpending]; exact mem_cons_self)
      exact ⟨hi.2, h.marks.low_le, h.marks.high_lt⟩
    | object | bits | next | tableFree => trivial
  · have h := hinv.copying hpc
    obtain ⟨free, hspace⟩ := h.space
    rw [hidle.settled, hidle.2] at hspace
    obtain ⟨stores, i, hclaim, -, -⟩ := claim_spec hspace (h.lt.le.trans h.max) hheld obj roll
    exact ⟨stores, i, hclaim⟩
  · obtain ⟨free, hspace⟩ := (hinv.copying hpc).space
    rw [hidle.settled, hidle.2] at hspace
    obtain ⟨stores, i, -, halloc, -, -⟩ := allocName_spec hspace hindex gen roll
    exact ⟨stores, i, halloc⟩
  · obtain ⟨free, hspace⟩ := (hinv.copying hpc).space
    rw [Growth.settled, hi.1] at hspace
    obtain ⟨hin, -, -⟩ := hspace.notFree hi.2
    refine ⟨deallocStores s.space i, if_neg ?_⟩
    have := hin.1
    have := hin.2
    simp only [ne_eq, not_true_eq_false, hrequest, or_false, false_or, not_or]
    omega

theorem scan_reaches (hs : (growth count ncount which hash).Reachable s) (hidle : s.Idle)
    (hpc : s.pc = .scan i hi) :
    ∃ t freeIndex, (growth count ncount which hash).Reachable t ∧
      t.Idle ∧ t.pc = .walked freeIndex ∧
      t.space = s.space := by
  have hstep : ∀ {t : Growth α} (t' : Growth α), (growth count ncount which hash).Reachable t →
    t.Idle →
      t.pc ≠ .installed → growStep count ncount hash t = some t' →
      (growth count ncount which hash).Reachable t' :=
    fun _ ht hidle hpc hgrow => .next ht (.grow _ (fun _ => hidle) hpc hgrow)
  have hnotYet : s.pc ≠ .installed := by
    rw [hpc]
    exact nofun
  generalize hleft : hi + 1 - i = left
  induction left generalizing s i with
  | zero =>
    obtain ⟨copy, hcopy⟩ : ∃ copy, copy = { s.copy with
      entry := update s.copy.entry 0 { s.copy.entry 0 with next := (s.space.entry 0).next } } :=
      ⟨_, rfl⟩
    refine ⟨{ s with copy := copy, pc := .walked (freeEnd count copy count 0) }, _,
      hstep _ hs hidle hnotYet ?_, hidle, rfl, rfl⟩
    rw [growStep, hpc, hcopy]
    exact if_neg (by omega)
  | succ left ih =>
    have hbits := hstep { s with pc := .loadBits i hi (s.space.entry i).object } hs hidle hnotYet
      (by rw [growStep, hpc]; exact if_pos (by omega))
    have hnext :=
      hstep { s with pc := .loadNext i hi (s.space.entry i).object (s.space.entry i).bits }
      hbits hidle nofun rfl
    obtain ⟨copy, hcopy, -⟩ :=
      @GrowInv.loadNext _ _ _ _ _ _ hash ((growthInv_always _ hnext).copying nofun) i hi _ _ rfl
    have hdone := hstep { s with copy := copy, pc := .scan (i + 1) hi } hnext hidle nofun (by
      rw [growStep]
      dsimp only
      rw [hcopy]
      rfl)
    obtain ⟨t, freeIndex, ht, hidle, hpc, hspace⟩ := ih hdone hidle rfl nofun (by omega)
    exact ⟨t, freeIndex, ht, hidle, hpc, hspace⟩

/-- A table that is full of dead names when it is grown. -/
def fullSpace : Space Nat where
  entry i := ⟨none, if i = 0 then genMask else 0x00100000, 0⟩
  tableFree := 0
  lowMod := 32
  highMod := 0

/-- The new entries are linked as they were drawn, and not in increasing order. -/
theorem newEntries_notOrdered :
    ∃ s : Growth Nat, (growth 32 42 (fun _ => true) fun _ => 0).Reachable s ∧ s.pc = .installed ∧
      ∀ old, ¬ FreeList (fun i => (s.copy.entry i).next) (old ++ range' 32 10) := by
  have hinit : (growth 32 42 (fun _ => true) fun _ : Option Nat => 0).init
      ⟨fullSpace, [], none, freshCopy 32 42 fun _ => true, .scan 1 31⟩ := by
    refine ⟨by decide, by decide, by decide, ⟨rfl, rfl⟩,
      ⟨[], ⟨⟨rfl, rfl⟩, by decide⟩, nofun, ?_, nofun, ?_, ?_,
      rfl⟩, rfl, rfl, rfl, rfl⟩
    · exact fun i _ => rfl
    · intro i hi _
      refine iff_of_false nofun ?_
      dsimp only [fullSpace]
      rw [if_neg hi.1.ne']
      decide
    · intro i hi _
      dsimp only [fullSpace]
      rw [if_neg hi.1.ne']
      exact fun hsend => absurd hsend (by decide)
  obtain ⟨t, freeIndex, ht, hidle, hpc, hspace⟩ := scan_reaches (.start hinit) ⟨rfl, rfl⟩ rfl
  have h := (growthInv_always t ht).copying (by rw [hpc]; exact nofun)
  have hclean : ¬ t.space.lowMod < 32 := by
    rw [hspace]
    decide
  obtain ⟨hasserts, hlt, -⟩ := h.install hidle hpc hclean
  refine ⟨{ t with
      space := { t.space with tableFree := t.space.tableFree + (42 - 32) }
      copy := { t.copy with
        entry := update t.copy.entry freeIndex { t.copy.entry freeIndex with next := 32 } }
      pc := .installed }, .next ht (.grow _ (fun _ => hidle) (by rw [hpc]; exact nofun) ?_),
        rfl, ?_⟩
  · rw [growStep, hpc]
    dsimp only
    rw [finish, if_neg hclean]
    exact if_pos hasserts
  intro old hlist
  have hvisits := hlist.visits
  rw [← cons_append] at hvisits
  obtain ⟨b, -, rfl, hnext, -⟩ := visits_append.mp hvisits
  dsimp only at hnext
  rw [update_of_ne (by omega), h.fresh 32 le_rfl] at hnext
  exact absurd hnext (by decide)

end XnuXzs.Ipc
