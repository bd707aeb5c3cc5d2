import Mathlib
import XnuXzs.Lib.Bytes

/-!
# The GPT entry array and the slice map

`xzs_parse_gpt_entry_array` and the publication of the slices: minor 0 is the whole disk, minors
1..55 are the used slots in order. Errors are counted, and the counts checked at the end.
-/

namespace XnuXzs.Emmc

open XnuXzs.Lib List

/-- `xzs_gpt_partition_entry_t`. -/
structure GptEntry where
  slotIndex : Nat
  used : Bool
  typeGuid : List UInt8
  uniqueGuid : List UInt8
  startLba : UInt64
  endLba : UInt64
  sectorCount : UInt64
  sizeBytes : UInt64
  attributes : UInt64
  nameRaw : List UInt8
  nameCanonical : List UInt8

/-- The arguments of the parser beside the array. -/
structure GptParams where
  numEntries : UInt32
  entrySize : UInt32
  arrayBytes : UInt64
  firstUsableLba : UInt64
  lastUsableLba : UInt64
  liveSecCount : UInt64

def hexDigit (n : UInt16) : UInt8 :=
  if n < 10 then (0x30 + n).toUInt8 else (0x61 + (n - 10)).toUInt8

/-- The loop of `xzs_decode_canonical_name`: printable ASCII as it is, anything else as an
escape, while there is room. -/
def decodeUnits (outMax : Nat) : List UInt16 → List UInt8 → List UInt8
  | [], out => out
  | cu :: units, out =>
    if cu = 0 then out
    else if cu ≥ 0x20 ∧ cu ≤ 0x7e then
      decodeUnits outMax units (if out.length + 1 < outMax then out ++ [cu.toUInt8] else out)
    else
      decodeUnits outMax units (if out.length + 6 < outMax then
        out ++ [0x5c, 0x75, hexDigit (cu >>> 12 &&& 0xf), hexDigit (cu >>> 8 &&& 0xf),
          hexDigit (cu >>> 4 &&& 0xf), hexDigit (cu &&& 0xf)] else out)

/-- `xzs_decode_canonical_name`, the characters before the NUL. -/
def decodeCanonicalName (m : Nat → UInt8) (p outMax : Nat) : List UInt8 :=
  decodeUnits outMax ((List.range 36).map fun i => u16At m (p + 2 * i)) []

/-- `sector_count` of an extent, 0 when it ends before it starts. -/
def sectorsBetween (startLba endLba : UInt64) : UInt64 :=
  if endLba ≥ startLba then endLba - startLba + 1 else 0

/-- The used slot at `p` as the parser records it. -/
def parseEntry (m : Nat → UInt8) (p slot : Nat) : GptEntry :=
  let startLba := u64At m (p + 32)
  let endLba := u64At m (p + 40)
  let sectorCount := sectorsBetween startLba endLba
  { slotIndex := slot
    used := true
    typeGuid := bytesAt m p 16
    uniqueGuid := bytesAt m (p + 16) 16
    startLba := startLba
    endLba := endLba
    sectorCount := sectorCount
    sizeBytes := if sectorCount > 0xffffffffffffffff / 512 then 0 else sectorCount * 512
    attributes := u64At m (p + 48)
    nameRaw := bytesAt m (p + 56) 72
    nameCanonical := decodeCanonicalName m (p + 56) 145 }

/-- The test that counts into `invalid_used_extent_count`. -/
def badExtent (p : GptParams) (e : GptEntry) : Bool :=
  e.startLba > e.endLba || e.startLba < p.firstUsableLba || e.endLba > p.lastUsableLba ||
  e.endLba ≥ p.liveSecCount

/-- The locals of the parser. Counts of slots stay below the number of slots; that of bytes may
wrap. -/
structure ParseState where
  entries : Nat → GptEntry
  usedSlots : List Nat
  unusedCount : Nat
  zeroGuids : Nat
  badExtents : Nat
  overflows : Nat
  tailNonzero : Nat

def updateEntry (entries : Nat → GptEntry) (slot : Nat) (e : GptEntry) : Nat → GptEntry :=
  fun s => if s = slot then e else entries s

/-- The body of the slot loop. A slot is used if its type GUID is not zero. -/
def parseSlot (p : GptParams) (m : Nat → UInt8) (slot : Nat) (st : ParseState) : ParseState :=
  let off := slot * p.entrySize.toNat
  if (bytesAt m off 16).all (· == 0) then
    { st with
      unusedCount := st.unusedCount + 1
      entries := updateEntry st.entries slot
        { st.entries slot with slotIndex := slot, used := false } }
  else
    let e := parseEntry m off slot
    let tail := bytesAt m (off + 128) (p.entrySize.toNat - 128)
    { entries := updateEntry st.entries slot e
      usedSlots := st.usedSlots ++ [slot]
      unusedCount := st.unusedCount
      zeroGuids := st.zeroGuids + if e.uniqueGuid.all (· == 0) then 1 else 0
      badExtents := st.badExtents + if badExtent p e then 1 else 0
      overflows := st.overflows + if e.sectorCount > 0xffffffffffffffff / 512 then 1 else 0
      tailNonzero := (st.tailNonzero + tail.countP (· != 0)) % 2 ^ 32 }

/-- The slot loop, `n` slots from `slot` on; `none` when a slot is outside the
array. -/
def parseSlots (p : GptParams) (m : Nat → UInt8) : Nat → Nat → ParseState → Option ParseState
  | 0, _, st => some st
  | n + 1, slot, st =>
    let off := slot * p.entrySize.toNat
    if off > p.arrayBytes.toNat ∨ p.entrySize.toNat > p.arrayBytes.toNat - off then none
    else parseSlots p m n (slot + 1) (parseSlot p m slot st)

/-- The extent audit: `ea->start <= eb->end && eb->start <= ea->end`. -/
def overlaps (a b : GptEntry) : Bool := a.startLba ≤ b.endLba && b.startLba ≤ a.endLba

/-- `xzs_parse_gpt_entry_array` over the old `parsed_entries`. The two audits run over all pairs
of used slots. -/
def parseGptEntryArray (p : GptParams) (m : Nat → UInt8) (entries : Nat → GptEntry) :
    Option ParseState := do
  let st ← parseSlots p m p.numEntries.toNat 0 ⟨entries, [], 0, 0, 0, 0, 0⟩
  if st.zeroGuids ≠ 0 ∨ st.badExtents ≠ 0 ∨ st.overflows ≠ 0 ∨ st.tailNonzero ≠ 0 then none
  else if ¬ st.usedSlots.Pairwise
      fun a b => (st.entries a).uniqueGuid ≠ (st.entries b).uniqueGuid then none
  else if ¬ st.usedSlots.Pairwise
      fun a b => overlaps (st.entries a) (st.entries b) = false then none
  else if 0 < st.usedSlots.length ∧
      st.usedSlots.length + st.unusedCount = p.numEntries.toNat then some st
  else none

/-- The globals that the probe sets and the block driver reads. -/
structure SliceMap where
  entries : Nat → GptEntry
  usedCount : Nat
  minorToSlot : Nat → Nat

/-- The call of the D4 probe. -/
def d4Params : GptParams := ⟨128, 128, 16384, 34, 61071326, 61071360⟩

/-- The D4 probe from the entry array on: parse, insist on 55 used slots, number them from minor
1. `none` is its halt. -/
def publishSlices (m : Nat → UInt8) (entries : Nat → GptEntry) : Option SliceMap := do
  let st ← parseGptEntryArray d4Params m entries
  if st.usedSlots.length ≠ 55 then none
  else some {
    entries := st.entries
    usedCount := st.usedSlots.length
    minorToSlot := fun minor => if minor = 0 then 0 else st.usedSlots.getD (minor - 1) 0 }

/-- The entry that a slice minor stands for. -/
def SliceMap.slice (map : SliceMap) (minor : Nat) : GptEntry := map.entries (map.minorToSlot minor)

def GptEntry.range (e : GptEntry) : Set Nat := Set.Icc e.startLba.toNat e.endLba.toNat

/-- An extent inside the usable area, with its length. -/
structure ExtentOk (p : GptParams) (e : GptEntry) : Prop where
  ordered : e.startLba.toNat ≤ e.endLba.toNat
  first : p.firstUsableLba.toNat ≤ e.startLba.toNat
  last : e.endLba.toNat ≤ p.lastUsableLba.toNat
  live : e.endLba.toNat < p.liveSecCount.toNat
  length : e.sectorCount.toNat = e.endLba.toNat - e.startLba.toNat + 1

theorem sectorsBetween_toNat {a b : UInt64} (h : a.toNat ≤ b.toNat) (hb : b.toNat < 2 ^ 64 - 1) :
    (sectorsBetween a b).toNat = b.toNat - a.toNat + 1 := by
  have hle := UInt64.le_iff_toNat_le.mpr h
  rw [sectorsBetween, if_pos hle, UInt64.toNat_add, UInt64.toNat_sub_of_le _ _ hle,
    UInt64.toNat_one, Nat.mod_eq_of_lt (by omega)]

variable {p : GptParams} {m : Nat → UInt8} {st : ParseState} {entries : Nat → GptEntry}

theorem badExtent_false {e : GptEntry} (hcount : e.sectorCount = sectorsBetween e.startLba e.endLba)
    (h : badExtent p e = false) : ExtentOk p e := by
  simp only [badExtent, Bool.or_eq_false_iff, decide_eq_false_iff_not, gt_iff_lt, ge_iff_le,
    UInt64.lt_iff_toNat_lt, UInt64.le_iff_toNat_le, not_lt, not_le] at h
  obtain ⟨⟨⟨hord, hfirst⟩, hlast⟩, hlive⟩ := h
  have hlt := p.liveSecCount.toNat_lt
  refine ⟨hord, hfirst, hlast, hlive, ?_⟩
  rw [hcount]
  exact sectorsBetween_toNat hord (by omega)

theorem parseEntry_sectorCount (m : Nat → UInt8) (off slot : Nat) :
    (parseEntry m off slot).sectorCount =
      sectorsBetween (parseEntry m off slot).startLba (parseEntry m off slot).endLba := by
  simp [parseEntry]

/-- After `k` slots: the recorded ones are among them, each once, and good while nothing was
counted as bad. -/
structure ParseInv (p : GptParams) (k : Nat) (st : ParseState) : Prop where
  bound : ∀ s ∈ st.usedSlots, s < k
  nodup : st.usedSlots.Nodup
  extents : st.badExtents = 0 → ∀ s ∈ st.usedSlots, ExtentOk p (st.entries s)

theorem updateEntry_ne (entries : Nat → GptEntry) {slot s : Nat} (e : GptEntry) (h : s ≠ slot) :
    updateEntry entries slot e s = entries s := if_neg h

theorem updateEntry_self (entries : Nat → GptEntry) (slot : Nat) (e : GptEntry) :
    updateEntry entries slot e slot = e := if_pos rfl

theorem parseSlot_inv {k : Nat} (h : ParseInv p k st) :
    ParseInv p (k + 1) (parseSlot p m k st) := by
  have hfresh : ∀ s ∈ st.usedSlots, s ≠ k := fun s hs => ne_of_lt (h.bound s hs)
  simp only [parseSlot]
  split
  · -- unused: the record of another slot does not change
    refine ⟨fun s hs => Nat.lt_succ_of_lt (h.bound s hs), h.nodup, fun hbad s hs => ?_⟩
    dsimp only
    rw [updateEntry_ne _ _ (hfresh s hs)]
    exact h.extents hbad s hs
  · refine ⟨?_, ?_, ?_⟩
    · intro s hs
      rcases mem_append.mp hs with hs | hs
      · exact Nat.lt_succ_of_lt (h.bound s hs)
      · rw [mem_singleton.mp hs]
        exact Nat.lt_succ_self k
    · apply h.nodup.append (nodup_singleton k)
      intro s hs hk
      exact hfresh s hs (mem_singleton.mp hk)
    · intro hbad s hs
      obtain ⟨hold, hnew⟩ := Nat.add_eq_zero_iff.mp hbad
      dsimp only
      rcases mem_append.mp hs with hs | hs
      · rw [updateEntry_ne _ _ (hfresh s hs)]
        exact h.extents hold s hs
      rw [mem_singleton.mp hs, updateEntry_self]
      apply badExtent_false (parseEntry_sectorCount ..)
      by_contra hne
      rw [Bool.not_eq_false] at hne
      rw [hne] at hnew
      cases hnew

theorem parseSlots_inv (n k : Nat) {st' : ParseState} (h : ParseInv p k st)
    (hrun : parseSlots p m n k st = some st') : ParseInv p (k + n) st' := by
  induction n generalizing k st with
  | zero =>
    cases hrun
    exact h
  | succ n ih =>
    simp only [parseSlots] at hrun
    split at hrun
    · cases hrun
    · rw [show k + (n + 1) = k + 1 + n by omega]
      exact ih (k + 1) (parseSlot_inv h) hrun

/-- An accepted array: every used slot has a good extent, and no two meet. -/
structure Accepted (p : GptParams) (st : ParseState) : Prop where
  nodup : st.usedSlots.Nodup
  extents : ∀ s ∈ st.usedSlots, ExtentOk p (st.entries s)
  apart : st.usedSlots.Pairwise fun a b =>
    Disjoint (st.entries a).range (st.entries b).range

theorem overlaps_false {a b : GptEntry} (h : overlaps a b = false) : Disjoint a.range b.range := by
  rw [Set.disjoint_left]
  rintro s ⟨ha1, ha2⟩ ⟨hb1, hb2⟩
  simp only [overlaps, Bool.and_eq_false_iff, decide_eq_false_iff_not, UInt64.le_iff_toNat_le,
    not_le] at h
  omega

theorem parseGptEntryArray_accepted
    (h : parseGptEntryArray p m entries = some st) : Accepted p st := by
  have hinit : ParseInv p 0 ⟨entries, [], 0, 0, 0, 0, 0⟩ :=
    ⟨by simp, nodup_nil, by simp⟩
  obtain ⟨st', hrun, h⟩ := Option.bind_eq_some_iff.mp h
  have hinv := parseSlots_inv _ _ hinit hrun
  split at h
  · cases h
  rename_i hcounts
  split at h
  · cases h
  split at h
  · cases h
  rename_i hover
  split at h
  · cases h
    have hbad : st.badExtents = 0 := by
      by_contra hne
      exact hcounts (.inr (.inl hne))
    exact ⟨hinv.nodup, hinv.extents hbad, (not_not.mp hover).imp overlaps_false⟩
  · cases h

/-- What the probe hands to the block driver. -/
structure SliceMap.Valid (map : SliceMap) : Prop where
  count : map.usedCount = 55
  extents : ∀ minor, 0 < minor → minor ≤ 55 → ExtentOk d4Params (map.slice minor)
  apart : ∀ i j, 0 < i → i < j → j ≤ 55 → Disjoint (map.slice i).range (map.slice j).range

theorem publishSlices_valid {map : SliceMap}
    (h : publishSlices m entries = some map) : map.Valid := by
  obtain ⟨st, hparse, h⟩ := Option.bind_eq_some_iff.mp h
  have hacc := parseGptEntryArray_accepted hparse
  split at h
  · cases h
  rename_i hcount
  cases h
  have hlen := not_not.mp hcount
  have hslice : ∀ i (h0 : 0 < i) (hi : i ≤ 55), SliceMap.minorToSlot
      ⟨st.entries, st.usedSlots.length,
        fun minor => if minor = 0 then 0 else st.usedSlots.getD (minor - 1) 0⟩ i =
      st.usedSlots.get ⟨i - 1, by omega⟩ := by
    intro i h0 hi
    simp only [pos_iff_ne_zero.mp h0, if_false]
    rw [getD_eq_getElem _ _ (by omega)]
    rfl
  refine ⟨hlen, ?_, ?_⟩
  · intro i h0 hi
    rw [SliceMap.slice, hslice i h0 hi]
    exact hacc.extents _ (get_mem _ _)
  · intro i j h0 hij hj
    rw [SliceMap.slice, SliceMap.slice, hslice i h0 (by omega), hslice j (by omega) hj]
    exact pairwise_iff_get.mp hacc.apart _ _ (by simp only [Fin.mk_lt_mk]; omega)

end XnuXzs.Emmc
