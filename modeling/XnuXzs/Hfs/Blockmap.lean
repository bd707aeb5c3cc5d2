import XnuXzs.Hfs.RangeList
import XnuXzs.Lib.Machine

/-!
# Reading around the invalid ranges

The part of `hfs_vnop_blockmap` that keeps a read from what was not written yet.
-/

namespace XnuXzs.Hfs

open Lib List

/-- `bytesContAvail` bytes without a block (`a_bpn` is -1), or to be mapped to blocks. -/
inductive Run where
  | zeros (bytesContAvail : Int)
  | blocks (bytesContAvail : Int)
  deriving DecidableEq

variable (shift : Nat) (ffSize offset size : Int)

/-- `round_page_64` for pages of `2 ^ shift` bytes, as an `off_t`. -/
def roundPage (x : Int) : Int := i64 (u64 (x + (2 ^ shift - 1)) / 2 ^ shift * 2 ^ shift)

def zeroRun (range : RlEntry) : Run :=
  if ffSize > i64 (range.rlEnd + 1) ∧ u64 (range.rlEnd + 1 - offset) < size then
    .zeros (u64 (range.rlEnd + 1 - offset))
  else .zeros size

/-- The `do` loop, which passes over ranges inside one page. -/
def blockRun : List RlEntry → Run
  | [] => .blocks size
  | range :: rest =>
    if i64 size < i64 (roundPage shift range.rlStart - offset) then .blocks size
    else if roundPage shift range.rlStart < i64 (range.rlEnd + 1) then
      .blocks (u64 (roundPage shift range.rlStart - offset))
    else blockRun rest

/-- The check of the invalid ranges for a read; `none` is `ERANGE`. -/
def blockmapRead (ranges : List RlEntry) : Option Run :=
  if offset ≥ ffSize then none
  else match rlScanFrom offset (i64 (offset + size - 1)) ranges with
  | (_, .matchingOverlap, range :: _) | (_, .overlapContainsRange, range :: _)
  | (_, .overlapStartsBefore, range :: _) => some (zeroRun ffSize offset size range)
  | (_, .overlapIsContained, range :: rest) | (_, .overlapEndsAfter, range :: rest) =>
    if range.rlStart = offset then some (zeroRun ffSize offset size range)
    else some (blockRun shift offset size (range :: rest))
  | _ => some (.blocks size)

/-- Zeros have nothing valid among them and end before a valid byte. Blocks have only the
beginnings of invalid ranges among them, up to a page boundary, and end before one. -/
def Run.Right (ranges : List RlEntry) : Run → Prop
  | zeros n => (0 < n ∧ n ≤ size) ∧ offset ∈ covers ranges ∧
    (∀ x ∈ Set.Ico offset (offset + n), x < ffSize → x ∈ covers ranges) ∧
    (n < size → offset + n < ffSize ∧ offset + n ∉ covers ranges)
  | blocks n => (0 < n ∧ n ≤ size) ∧ offset ∉ covers ranges ∧
    (∀ r ∈ ranges, ∀ x ∈ Set.Ico offset (offset + n) ∩ Set.Icc r.rlStart r.rlEnd,
      x < roundPage shift r.rlStart) ∧
    (n < size → offset + n ∈ covers ranges)

variable {shift ffSize offset size} {l before rest : List RlEntry} {range : RlEntry} {x : Int}

theorem rlRun_apart {calls : List RlCall} (h : ∀ c ∈ calls, c.Valid) : Apart (rlRun calls) := by
  induction calls using reverseRecOn with
  | nil => exact ⟨.nil, nofun⟩
  | append_singleton calls c ih =>
    obtain ⟨hcalls, hc⟩ := forall_mem_append.1 h
    have hc := hc c (mem_singleton_self c)
    rw [rlRun_concat]
    cases c with
    | add => exact (rlAdd_spec (ih hcalls) hc.1 hc.2).1
    | remove => exact (rlRemove_spec (ih hcalls) hc.1).1

theorem roundPage_eq (hx : 0 ≤ x) (hlt : x + 2 ^ shift < 2 ^ 63) :
    roundPage shift x = (x + (2 ^ shift - 1)) / 2 ^ shift * 2 ^ shift := by
  have hpos : (0 : Int) < 2 ^ shift := by positivity
  have hle := Int.ediv_mul_le (x + (2 ^ shift - 1)) hpos.ne'
  have hdiv : 0 ≤ (x + (2 ^ shift - 1)) / 2 ^ shift := Int.ediv_nonneg (by omega) hpos.le
  have hmul := mul_nonneg hdiv hpos.le
  rw [roundPage, u64_eq (by omega) (by omega), i64_eq (by omega) (by omega)]

theorem le_roundPage {x : Int} (hx : 0 ≤ x) (hlt : x + 2 ^ shift < 2 ^ 63) :
    x ≤ roundPage shift x := by
  have hpos : (0 : Int) < 2 ^ shift := by positivity
  have := Int.lt_ediv_add_one_mul_self (x + (2 ^ shift - 1)) hpos
  rw [roundPage_eq hx hlt]
  rw [add_one_mul] at this
  omega

theorem roundPage_mono {y : Int} (hx : 0 ≤ x) (hxy : x ≤ y) (hlt : y + 2 ^ shift < 2 ^ 63) :
    roundPage shift x ≤ roundPage shift y := by
  rw [roundPage_eq hx (by omega), roundPage_eq (by omega) hlt]
  exact Int.mul_le_mul_of_nonneg_right (Int.ediv_le_ediv (by positivity) (by omega)) (by positivity)

theorem zeroRun_right (hrange : 0 ≤ offset ∧ 0 < size ∧ offset + size < 2 ^ 63)
    (h : Apart (before ++ range :: rest)) (hlast : range.rlEnd + 1 < 2 ^ 63)
    (hstart : range.rlStart ≤ offset) (hend : offset ≤ range.rlEnd) :
    (zeroRun ffSize offset size range).Right shift ffSize offset
      size (before ++ range :: rest) := by
  have hout : range.rlEnd + 1 ∉ covers (before ++ range :: rest) := by
    grind [covers]
  rw [zeroRun, i64_eq (by omega) hlast, u64_eq (by omega) (by omega)]
  split_ifs <;> grind [Run.Right]

theorem blockRun_right (hrange : 0 ≤ offset ∧ 0 < size ∧ offset + size < 2 ^ 63)
    (h : Apart (before ++ rest)) (hlast : ∀ r ∈ rest, r.rlEnd + 2 ^ shift < 2 ^ 63)
    (hbefore : ∀ r ∈ before, ∀ x, offset ≤ x → x ≤ r.rlEnd → x < roundPage shift r.rlStart)
    (hout : offset ∉ covers (before ++ rest)) (hrest : ∀ r ∈ rest, offset < r.rlStart) :
    (blockRun shift offset size rest).Right shift ffSize offset size (before ++ rest) := by
  induction rest generalizing before with
  | nil => grind [blockRun, Run.Right]
  | cons range rest ih =>
    have hpos : (0 : Int) < 2 ^ shift := by positivity
    have hranges := h.ranges
    have hle := @le_roundPage shift range.rlStart (by grind) (by grind)
    have hmono : ∀ r ∈ rest, roundPage shift range.rlStart ≤ roundPage shift r.rlStart := by
      intro r hr
      exact roundPage_mono (by grind) (by grind) (by grind)
    have htop : roundPage shift range.rlStart < 2 ^ 63 := by
      rw [roundPage, i64]
      omega
    rw [blockRun, i64_eq (by omega) (by omega), i64_eq (by grind) (by grind),
      i64_eq (by grind) (by grind),
      u64_eq (by grind) (by grind)]
    split_ifs with hfar hpage
    · grind [Run.Right]
    · grind [Run.Right]
    · rw [append_cons] at h hout ⊢
      exact ih h (by grind) (by grind) hout (by grind)

/-- For every read that begins inside the file, after any calls on its ranges. They may not
come near the greatest `off_t`, behind which the sums wrap around. -/
theorem blockmap_reads (shift : Nat) (calls : List RlCall) (h : ∀ c ∈ calls, c.Valid)
    (hlast : ∀ r ∈ rlRun calls, r.rlEnd + 2 ^ shift < 2 ^ 63) (hoffset : offset < ffSize)
    (hrange : 0 ≤ offset ∧ 0 < size ∧ offset + size < 2 ^ 63) :
    ∃ run, blockmapRead shift ffSize offset size (rlRun calls) = some run ∧
      run.Right shift ffSize offset size (rlRun calls) := by
  have hapart := rlRun_apart h
  generalize rlRun calls = l at hapart hlast ⊢
  have hpos : (0 : Int) < 2 ^ shift := by positivity
  obtain ⟨before, ot, after, heq, rfl, hlt, hot⟩ :=
    rlScanFrom_spec offset (offset + size - 1) hapart
  have hblocks :=
    @blockRun_right shift ffSize offset size before after hrange hapart (by grind) (by grind)
  rw [blockmapRead, if_neg hoffset.not_ge, i64_eq (by omega) (by omega), heq]
  obtain ⟨rfl, hgt⟩ | ⟨range, rest, rfl, rfl, hover⟩ := hot
  · refine ⟨_, rfl, ?_⟩
    grind [Run.Right, covers]
  · have hzeros :=
      @zeroRun_right shift ffSize offset size before rest range hrange hapart (by grind)
    cases hot : rlOverlap range offset (offset + size - 1) with
    | noOverlap => exact absurd hot hover
    | overlapIsContained | overlapEndsAfter =>
      dsimp only
      split_ifs with hstart
      · exact ⟨_, rfl, hzeros hstart.le (by grind [rlOverlap])⟩
      · have hbehind : ∀ r ∈ range :: rest, offset < r.rlStart := by
          grind [rlOverlap]
        refine ⟨_, rfl, hblocks ?_ hbehind⟩
        rintro ⟨r, hr, hx⟩
        grind
    | _ => exact ⟨_, rfl, hzeros (by grind [rlOverlap]) (by grind [rlOverlap])⟩

theorem blockmap_reads_page : ∃ run, blockmapRead 12 20000 0 16384 (rlRun [.add 100 9999]) =
    some run ∧
    run.Right 12 20000 0 16384 (rlRun [.add 100 9999]) :=
  blockmap_reads 12 _ (by simp [RlCall.Valid, rlInfinity]) (by decide) (by decide) (by decide)

end XnuXzs.Hfs
