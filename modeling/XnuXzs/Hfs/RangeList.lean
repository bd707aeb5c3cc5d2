import Mathlib.Data.Int.Basic
import Mathlib.Order.Interval.Set.Basic
import Mathlib.Tactic

/-!
# Range lists

The lists of `rangelist.c` hold the parts of a file that are, say, not yet written. A call
adds a range to the set that a list stands for, or takes one away from it.
-/

namespace XnuXzs.Hfs

open List

/-- The greatest `off_t`. -/
def rlInfinity : Int := 2 ^ 63 - 1

structure RlEntry where
  rlStart : Int
  rlEnd : Int
  deriving DecidableEq

inductive RlOverlaptype where
  | noOverlap
  | matchingOverlap
  | overlapContainsRange
  | overlapIsContained
  | overlapStartsBefore
  | overlapEndsAfter
  deriving DecidableEq

def rlOverlap (range : RlEntry) (start stop : Int) : RlOverlaptype :=
  if start > range.rlEnd ∨ range.rlStart > stop then .noOverlap
  else if range.rlStart = start ∧ range.rlEnd = stop then .matchingOverlap
  else if range.rlStart ≤ start ∧ range.rlEnd ≥ stop then .overlapContainsRange
  else if start ≤ range.rlStart ∧ stop ≥ range.rlEnd then .overlapIsContained
  else if range.rlStart < start ∧ range.rlEnd < stop then .overlapStartsBefore
  else .overlapEndsAfter

/-- The ranges passed by, the type of the overlap, and the list from `*overlap` on. -/
def rlScanFrom (start stop : Int) : List RlEntry → List RlEntry × RlOverlaptype × List RlEntry
  | [] => ([], .noOverlap, [])
  | range :: rest =>
    if rlOverlap range start stop ≠ .noOverlap ∨ range.rlStart > stop then
      ([], rlOverlap range start stop, range :: rest)
    else (range :: (rlScanFrom start stop rest).1, (rlScanFrom start stop rest).2)

/-- The range, and what is left of those behind it. None behind another starts at the least
`off_t`, so the difference does not overflow. -/
def rlCollapseForwards (range : RlEntry) : List RlEntry → RlEntry × List RlEntry
  | [] => (range, [])
  | next :: rest =>
    if range.rlEnd ≠ rlInfinity ∧ range.rlEnd < next.rlStart - 1 then (range, next :: rest)
    else rlCollapseForwards ⟨range.rlStart, next.rlEnd⟩ rest

/-- The same with the ranges in front of it, the nearest one first. -/
def rlCollapseBackwards (range : RlEntry) : List RlEntry → RlEntry × List RlEntry
  | [] => (range, [])
  | prev :: rest =>
    if prev.rlEnd < range.rlStart - 1 then (range, prev :: rest)
    else rlCollapseBackwards ⟨prev.rlStart, range.rlEnd⟩ rest

def collapseBefore (before : List RlEntry) (range : RlEntry) (after : List RlEntry) :
    List RlEntry :=
  let back := rlCollapseBackwards range before.reverse
  back.2.reverse ++ back.1 :: after

def rlCollapseNeighbors (before : List RlEntry) (range : RlEntry) (after : List RlEntry) :
    List RlEntry :=
  let front := rlCollapseForwards range after
  collapseBefore before front.1 front.2

def rlAdd (start stop : Int) (rangelist : List RlEntry) : List RlEntry :=
  match rlScanFrom start stop rangelist with
  | (before, .noOverlap, after) => rlCollapseNeighbors before ⟨start, stop⟩ after
  | (before, .overlapIsContained, _ :: after) => rlCollapseNeighbors before ⟨start, stop⟩ after
  | (before, .overlapStartsBefore, overlap :: after) =>
    let front := rlCollapseForwards ⟨overlap.rlStart, stop⟩ after
    before ++ front.1 :: front.2
  | (before, .overlapEndsAfter, overlap :: after) =>
      collapseBefore before ⟨start, overlap.rlEnd⟩ after
  | _ => rangelist

/-- The list from where `rl_scan_from` goes on, past the ranges that do not overlap. -/
def rlRemove (start stop : Int) : List RlEntry → List RlEntry
  | [] => []
  | range :: rest =>
    match rlOverlap range start stop with
    | .noOverlap => range :: if range.rlStart > stop then rest else rlRemove start stop rest
    | .matchingOverlap => rest
    | .overlapContainsRange =>
      if range.rlStart = start then ⟨stop + 1, range.rlEnd⟩ :: rest
      else if range.rlEnd = stop then ⟨range.rlStart, start - 1⟩ :: rest
      else ⟨range.rlStart, start - 1⟩ :: ⟨stop + 1, range.rlEnd⟩ :: rest
    | .overlapIsContained => rlRemove start stop rest
    | .overlapStartsBefore => ⟨range.rlStart, start - 1⟩ :: rlRemove start stop rest
    | .overlapEndsAfter => ⟨if stop = rlInfinity then rlInfinity else stop + 1, range.rlEnd⟩ :: rest

inductive RlCall where
  | add (start stop : Int)
  | remove (start stop : Int)

def RlCall.apply (rangelist : List RlEntry) : RlCall → List RlEntry
  | .add start stop => rlAdd start stop rangelist
  | .remove start stop => rlRemove start stop rangelist

def RlCall.Valid : RlCall → Prop
  | .add start stop | .remove start stop => start ≤ stop ∧ stop ≤ rlInfinity

/-- The list after the calls, from the empty one on. -/
def rlRun (calls : List RlCall) : List RlEntry := calls.foldl RlCall.apply []

def covers (l : List RlEntry) : Set Int := { x | ∃ r ∈ l, r.rlStart ≤ x ∧ x ≤ r.rlEnd }

def RlCall.meaning (s : Set Int) : RlCall → Set Int
  | .add start stop => s ∪ Set.Icc start stop
  | .remove start stop => s \ Set.Icc start stop

def rlMeaning (calls : List RlCall) : Set Int := calls.foldl RlCall.meaning ∅

/-- Sorted, disjoint and not adjacent. -/
@[mk_iff]
structure Apart (l : List RlEntry) : Prop where
  gaps : l.Pairwise fun a b => a.rlEnd + 1 < b.rlStart
  ranges : ∀ r ∈ l, r.rlStart ≤ r.rlEnd ∧ r.rlEnd ≤ rlInfinity

/-- The new range reaches over a range of the list and then beyond the end of a later one. -/
def Swallows (start stop : Int) (l : List RlEntry) : Prop :=
  ∃ r ∈ l, ∃ next ∈ l, start ≤ r.rlEnd ∧ r.rlEnd < next.rlStart ∧ next.rlEnd < stop

variable {l before after rest : List RlEntry} {range next prev : RlEntry} {start stop x : Int}

@[simp, grind .]
theorem not_mem_covers_nil : x ∉ covers [] := by simp [covers]

@[simp, grind =]
theorem mem_covers_cons : x ∈ covers (range :: l) ↔ range.rlStart ≤ x ∧ x ≤ range.rlEnd ∨
    x ∈ covers l := by
  simp [covers]

@[simp, grind =]
theorem mem_covers_append : x ∈ covers (before ++ after) ↔
    x ∈ covers before ∨ x ∈ covers after := by
  simp [covers, or_and_right, exists_or]

@[grind =]
theorem apart_cons : Apart (range :: l) ↔
    (range.rlStart ≤ range.rlEnd ∧ range.rlEnd ≤ rlInfinity ∧
      ∀ r ∈ l, range.rlEnd + 1 < r.rlStart) ∧ Apart l := by
  simp only [apart_iff, pairwise_cons, forall_mem_cons]
  tauto

@[grind =]
theorem apart_append : Apart (before ++ after) ↔
    Apart before ∧ Apart after ∧ ∀ a ∈ before, ∀ b ∈ after, a.rlEnd + 1 < b.rlStart := by
  simp only [apart_iff, pairwise_append, forall_mem_append]
  tauto

/-- At most one of the ranges behind is taken in: the next one is too far from it. -/
theorem rlCollapseForwards_cons (h : Apart (next :: rest)) :
    rlCollapseForwards range (next :: rest) =
    if range.rlEnd + 1 < next.rlStart then (range, next :: rest)
      else (⟨range.rlStart, next.rlEnd⟩, rest) := by
  cases rest with
  | nil | cons => grind [rlCollapseForwards]

/-- The end of the range is lost if the one taken in ends before it. -/
theorem rlCollapseForwards_spec (range : RlEntry) (h : Apart rest)
    (hle : range.rlStart ≤ range.rlEnd) (hinf : range.rlEnd ≤ rlInfinity)
    (hlt : ∀ r ∈ rest, range.rlStart < r.rlStart) :
    ∃ r rest', rlCollapseForwards range rest = (r, rest') ∧ Apart (r :: rest') ∧
      r.rlStart = range.rlStart ∧
      ((∀ n ∈ rest, range.rlEnd ≤ n.rlEnd) → covers (r :: rest') = covers (range :: rest)) ∧
      ∀ n ∈ rest, n.rlEnd < range.rlEnd → ∃ x ∈ Set.Icc range.rlStart range.rlEnd,
        x ∉ covers (r :: rest') := by
  cases rest with
  | nil => exact ⟨range, [], rfl, apart_cons.mpr ⟨⟨hle, hinf, nofun⟩, h⟩, rfl, fun _ => rfl, nofun⟩
  | cons next rest =>
    have hend : ∀ n ∈ next :: rest, next.rlStart ≤ n.rlStart ∧
        next.rlEnd ≤ n.rlEnd ∧ n.rlStart ≤ n.rlEnd := by
      have := h.ranges
      grind
    rw [rlCollapseForwards_cons h]
    split
    · refine ⟨_, _, rfl, by grind, rfl, fun _ => rfl, by grind⟩
    refine ⟨_, _, rfl,
      by grind, rfl, fun hall => ?_, fun n hn hlt => ⟨next.rlEnd + 1, by grind, ?_⟩⟩
    · ext x
      grind
    · grind [covers]

theorem collapseBefore_concat : collapseBefore (before ++ [prev]) range after =
    if prev.rlEnd + 1 < range.rlStart then before ++ [prev] ++ range :: after
    else collapseBefore before ⟨prev.rlStart, range.rlEnd⟩ after := by
  rw [collapseBefore, reverse_append, reverse_singleton, singleton_append, rlCollapseBackwards]
  grind [collapseBefore]

theorem collapseBefore_of_gap (h : ∀ r ∈ before, r.rlEnd + 1 < range.rlStart) :
    collapseBefore before range after = before ++ range :: after := by
  obtain rfl | ⟨before, prev, rfl⟩ := eq_nil_or_concat' before
  · rfl
  · rw [collapseBefore_concat, if_pos (h prev (by simp))]

/-- At most one of the ranges in front is taken in, and only if it is adjacent. -/
theorem collapseBefore_spec (h : Apart before) (hlt : ∀ r ∈ before, r.rlEnd < range.rlStart)
    (hafter : Apart (range :: after)) :
    Apart (collapseBefore before range after) ∧
    covers (collapseBefore before range after) = covers before ∪ covers (range :: after) := by
  obtain rfl | ⟨before, prev, rfl⟩ := eq_nil_or_concat' before
  · exact ⟨hafter, by simp [collapseBefore, rlCollapseBackwards, covers]⟩
  have hgap : ∀ a ∈ before, a.rlEnd + 1 < prev.rlStart := by
    grind
  rw [collapseBefore_concat]
  split
  · refine ⟨by grind, ?_⟩
    ext x
    grind
  rw [collapseBefore_of_gap (by exact hgap)]
  refine ⟨by grind, ?_⟩
  ext x
  grind

theorem rlCollapseNeighbors_spec (range : RlEntry) (hbefore : Apart before) (hafter : Apart after)
    (hle : range.rlStart ≤ range.rlEnd) (hinf : range.rlEnd ≤ rlInfinity)
    (hlt : ∀ r ∈ before, r.rlEnd < range.rlStart) (hgt : ∀ r ∈ after, range.rlStart < r.rlStart) :
    Apart (rlCollapseNeighbors before range after) ∧
    (covers (rlCollapseNeighbors before range after) = covers before ∪ covers (range :: after) ↔
      ∀ n ∈ after, range.rlEnd ≤ n.rlEnd) := by
  obtain ⟨r, rest, heq, hrest, hstart, hcovers, hhole⟩ :=
    rlCollapseForwards_spec range hafter hle hinf hgt
  obtain ⟨hapart, hback⟩ := collapseBefore_spec hbefore (hstart ▸ hlt) hrest
  rw [rlCollapseNeighbors, heq, hback]
  refine ⟨hapart, fun hsame n hn => ?_, fun hall => by rw [hcovers hall]⟩
  by_contra hend
  obtain ⟨x, hx, hout⟩ := hhole n hn (by omega)
  have hin : x ∈ covers before ∪ covers (r :: rest) := hsame ▸ .inr (mem_covers_cons.mpr (.inl hx))
  obtain ⟨b, hb, -, hxb⟩ | hin := hin
  · have := hlt b hb
    have := hx.1
    omega
  · exact hout hin

theorem rlScanFrom_spec (start stop : Int) (h : Apart l) :
    ∃ before ot after, rlScanFrom start stop l = (before, ot, after) ∧ l = before ++ after ∧
      (∀ r ∈ before, r.rlEnd < start) ∧ ((ot = .noOverlap ∧ ∀ r ∈ after, stop < r.rlStart) ∨
        ∃ overlap rest, after = overlap :: rest ∧ ot = rlOverlap overlap start stop ∧
          ot ≠ .noOverlap) := by
  induction l with
  | nil => exact ⟨[], _, [], rfl, rfl, nofun, .inl ⟨rfl, nofun⟩⟩
  | cons range l ih =>
    obtain ⟨before, ot, after, heq, rfl, hbefore, hot⟩ := ih (apart_cons.mp h).2
    rw [rlScanFrom, heq]
    split
    · refine ⟨[], _, _, rfl, rfl, nofun, ?_⟩
      grind
    · exact ⟨range :: before, ot, after, rfl, rfl, by grind [rlOverlap], hot⟩

theorem rlAdd_spec (h : Apart l) (hle : start ≤ stop) (hinf : stop ≤ rlInfinity) :
    Apart (rlAdd start stop l) ∧
    (covers (rlAdd start stop l) = covers l ∪ Set.Icc start stop ↔ ¬ Swallows start stop l) := by
  obtain ⟨before, ot, after, heq, rfl, hlt, hot⟩ := rlScanFrom_spec start stop h
  obtain ⟨hbefore, hafter, hcross⟩ := apart_append.mp h
  have hranges := h.ranges
  rw [rlAdd, heq]
  obtain ⟨rfl, hgt⟩ | ⟨overlap, rest, rfl, rfl, hover⟩ := hot
  · obtain ⟨hapart, hcovers⟩ :=
      rlCollapseNeighbors_spec ⟨start, stop⟩ hbefore hafter hle hinf hlt (by grind)
    refine ⟨hapart, iff_of_true ?_ (by grind [Swallows])⟩
    ext x
    grind
  · obtain ⟨⟨hends, hinf', hgap⟩, hrest⟩ := apart_cons.mp hafter
    have hset {a b : Int} (hab : ∀ x, overlap.rlStart ≤ x ∧ x ≤ overlap.rlEnd ∨
      start ≤ x ∧ x ≤ stop ↔ a ≤ x ∧ x ≤ b) :
        covers (before ++ overlap :: rest) ∪ Set.Icc start stop =
          covers before ∪ covers (⟨a, b⟩ :: rest) := by
      ext x
      grind
    -- what the new range swallows is behind the first range that it overlaps
    have hsw : ¬ Swallows start stop (before ++ overlap :: rest) ↔ ∀ n ∈ rest, stop ≤ n.rlEnd := by
      grind [Swallows, rlOverlap]
    rw [hsw]
    cases hot : rlOverlap overlap start stop with
    | noOverlap => exact absurd hot hover
    | overlapIsContained =>
      rw [hset (a := start) (b := stop) (by grind [rlOverlap])]
      exact rlCollapseNeighbors_spec _ hbefore hrest hle hinf hlt (by grind [rlOverlap])
    | overlapStartsBefore =>
      have hle' : overlap.rlStart ≤ stop := by
        grind [rlOverlap]
      obtain ⟨r, rest', hfront, -, hstart, -⟩ :=
        rlCollapseForwards_spec ⟨overlap.rlStart, stop⟩ hrest hle' hinf (by grind)
      have hsame : before ++ r :: rest' = rlCollapseNeighbors before ⟨overlap.rlStart,
          stop⟩ rest := by
        rw [rlCollapseNeighbors, hfront]
        exact (collapseBefore_of_gap (by grind)).symm
      simp only [hfront]
      rw [hset (a := overlap.rlStart) (b := stop) (by grind [rlOverlap]), hsame]
      exact rlCollapseNeighbors_spec _ hbefore hrest hle' hinf (by grind) (by grind)
    | overlapEndsAfter =>
      have hnew : Apart (⟨start, overlap.rlEnd⟩ :: rest) := by
        grind [rlOverlap]
      rw [hset (a := start) (b := overlap.rlEnd) (by grind [rlOverlap])]
      obtain ⟨hapart, hcovers⟩ := collapseBefore_spec hbefore hlt hnew
      exact ⟨hapart, iff_of_true hcovers (by grind [rlOverlap])⟩
    | _ =>
      refine ⟨h, iff_of_true ?_ (by grind [rlOverlap])⟩
      ext x
      grind [rlOverlap]

theorem rlRemove_spec (h : Apart l) (hle : start ≤ stop) :
    Apart (rlRemove start stop l) ∧ ∀ x, x ∈ covers (rlRemove start stop l) ↔
      x ∈ covers l ∧ ¬ (start ≤ x ∧ x ≤ stop) := by
  induction l with
  | nil => exact ⟨h, by simp [rlRemove]⟩
  | cons range rest ih =>
    obtain ⟨⟨hends, hinf, hgap⟩, hrest⟩ := apart_cons.mp h
    obtain ⟨hapart, hcovers⟩ := ih hrest
    have hbehind : ∀ x ∈ covers rest, range.rlEnd + 1 < x := by
      rintro x ⟨r, hr, hx, -⟩
      have := hgap r hr
      omega
    have hgap' : ∀ r ∈ rlRemove start stop rest, range.rlEnd + 1 < r.rlStart := fun r hr =>
      hbehind _ ((hcovers _).mp ⟨r, hr, le_rfl, (hapart.ranges r hr).1⟩).1
    rw [rlRemove]
    cases hot : rlOverlap range start stop with
    | noOverlap =>
      dsimp only
      split
      · exact ⟨h, by grind⟩
      · exact ⟨by grind, by grind [rlOverlap]⟩
    | overlapContainsRange =>
      dsimp only
      split
      · exact ⟨by grind [rlOverlap], by grind [rlOverlap]⟩
      · split <;> exact ⟨by grind [rlOverlap], by grind [rlOverlap]⟩
    | _ => exact ⟨by grind [rlOverlap], by grind [rlOverlap]⟩

theorem rlRun_concat (calls : List RlCall) (c : RlCall) :
    rlRun (calls ++ [c]) = c.apply (rlRun calls) := foldl_concat ..

theorem rlMeaning_concat (calls : List RlCall) (c : RlCall) :
    rlMeaning (calls ++ [c]) = c.meaning (rlMeaning calls) :=
  foldl_concat ..

/-- The list is always sorted, with disjoint ranges that are not adjacent. It stands for the
right set as long as no range is added that swallows more than one range of the list. -/
theorem rangelist_iff (calls : List RlCall) (h : ∀ c ∈ calls, c.Valid) :
    (∀ made, made <+: calls → Apart (rlRun made) ∧ covers (rlRun made) = rlMeaning made) ↔
    ∀ made start stop, made ++ [.add start stop] <+: calls →
      ¬ Swallows start stop (rlRun made) := by
  have hvalid : ∀ {made}, made <+: calls → ∀ c ∈ made, c.Valid :=
    fun hmade c hc => h c (hmade.subset hc)
  constructor
  · intro hright made start stop hmade
    have hadd := hvalid hmade (.add start stop) (by simp)
    have hnext := (hright _ hmade).2
    obtain ⟨hapart, hnow⟩ := hright made ((prefix_append ..).trans hmade)
    rw [rlRun_concat, rlMeaning_concat, RlCall.meaning, ← hnow] at hnext
    exact (rlAdd_spec hapart hadd.1 hadd.2).2.mp hnext
  · intro hnone made
    induction made using reverseRecOn with
    | nil => exact fun _ => ⟨⟨.nil, nofun⟩, by simp [rlRun, covers, rlMeaning]⟩
    | append_singleton made c ih =>
      intro hmade
      obtain ⟨hapart, hnow⟩ := ih ((prefix_append ..).trans hmade)
      have hc := hvalid hmade c (by simp)
      rw [rlRun_concat, rlMeaning_concat, ← hnow]
      cases c with
      | add start stop =>
        obtain ⟨hadded, hiff⟩ := rlAdd_spec hapart hc.1 hc.2
        exact ⟨hadded, hiff.mpr (hnone made start stop hmade)⟩
      | remove start stop =>
        obtain ⟨hremoved, hcovers⟩ := rlRemove_spec hapart hc.1
        exact ⟨hremoved, Set.ext hcovers⟩

/-- The last range reaches over the other two. -/
theorem rangelist_loses : ∃ calls : List RlCall, (∀ c ∈ calls, c.Valid) ∧
    covers (rlRun calls) ≠ rlMeaning calls := by
  refine ⟨[.add 10 20, .add 30 40, .add 5 100], by simp [RlCall.Valid, rlInfinity], fun heq => ?_⟩
  have hrun : rlRun [.add 10 20, .add 30 40, .add 5 100] = [⟨5, 40⟩] := by decide
  have hin : 100 ∈ covers [⟨5, 40⟩] := by
    rw [← hrun, heq]
    exact .inr ⟨by decide, by decide⟩
  simp at hin

theorem rangelist_split : Apart (rlRun [.add 10 20, .remove 12 15]) ∧
    covers (rlRun [.add 10 20, .remove 12 15]) = rlMeaning [.add 10 20, .remove 12 15] := by
  refine (rangelist_iff _ (by simp [RlCall.Valid, rlInfinity])).mpr ?_ _ (prefix_refl _)
  rintro made start stop hmade ⟨r, hr, -⟩
  obtain _ | ⟨c, _ | ⟨c', made⟩⟩ := made
  · cases hr
  · simp at hmade
  · simp at hmade

end XnuXzs.Hfs
