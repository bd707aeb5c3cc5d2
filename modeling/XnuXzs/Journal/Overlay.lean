import XnuXzs.Journal.Coalesce
import XnuXzs.Lib.Extents

/-!
# Coalescing is laying extents over one another

Each live bucket stands for an extent: bytes of the file system, and where they are in the
journal. `add_block` lays the extent of its block over those of the table.
-/

namespace XnuXzs.Journal

open Lib List Bucket

/-- The position `d` bytes further in the journal. -/
def advance (g : Geometry) (p d : Int) : Int := circular g (p + d)

/-- The bytes of the file system that a bucket covers, and where they are. -/
def Bucket.extent (g : Geometry) (b : Bucket) : Extent Int :=
  ⟨b.start g, b.blockSize, b.jnlOffset⟩

variable {g : Geometry} {s : Int} {b : Bucket} {c : Call} {l pre post : List Bucket}

theorem advance_additive (h : g.jhdrSize ≤ g.size) : Additive (advance g) := by
  intro p a b _ hb
  rw [advance, advance, advance, circular_add h _ _ hb, Int.add_assoc]

theorem lower_extent (before : b.start g < s) :
    (b.extent g).below s = [(b.lower g s).extent g] := by
  by_cases whole : b.stop g ≤ s
  · rw [Extent.below_whole whole, lower, if_pos whole]
  · rw [Extent.below_part before (not_le.mp whole), lower, if_neg whole]
    rfl

theorem tail_extent (edge : Edge g s) (before : b.start g < s) (cksum : Int) :
    (b.extent g).above (advance g) s = (b.tail g s cksum).map (Bucket.extent g) := by
  by_cases covered : b.stop g ≤ s
  · rw [Extent.above_none _ before covered, Bucket.tail, if_pos covered]
    rfl
  have upper : (b.upper g s cksum).extent g =
      ⟨s, b.stop g - s, advance g b.jnlOffset (s - b.start g)⟩ := by
    rw [extent, upper_start edge]
    rfl
  rw [Extent.above_part _ before (not_le.mp covered), Bucket.tail, if_neg covered,
    map_singleton, upper]
  rfl

theorem above_clear (h : ∀ b ∈ l, s ≤ b.start g) :
    (l.map (Bucket.extent g)).flatMap (Extent.above (advance g) s) = l.map (Bucket.extent g) := by
  induction l with
  | nil => rfl
  | cons b l ih =>
    have head : (b.extent g).above (advance g) s = [b.extent g] :=
      Extent.above_whole _ (h b (mem_cons_self ..))
    rw [map_cons, flatMap_cons, head, ih fun a ha => h a (mem_cons_of_mem _ ha)]
    rfl

theorem cutNext_extent (edge : Edge g s) {post : List Bucket}
    (ordered : post.Pairwise fun a b => a.stop g ≤ b.start g) (pos : ∀ b ∈ post, 0 < b.blockSize) :
    (cutNext g s post).map (Bucket.extent g) =
      (post.map (Bucket.extent g)).flatMap (Extent.above (advance g) s) := by
  induction post with
  | nil => rfl
  | cons b rest ih =>
    obtain ⟨after, ordered'⟩ := pairwise_cons.mp ordered
    have size : b.stop g = b.start g + b.blockSize := rfl
    have := pos b (mem_cons_self ..)
    unfold cutNext
    split_ifs with clear covered
    · rw [above_clear]
      intro a ha
      cases mem_cons.mp ha with
      | inl h => rw [h]; exact clear
      | inr h => have := after a h; omega
    · rw [ih ordered' fun a ha => pos a (mem_cons_of_mem _ ha), map_cons,
        flatMap_cons, tail_extent edge (not_le.mp clear) 0, Bucket.tail, if_pos covered]
      rfl
    · have rest' : (rest.map (extent g)).flatMap (Extent.above (advance g) s) =
          rest.map (extent g) := above_clear fun a ha => by
        have := after a ha
        omega
      rw [map_cons, map_cons, flatMap_cons, rest',
        tail_extent edge (not_le.mp clear) 0, Bucket.tail, if_neg covered]
      rfl

theorem Live.rising (hg : g.Sound) (live : Live g l) (free : List Bucket) :
    Rising (l ++ free) l.length := by
  intro j k hjk hk
  have hj := lt_trans hjk hk
  have liveAt {i : Nat} (hi : i < l.length) : bucketAt (l ++ free) i = l[i] := by
    simp [bucketAt, getElem?_append_left, hi]
  rw [liveAt hj, liveAt hk]
  have order := pairwise_iff_getElem.mp live.ordered j k hj hk hjk
  have pos := (live.ok l[j] (getElem_mem hj)).size_pos
  unfold stop Bucket.start at order
  exact lt_of_mul_lt_mul_right (by omega) hg.jhdr_pos.le

theorem lookup_splits (hg : g.Sound) {t : Table} (h : t.Holds l) (live : Live g l)
    (blockNum : Int) :
    ∃ pre post, l = pre ++ post ∧ lookupBucket t.buf blockNum t.numFull = pre.length ∧
      (∀ b ∈ pre, b.blockNum < blockNum) ∧ ∀ b ∈ post, blockNum ≤ b.blockNum := by
  obtain ⟨free, _, hbuf, hfull⟩ := h
  rw [hbuf, hfull]
  obtain ⟨le, less, rest⟩ := lookupBucket_divides (x := blockNum) (live.rising hg free)
  generalize lookupBucket (l ++ free) blockNum l.length = i at le less rest
  have liveAt {k : Nat} (hk : k < l.length) : bucketAt (l ++ free) k = l[k] := by
    simp [bucketAt, getElem?_append_left, hk]
  refine ⟨l.take i, l.drop i, (take_append_drop i l).symm, by simp [le], ?_, ?_⟩
  · intro b hb
    obtain ⟨j, hj, rfl⟩ := getElem_of_mem hb
    rw [length_take] at hj
    rw [getElem_take, ← liveAt (by omega)]
    exact less j (by omega)
  · intro b hb
    obtain ⟨j, hj, rfl⟩ := getElem_of_mem hb
    rw [length_drop] at hj
    rw [getElem_drop, ← liveAt (by omega)]
    exact rest (i + j) (by omega) (by omega)

theorem tails_live (hg : g.Sound) (sized : c.Sized g) (fits : c.Fits g)
    (live : Live g (pre ++ post)) (less : ∀ b ∈ pre, b.blockNum < c.blockNum) :
    (∀ b ∈ pre.flatMap (Bucket.tail g (c.stop g) c.cksum) ++ post, b.Ok g) ∧
      (pre.flatMap (Bucket.tail g (c.stop g) c.cksum) ++ post).Pairwise
        (fun a b => a.stop g ≤ b.start g) ∧
      (pre.flatMap (Bucket.tail g (c.stop g) c.cksum)).length ≤ 1 := by
  rcases eq_nil_or_concat' pre with rfl | ⟨x, p, rfl⟩
  · exact ⟨live.ok, live.ordered, Nat.zero_le _⟩
  obtain ⟨_, tails, ok, ordered⟩ := Call.previous hg sized fits live less
  rw [tails]
  refine ⟨ok, ordered, ?_⟩
  unfold Bucket.tail
  split_ifs <;> simp

/-- The live buckets after a call are its extent over those before. -/
theorem after_extents (hg : g.Sound) (sized : c.Sized g) (fits : c.Fits g)
    (live : Live g (pre ++ post)) (less : ∀ b ∈ pre, b.blockNum < c.blockNum)
    (rest : ∀ b ∈ post, c.blockNum ≤ b.blockNum) :
    (c.lowers g pre ++ c.bucket g :: c.uppers g pre post).map (Bucket.extent g) =
      overlay (advance g) ((pre ++ post).map (Bucket.extent g)) ((c.bucket g).extent g) := by
  obtain ⟨edge, _, _⟩ := Call.edge hg sized fits
  have stop : c.stop g = c.start g + c.size := rfl
  have pos := sized.size_pos
  have before : ∀ b ∈ pre, b.start g < c.start g := fun b hb =>
    Call.before hg (less b hb)
  have behind : ∀ b ∈ post, c.start g ≤ b.start g := fun b hb =>
    mul_le_mul_of_nonneg_right (rest b hb) hg.jhdr_pos.le
  have lower : (pre.map (extent g)).flatMap (Extent.below (c.start g)) =
      (c.lowers g pre).map (extent g) := by
    rw [Call.lowers, map_map, flatMap_map, map_eq_flatMap]
    exact flatMap_congr fun b hb => lower_extent (before b hb)
  have none : (post.map (extent g)).flatMap (Extent.below (c.start g)) = [] := by
    rw [flatMap_map, flatMap_eq_nil_iff]
    intro b hb
    exact Extent.below_none (behind b hb) (live.ok b (mem_append_right _ hb)).size_pos
  have tails : (pre.map (extent g)).flatMap (Extent.above (advance g) (c.stop g)) =
      (pre.flatMap (Bucket.tail g (c.stop g) c.cksum)).map (extent g) := by
    rw [flatMap_map, map_flatMap]
    exact flatMap_congr fun b hb =>
      tail_extent edge (lt_trans (before b hb) (by omega)) c.cksum
  have begins : ∀ b ∈ pre.flatMap (Bucket.tail g (c.stop g) c.cksum), c.stop g ≤ b.start g := by
    intro b hb
    obtain ⟨a, _, ha⟩ := mem_flatMap.mp hb
    unfold Bucket.tail at ha
    split_ifs at ha
    · cases ha
    · rw [mem_singleton.mp ha, upper_start edge]
  obtain ⟨okTail, ordTail, _⟩ := tails_live hg sized fits live less
  rw [overlay, map_append, map_cons, map_append, flatMap_append,
    flatMap_append, Call.uppers, cutNext_extent edge ordTail fun b hb => (okTail b hb).size_pos,
    map_append, flatMap_append, above_clear begins]
  have ends : ((c.bucket g).extent g).stop = c.stop g := rfl
  have starts : ((c.bucket g).extent g).start = c.start g := rfl
  rw [ends, starts, lower, none, tails, append_nil]

/-- A step of the table: no fault, and the extent of the block laid over. -/
theorem addBlock_overlay (hg : g.Sound) (sized : c.Sized g) (fits : c.Fits g) {t : Table}
    (h : t.Holds l) (live : Live g l) (room : t.numFull + 2 < 2 ^ 30) :
    ∃ t' l', addBlock g t c = .ok t' ∧ t'.Holds l' ∧ Live g l' ∧ l'.length ≤ l.length + 2 ∧
      l'.map (Bucket.extent g) =
        overlay (advance g) (l.map (Bucket.extent g)) ((c.bucket g).extent g) := by
  obtain ⟨pre, post, rfl, index, less, rest⟩ := lookup_splits hg h live c.blockNum
  obtain ⟨okTail, _, tailsLen⟩ := tails_live hg sized fits live less
  obtain ⟨edge, dvd, _⟩ := Call.edge hg sized fits
  have entry := Call.bucket_eq hg sized fits
  have full : t.numFull = pre.length + post.length := by
    obtain ⟨_, _, _, hfull⟩ := h
    rw [hfull, length_append]
  have lowersLen : (c.lowers g pre).length = pre.length := length_map _
  have uppersLen : (c.uppers g pre post).length ≤ 1 + post.length := by
    have := cutNext_length_le g (c.stop g) (pre.flatMap (Bucket.tail g (c.stop g) c.cksum) ++ post)
    rw [length_append] at this
    exact le_trans this (by omega)
  have extents := after_extents hg sized fits live less rest
  obtain ⟨t₁, overwriting, overlap, outcome⟩ :=
    doOverlap_holds hg sized fits h live (by omega) less rest
  obtain ⟨t', inserted, holds⟩ : ∃ t',
    insertBlock g t₁ pre.length c.blockNum c.size c.offset c.cksum
      overwriting = .ok t' ∧ t'.Holds (c.lowers g pre ++ c.bucket g :: c.uppers g pre post) := by
    rw [← entry, ← lowersLen]
    rcases outcome with ⟨rfl, holds⟩ | ⟨rfl, b, holds⟩
    · refine insertBlock_holds g holds ?_ c.blockNum c.offset c.cksum sized.size_pos
      obtain ⟨_, _, _, hfull⟩ := holds
      rw [hfull, length_append]
      omega
    · exact insertBlock_overwrites g holds c.blockNum c.offset c.cksum sized.size_pos
  refine ⟨t', _, ?_, holds, ⟨?_, ?_⟩, ?_, extents⟩
  · simp [addBlock, index, if_neg (show ¬ t.numFull < pre.length by omega),
      overlap, bind, Except.bind, inserted]
  · intro b hb
    rcases mem_append.mp hb with low | high
    · obtain ⟨a, ha, rfl⟩ := mem_map.mp low
      exact lower_ok hg dvd (live.ok a (mem_append_left _ ha)) (Call.before hg (less a ha))
    · cases mem_cons.mp high with
      | inl new => exact new ▸ Call.bucket_ok hg sized fits
      | inr high => exact cutNext_ok hg edge okTail b high
  · have ordered : Ordered ((pre ++ post).map (extent g)) := pairwise_map.mpr live.ordered
    have positive : ∀ e ∈ (pre ++ post).map (extent g), 0 < e.len := by
      intro e he
      obtain ⟨b, hb, rfl⟩ := mem_map.mp he
      exact (live.ok b hb).size_pos
    have result : Ordered (overlay (advance g) ((pre ++ post).map (extent g))
        ((c.bucket g).extent g)) := overlay_ordered ordered positive sized.size_pos
    rw [← extents] at result
    exact pairwise_map.mp result
  · simp only [length_append, length_cons, lowersLen]
    omega

def Table.live (t : Table) : List Bucket := t.buf.take t.numFull

theorem Table.Holds.live_eq {t : Table} (h : t.Holds l) : t.live = l := by
  obtain ⟨free, _, hbuf, hfull⟩ := h
  rw [Table.live, hbuf, hfull, take_left]

/-- Block `n` of the file system lies in the entry. -/
def Bucket.Covers (g : Geometry) (b : Bucket) (n : Int) : Prop :=
  b.blockNum ≤ n ∧ (n - b.blockNum) * g.jhdrSize < b.blockSize

/-- Where the journal has block `n` of an entry. -/
def Bucket.position (g : Geometry) (b : Bucket) (n : Int) : Int :=
  circular g (b.jnlOffset + (n - b.blockNum) * g.jhdrSize)

def Call.covers (g : Geometry) (c : Call) (n : Int) : Bool :=
  c.blockNum ≤ n && (n - c.blockNum) * g.jhdrSize < c.size

/-- The journal position that the last call covering block `n` assigned to it. -/
def lastPosition (g : Geometry) (calls : List Call) (n : Int) : Option Int :=
  (calls.reverse.find? (·.covers g n)).map fun c =>
    circular g (c.offset + (n - c.blockNum) * g.jhdrSize)

structure Table.Correct (g : Geometry) (calls : List Call) (t : Table) : Prop where
  sorted : t.live.Pairwise fun a b => a.blockNum < b.blockNum
  disjoint : t.live.Pairwise fun a b => ∀ n, ¬ (a.Covers g n ∧ b.Covers g n)
  maps : ∀ n p, (∃ b ∈ t.live, b.Covers g n ∧ b.position g n = p) ↔
    lastPosition g calls n = some p

theorem addBlocks_overlays (hg : g.Sound) (calls : List Call) (sized : ∀ c ∈ calls, c.Sized g)
    (fits : ∀ c ∈ calls, c.Fits g) {t : Table} (h : t.Holds l) (live : Live g l)
    (few : t.numFull + 2 * calls.length < 2 ^ 30) :
    ∃ t' l', addBlocks g t calls = .ok t' ∧ t'.Holds l' ∧ Live g l' ∧ l'.map (Bucket.extent g) =
        (calls.map fun c => (c.bucket g).extent g).foldl (overlay (advance g))
          (l.map (Bucket.extent g)) := by
  induction calls generalizing t l with
  | nil => exact ⟨t, l, rfl, h, live, rfl⟩
  | cons c calls ih =>
    obtain ⟨hc, sized⟩ := forall_mem_cons.mp sized
    obtain ⟨fc, fits⟩ := forall_mem_cons.mp fits
    rw [length_cons] at few
    obtain ⟨t₁, l₁, step, h₁, live₁, len, eq⟩ := addBlock_overlay hg hc fc h live (by omega)
    have full₁ : t₁.numFull ≤ t.numFull + 2 := by
      obtain ⟨_, _, _, hfull⟩ := h
      obtain ⟨_, _, _, hfull₁⟩ := h₁
      omega
    obtain ⟨t', l', rest, h', live', eq'⟩ := ih sized fits h₁ live₁ (by omega)
    refine ⟨t', l', ?_, h', live', ?_⟩
    · rw [addBlocks, foldlM_cons, step]
      exact rest
    · rw [eq', eq, map_cons, foldl_cons]

theorem covers_extent (hpos : 0 < g.jhdrSize) (b : Bucket) (n : Int) :
    b.Covers g n ↔ (b.extent g).start ≤ n * g.jhdrSize ∧ n * g.jhdrSize < (b.extent g).stop := by
  have start : (b.extent g).start = b.blockNum * g.jhdrSize := rfl
  have stop : (b.extent g).stop = b.blockNum * g.jhdrSize + b.blockSize := rfl
  have diff := Int.sub_mul n b.blockNum g.jhdrSize
  rw [Bucket.Covers, start, stop, mul_le_mul_iff_left₀ hpos]
  constructor <;> rintro ⟨h, h'⟩ <;> exact ⟨h, by omega⟩

theorem position_extent (b : Bucket) (n : Int) :
    b.position g n = advance g (b.extent g).pos (n * g.jhdrSize - (b.extent g).start) := by
  rw [position, Int.sub_mul]
  rfl

theorem extent_at_iff (hg : g.Sound) (b : Bucket) (n p : Int) :
    (b.extent g).at (advance g) (n * g.jhdrSize) = some p ↔ b.Covers g n ∧ b.position g n = p := by
  rw [Extent.at_eq_some, covers_extent hg.jhdr_pos, position_extent, and_assoc]

theorem live_maps (hg : g.Sound) (live : Live g l) (n p : Int) :
    (∃ b ∈ l, b.Covers g n ∧ b.position g n = p) ↔
      extentsAt (advance g) (l.map (Bucket.extent g)) (n * g.jhdrSize) = some p := by
  have ordered : Ordered (l.map (extent g)) := pairwise_map.mpr live.ordered
  rw [ordered.extentsAt_iff]
  constructor
  · rintro ⟨b, hb, h⟩
    exact ⟨b.extent g, mem_map_of_mem hb, (extent_at_iff hg b n p).mpr h⟩
  · rintro ⟨e, he, h⟩
    obtain ⟨b, hb, rfl⟩ := mem_map.mp he
    exact ⟨b, hb, (extent_at_iff hg b n p).mp h⟩

theorem Call.covers_iff {c : Call} {n : Int} : c.covers g n = true ↔ (c.bucket g).Covers g n := by
  simp [Call.covers, Bucket.Covers, Call.bucket]

theorem calls_at (hg : g.Sound) (le : g.jhdrSize ≤ g.size) (cs : List Call) (n : Int) :
    extentsAt (advance g) (cs.map fun c => (c.bucket g).extent g) (n * g.jhdrSize) =
      (cs.find? (·.covers g n)).map fun c =>
        circular g (c.offset + (n - c.blockNum) * g.jhdrSize) := by
  induction cs with
  | nil => rfl
  | cons c cs ih =>
    rw [map_cons, extentsAt_cons, ih, find?_cons]
    cases hc : c.covers g n with
    | true =>
      have covered := Call.covers_iff.mp hc
      have found := (extent_at_iff hg (c.bucket g) n _).mpr ⟨covered, rfl⟩
      rw [found, Option.some_or, Option.map_some, position]
      congr 1
      exact circular_add le _ _ (mul_nonneg (Int.sub_nonneg.mpr covered.1) hg.jhdr_pos.le)
    | false =>
      have missing : ((c.bucket g).extent g).at (advance g) (n * g.jhdrSize) = none := by
        apply Option.eq_none_iff_forall_ne_some.mpr
        intro p hp
        have covered := Call.covers_iff.mpr ((extent_at_iff hg _ n p).mp hp).1
        exact absurd covered (hc ▸ Bool.false_ne_true)
      rw [missing, Option.none_or]

theorem Live.correct (hg : g.Sound) {t : Table} (h : t.Holds l) (live : Live g l)
    {calls : List Call}
    (maps : ∀ n p, (∃ b ∈ l, b.Covers g n ∧ b.position g n = p) ↔ lastPosition g calls n = some p) :
    t.Correct g calls := by
  rw [← h.live_eq] at live maps
  refine ⟨?_, ?_, maps⟩
  · refine List.Pairwise.imp_of_mem ?_ live.ordered
    intro a b ha _ order
    have pos := (live.ok a ha).size_pos
    unfold stop Bucket.start at order
    exact lt_of_mul_lt_mul_right (by omega) hg.jhdr_pos.le
  · refine List.Pairwise.imp ?_ live.ordered
    rintro a b order n ⟨ha, hb⟩
    have := (covers_extent hg.jhdr_pos a n).mp ha
    have := (covers_extent hg.jhdr_pos b n).mp hb
    have stop : (a.extent g).stop = a.stop g := rfl
    have start : (b.extent g).start = b.start g := rfl
    omega

/-- For calls that fit, the table is sorted and disjoint and has every block
where the last call covering it put it. -/
theorem addBlocks_correct {g : Geometry} (hg : g.Sound) (calls : List Call)
    (sized : ∀ c ∈ calls, c.Sized g) (fits : ∀ c ∈ calls, c.Fits g)
    (few : 2 * calls.length < 2 ^ 30) :
    ∃ t, addBlocks g .empty calls = .ok t ∧ t.Correct g calls := by
  have nothing : Live g [] := ⟨nofun, .nil⟩
  obtain ⟨t, l, run, h, live, extents⟩ := addBlocks_overlays hg calls sized fits Table.empty_holds
    nothing (by simpa [Table.empty] using few)
  refine ⟨t, run, live.correct hg h fun n p => ?_⟩
  rw [live_maps hg live, extents]
  cases calls with
  | nil => simp [lastPosition, extentsAt_nil]
  | cons c calls =>
    -- a block is no smaller than the header, and one that fits takes no more than two rounds
    have le : g.jhdrSize ≤ g.size := by
      obtain ⟨hc, _⟩ := forall_mem_cons.mp sized
      obtain ⟨fc, _⟩ := forall_mem_cons.mp fits
      have := Int.le_of_dvd hc.size_pos hc.size_dvd
      have := fc.offset_nonneg
      have := fc.end_le
      omega
    rw [overlays_at (advance_additive le), map_nil, extentsAt_nil, Option.or_none,
      ← map_reverse, calls_at hg le]
    rfl

/-- An 8 MB journal on a device with 512-byte blocks. -/
def sampleGeometry : Geometry := ⟨8388608, 512⟩

/-- Three calls: one inside the first, and one that wraps around. -/
def sampleCalls : List Call :=
  [⟨10, 4096, 4096, 1⟩, ⟨12, 1024, 16384, 2⟩, ⟨9, 1024, 8388096, 3⟩]

theorem addBlocks_correct_sample :
    ∃ t, addBlocks sampleGeometry .empty sampleCalls = .ok t ∧
      t.Correct sampleGeometry sampleCalls := by
  refine addBlocks_correct ⟨by decide, by decide, by decide⟩ sampleCalls ?_ ?_ (by decide)
  · intro c hc
    simp only [sampleCalls, mem_cons, not_mem_nil, or_false] at hc
    rcases hc with rfl | rfl | rfl <;> exact ⟨by decide, by decide, by decide⟩
  · intro c hc
    simp only [sampleCalls, mem_cons, not_mem_nil, or_false] at hc
    rcases hc with rfl | rfl | rfl <;> exact ⟨by decide, by decide, by decide, by decide⟩

/-- Block 0, then a block whose byte number is 0 modulo `2 ^ 64`. -/
def collidingCalls : List Call := [⟨0, 512, 4096, 1⟩, ⟨2 ^ 55, 512, 4608, 2⟩]

/-- The second call takes block 0 for its own and empties its entry. -/
theorem addBlocks_loses_block :
    (∀ c ∈ collidingCalls, c.Sized sampleGeometry) ∧
    ∃ t, addBlocks sampleGeometry .empty collidingCalls = .ok t ∧
      lastPosition sampleGeometry collidingCalls 0 = some 4096 ∧
      ∀ b ∈ t.live, ¬ b.Covers sampleGeometry 0 := by
  have live : (addBlocks sampleGeometry .empty collidingCalls).toOption.map Table.live =
      some [⟨0, 4096, 0, 0⟩, ⟨2 ^ 55, 4608, 512, 2⟩] := by decide +kernel
  constructor
  · intro c hc
    simp only [collidingCalls, mem_cons, not_mem_nil, or_false] at hc
    rcases hc with rfl | rfl <;> exact ⟨by decide, by decide, by decide⟩
  cases run : addBlocks sampleGeometry .empty collidingCalls with
  | error => rw [run] at live; cases live
  | ok t =>
    rw [run] at live
    refine ⟨t, rfl, by decide, ?_⟩
    rw [show t.live = _ from Option.some.inj live]
    unfold Bucket.Covers
    decide

end XnuXzs.Journal
