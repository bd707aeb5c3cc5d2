import XnuXzs.Journal.Buckets

/-!
# The table as an array

What `lookup_bucket` finds in a table with rising block numbers, and what the
moves of `insert_block` do to the live buckets and the free ones behind them.
-/

namespace XnuXzs.Journal

open Lib List

/-- The first `n` block numbers increase. -/
def Rising (buf : List Bucket) (n : Nat) : Prop :=
  ∀ j k, j < k → k < n → (bucketAt buf j).blockNum < (bucketAt buf k).blockNum

variable {buf y : List Bucket} {x size : Int} {n : Nat}

/-- Where the search ends: on a hit, or between the smaller and the larger numbers. -/
structure SearchEnd (buf : List Bucket) (x : Int) (n : Nat) (r : Nat × Option Nat) : Prop where
  hi_lt : r.1 < n
  hit : ∀ m, r.2 = some m → m < n ∧ x = (bucketAt buf m).blockNum
  less : r.2 = none → ∀ j < r.1, (bucketAt buf j).blockNum < x
  greater : r.2 = none → ∀ j, r.1 < j → j < n → x < (bucketAt buf j).blockNum

theorem searchLoop_end (rising : Rising buf n) (fuel lo hi : Nat) (hlo : lo ≤ hi) (hhi : hi < n)
    (enough : hi - lo < fuel) (less : ∀ j < lo, (bucketAt buf j).blockNum < x)
    (greater : ∀ j, hi < j → j < n → x < (bucketAt buf j).blockNum) :
    SearchEnd buf x n (searchLoop buf x fuel lo hi) := by
  induction fuel generalizing lo hi with
  | zero => omega
  | succ fuel ih =>
    simp only [searchLoop]
    have mid_le : (hi - lo) / 2 + lo ≤ hi := by omega
    generalize hmid : (hi - lo) / 2 + lo = mid at mid_le
    split
    · rename_i equal
      exact ⟨hhi, fun m hm => Option.some.inj hm ▸ ⟨by omega, equal⟩, nofun, nofun⟩
    split
    · rename_i below
      have greater' : ∀ j, mid < j → j < n → x < (bucketAt buf j).blockNum := fun j hj hn =>
        lt_trans below (rising mid j hj hn)
      split
      · exact ih lo mid (by omega) (by omega) (by omega) less greater'
      · exact ⟨by omega, nofun, fun _ j hj => less j (by omega), fun _ => greater'⟩
    · have less' : ∀ j < mid + 1, (bucketAt buf j).blockNum < x := by
        intro j hj
        by_cases same : j = mid
        · rw [same]
          omega
        · exact lt_trans (rising j mid (by omega) (by omega)) (by omega)
      split
      · exact ih (mid + 1) hi (by omega) hhi (by omega) less' greater
      · exact ⟨hhi, nofun, fun _ j hj => less' j (by omega), fun _ => greater⟩

/-- No number stands twice, so there is nothing to the right of a match. -/
theorem countMatches_zero (rising : Rising buf n) {i : Nat} (hi : i < n)
    (hx : x = (bucketAt buf i).blockNum) : countMatches buf x (n - (i + 1)) (i + 1) = 0 := by
  cases hm : n - (i + 1) with
  | zero => rfl
  | succ m =>
    have := rising i (i + 1) (by omega) (by omega)
    rw [countMatches, if_neg (by omega)]

theorem lookupBucket_divides (rising : Rising buf n) :
    lookupBucket buf x n ≤ n ∧
    (∀ j < lookupBucket buf x n, (bucketAt buf j).blockNum < x) ∧
    (∀ j, lookupBucket buf x n ≤ j → j < n → x ≤ (bucketAt buf j).blockNum) := by
  by_cases empty : n = 0
  · simp [lookupBucket, empty]
  have fin := searchLoop_end (x := x) rising n 0 (n - 1) (by omega) (by omega) (by omega)
    (by omega) (by omega)
  simp only [lookupBucket, if_neg empty]
  generalize searchLoop buf x n 0 (n - 1) = r at fin
  -- a hit at `m` is the division
  have atHit {m : Nat} (hm : m < n) (hx : x = (bucketAt buf m).blockNum) :
      m ≤ n ∧ (∀ j < m, (bucketAt buf j).blockNum < x) ∧
        (∀ j, m ≤ j → j < n → x ≤ (bucketAt buf j).blockNum) := by
    refine ⟨by omega, fun j hj => hx ▸ rising j m hj hm, fun j hj hn => ?_⟩
    by_cases same : m = j
    · exact same ▸ hx.le
    · exact hx ▸ (rising m j (by omega) hn).le
  by_cases top : x = (bucketAt buf r.1).blockNum
  · simp only [if_pos top, countMatches_zero rising fin.hi_lt top, add_zero]
    exact atHit fin.hi_lt top
  simp only [if_neg top]
  cases hr : r.2 with
  | some m =>
    obtain ⟨hm, hx⟩ := fin.hit m hr
    simp only [countMatches_zero rising hm hx, add_zero]
    exact atHit hm hx
  | none =>
    have less := fin.less hr
    have greater := fin.greater hr
    have := fin.hi_lt
    dsimp only
    split
    · refine ⟨by omega, less, fun j hj hn => ?_⟩
      by_cases same : r.1 = j
      · rw [← same]
        omega
      · exact (greater j (by omega) hn).le
    · refine ⟨by omega, fun j hj => ?_, fun j hj hn => (greater j (by omega) hn).le⟩
      by_cases same : j = r.1
      · rw [same]
        omega
      · exact less j (by omega)

/-- Unused buckets have block number -1, and there is always one. -/
structure Spare (free : List Bucket) : Prop where
  nonempty : free ≠ []
  unused : ∀ b ∈ free, b.blockNum = -1

def Table.Holds (t : Table) (l : List Bucket) : Prop :=
  ∃ free, Spare free ∧ t.buf = l ++ free ∧ t.numFull = l.length

theorem Spare.append {a b : List Bucket} (ha : ∀ x ∈ a, x.blockNum = -1) (hb : Spare b) :
    Spare (a ++ b) := by
  refine ⟨append_ne_nil_of_right_ne_nil _ hb.nonempty, fun x hx => ?_⟩
  cases mem_append.mp hx with
  | inl h => exact ha x h
  | inr h => exact hb.unused x h

theorem spare_replicate {n : Nat} (h : n ≠ 0) : Spare (List.replicate n freeBucket) :=
  ⟨fun nil => h ((replicate_eq_nil_iff _).mp nil), fun _ hb => eq_of_mem_replicate hb ▸ rfl⟩

theorem Table.empty_holds : Table.empty.Holds [] :=
  ⟨List.replicate startingBuckets freeBucket, spare_replicate (by decide), rfl, rfl⟩

theorem bucketAt_append (x : List Bucket) (b : Bucket) (y : List Bucket) :
    bucketAt (x ++ b :: y) x.length = b := by
  simp [bucketAt]

theorem set_append (x : List Bucket) (b b' : Bucket) (y : List Bucket) :
    (x ++ b :: y).set x.length b' = x ++ b' :: y := by
  simp

theorem bcopy_eq {buf : List Bucket} (a a' c m c' d' d : List Bucket) (ha : buf = a ++ a')
    (hm : buf = c ++ (m ++ c')) (hd : buf = d' ++ d) (len : d'.length = a.length + m.length) :
    bcopy buf c.length a.length m.length = a ++ m ++ d := by
  have h₁ : buf.take a.length = a := ha ▸ take_left
  have h₂ : (buf.drop c.length).take m.length = m := by
    rw [hm, drop_left, take_left]
  have h₃ : buf.drop (a.length + m.length) = d := by
    rw [← len, hd, drop_left]
  rw [bcopy, h₁, h₂, h₃]

theorem bcopy_up (x y : List Bucket) (hy : y ≠ []) (f : Bucket) (free : List Bucket) :
    ∃ s, bcopy (x ++ y ++ f :: free) x.length (x.length + 1) y.length = x ++ s :: y ++ free := by
  obtain ⟨first, rest, rfl⟩ := exists_cons_of_ne_nil hy
  refine ⟨first, ?_⟩
  have := bcopy_eq (x ++ [first]) (rest ++ f :: free) x (first :: rest) (f :: free)
    (x ++ first :: rest ++ [f]) free (append_assoc _ _ _) (by simp) (by simp)
    (by simp; omega)
  simpa using this

theorem bcopy_down (x : List Bucket) (d : Bucket) (y z : List Bucket) (hy : y ≠ []) :
    ∃ s, bcopy (x ++ d :: y ++ z) (x.length + 1) x.length y.length = x ++ y ++ s :: z := by
  obtain ⟨init, last, rfl⟩ : ∃ init last, y = init ++ [last] :=
    ⟨_, _, (dropLast_append_getLast hy).symm⟩
  refine ⟨last, ?_⟩
  have := bcopy_eq x (d :: (init ++ [last]) ++ z) (x ++ [d]) (init ++ [last]) z
    (x ++ d :: init) (last :: z) rfl (by simp) (by simp) (by simp)
  simpa using this

theorem growTable_spare (buf : List Bucket) (h : buf.length < 2 ^ 30) :
    growTable buf (i32 (buf.length * 2)) = buf ++ List.replicate buf.length freeBucket := by
  have newSize : i32 (buf.length * 2) = buf.length * 2 := i32_eq (by omega) (by omega)
  have more : ((buf.length : Int) * 2 - buf.length).toNat = buf.length := by omega
  rw [growTable, newSize, if_neg (by omega), more]

/-- Two free buckets, so that one is left when the other is taken. -/
theorem ensureRoom_spare {t : Table} {l free : List Bucket} (spare : Spare free)
    (hbuf : t.buf = l ++ free) (hfull : t.numFull = l.length) (room : t.numFull + 1 < 2 ^ 30) :
    ∃ f free', Spare free' ∧ ensureRoom t = .ok (l ++ f :: free') := by
  obtain ⟨f, rest, rfl⟩ := exists_cons_of_ne_nil spare.nonempty
  have unused : ∀ b ∈ rest, b.blockNum = -1 := fun b hb =>
    spare.unused b (mem_cons_of_mem _ hb)
  have len : t.buf.length = l.length + (rest.length + 1) := by
    rw [hbuf, length_append, length_cons]
  by_cases tight : t.numFull + 1 ≥ t.buf.length
  · refine ⟨f, rest ++ List.replicate t.buf.length freeBucket,
      Spare.append unused (spare_replicate (by omega)), ?_⟩
    have grow := growTable_spare t.buf (by omega)
    have size : i32 (t.buf.length * 2) = t.buf.length * 2 := i32_eq (by omega) (by omega)
    simp only [ensureRoom, if_pos tight, grow]
    rw [if_neg (by rw [size, length_append, length_replicate]; omega), hbuf,
      append_assoc, cons_append]
  · refine ⟨f, rest, ⟨?_, unused⟩, ?_⟩
    · intro none
      rw [none, length_nil] at len
      omega
    · rw [ensureRoom, if_neg tight, hbuf]

theorem insertBlock_holds (g : Geometry) {t : Table} {x : List Bucket} (h : t.Holds (x ++ y))
    (room : t.numFull + 1 < 2 ^ 30) (num offset cksum : Int) (pos : 0 < size) :
    ∃ t', insertBlock g t x.length num size offset cksum false = .ok t' ∧
      t'.Holds (x ++ ⟨num, u32 (wrapOnce g offset), u32 size, cksum⟩ :: y) := by
  obtain ⟨free, spare, hbuf, hfull⟩ := h
  obtain ⟨f, free', spare', ensured⟩ := ensureRoom_spare spare hbuf hfull room
  obtain ⟨s, made⟩ : ∃ s, makeRoom t x.length = .ok ⟨x ++ s :: y ++ free', t.numFull + 1⟩ := by
    rw [length_append] at hfull
    by_cases last : y = []
    · refine ⟨f, ?_⟩
      have here : x.length = t.numFull := by rw [hfull, last]; rfl
      simp [makeRoom, ensured, here, last, bind, Except.bind]
    have here : x.length ≠ t.numFull := by
      have := length_pos_iff.mpr last
      omega
    have count : t.numFull - x.length = y.length := by omega
    obtain ⟨s, moved⟩ := bcopy_up x y last f free'
    refine ⟨s, ?_⟩
    simp only [makeRoom, ensured, bind, Except.bind, if_pos here, count, moved]
  refine ⟨⟨x ++ ⟨num, u32 (wrapOnce g offset), u32 size, cksum⟩ :: y ++ free', t.numFull + 1⟩,
    ?_, free', spare', rfl, ?_⟩
  · simp only [insertBlock, Bool.false_eq_true, if_false, made, bind, Except.bind,
      if_neg (not_le.mpr pos), append_assoc, cons_append, set_append]
  · rw [hfull]
    simp [add_assoc]

theorem insertBlock_overwrites (g : Geometry) {t : Table} {x : List Bucket} {b : Bucket}
    (h : t.Holds (x ++ b :: y)) (num offset cksum : Int) (pos : 0 < size) :
    ∃ t', insertBlock g t x.length num size offset cksum true = .ok t' ∧
      t'.Holds (x ++ ⟨num, u32 (wrapOnce g offset), u32 size, cksum⟩ :: y) := by
  obtain ⟨free, spare, hbuf, hfull⟩ := h
  refine ⟨⟨x ++ ⟨num, u32 (wrapOnce g offset), u32 size, cksum⟩ :: y ++ free, t.numFull⟩,
    ?_, free, spare, rfl, ?_⟩
  · simp only [insertBlock, if_true, bind, Except.bind, if_neg (not_le.mpr pos), hbuf,
      append_assoc, cons_append, set_append]
  · rw [hfull]
    simp

end XnuXzs.Journal
