import XnuXzs.Journal.Table

/-!
# The cuts of `do_overlap`

A new block takes from the entry before it and from those behind it what it covers, for buckets
and blocks below `2 ^ 63` bytes that end at most one round past the end of the journal.
-/

namespace XnuXzs.Journal

open Lib List

/-- A header of positive size, and a journal of less than `2 ^ 32` bytes. -/
structure Geometry.Sound (g : Geometry) : Prop where
  jhdr_pos : 0 < g.jhdrSize
  jhdr_lt : g.jhdrSize < 2 ^ 31
  size_lt : g.size < 2 ^ 32

/-- The journal offset that is `x` when offsets past the end go on behind the
header. -/
def circular (g : Geometry) (x : Int) : Int :=
  if x < g.size then x else g.jhdrSize + (x - g.size) % (g.size - g.jhdrSize)

def Bucket.start (g : Geometry) (b : Bucket) : Int := b.blockNum * g.jhdrSize

def Bucket.stop (g : Geometry) (b : Bucket) : Int := b.start g + b.blockSize

/-- A bucket within the limits of the table's arithmetic. -/
structure Bucket.Ok (g : Geometry) (b : Bucket) : Prop where
  num_nonneg : 0 ≤ b.blockNum
  size_pos : 0 < b.blockSize
  size_dvd : g.jhdrSize ∣ b.blockSize
  stop_lt : b.stop g < 2 ^ 63
  offset_nonneg : 0 ≤ b.jnlOffset
  offset_lt : b.jnlOffset < g.size
  size_lt : b.blockSize < 2 ^ 32
  end_le : b.jnlOffset + b.blockSize ≤ 2 * g.size - g.jhdrSize

/-- The end of a block: a multiple of the header size that 64 bits hold. -/
structure Edge (g : Geometry) (x : Int) : Prop where
  pos : 0 < x
  lt : x < 2 ^ 63
  dvd : g.jhdrSize ∣ x

variable {g : Geometry} {s e cksum : Int} {b p : Bucket} {t : Table}
  {x y pre post rest : List Bucket} {c : Call}

theorem Geometry.Sound.u64_jhdr (hg : g.Sound) : u64 g.jhdrSize = g.jhdrSize :=
  u64_eq hg.jhdr_pos.le (lt_trans hg.jhdr_lt (by decide))

theorem circular_add (h : g.jhdrSize ≤ g.size) (x d : Int) (hd : 0 ≤ d) :
    circular g (circular g x + d) = circular g (x + d) := by
  unfold circular
  rcases h.eq_or_lt with none | h
  · simp [none]
  by_cases inside : x < g.size
  · rw [if_pos inside]
  have pos : 0 < g.size - g.jhdrSize := by omega
  have split : (x + d - g.size) % (g.size - g.jhdrSize) =
      ((x - g.size) % (g.size - g.jhdrSize) + d) % (g.size - g.jhdrSize) := by
    rw [Int.emod_add_emod]
    congr 1
    omega
  have low := Int.emod_nonneg (x - g.size) pos.ne'
  have high := Int.emod_lt_of_pos (x - g.size) pos
  rw [if_neg inside, if_neg (by omega : ¬ x + d < g.size), split]
  generalize (x - g.size) % (g.size - g.jhdrSize) = y at low high
  split
  · rw [Int.emod_eq_of_lt (by omega) (by omega)]
    omega
  · rw [← Int.sub_emod_right (y + d)]
    congr 2
    omega

/-- One turn is enough for an offset that is less than one round past the end. -/
theorem wrapOnce_eq (hg : g.Sound) {x : Int} (h : 0 ≤ x) (h' : x < g.size + (g.size - g.jhdrSize)) :
    u32 (wrapOnce g x) = circular g x ∧ 0 ≤ circular g x ∧ circular g x < g.size ∧
      circular g x ≤ x := by
  have := hg.jhdr_pos
  have := hg.size_lt
  unfold wrapOnce circular
  rw [i64_eq (by omega) (by omega)]
  by_cases inside : x < g.size
  · rw [if_neg (by omega), if_pos inside, u32_eq h (by omega)]
    exact ⟨rfl, h, inside, le_refl x⟩
  · rw [if_pos (by omega), if_neg inside, Int.emod_eq_of_lt (by omega) (by omega),
      u64_eq (by omega) (by omega), u32_eq (by omega) (by omega)]
    exact ⟨rfl, by omega, by omega, by omega⟩

theorem Edge.of_start (hg : g.Sound) (hb : b.Ok g) : g.jhdrSize ∣ b.start g ∧ 0 ≤ b.start g :=
  ⟨Dvd.intro_left _ rfl, mul_nonneg hb.num_nonneg hg.jhdr_pos.le⟩

theorem Bucket.Ok.i64_start (hg : g.Sound) (hb : b.Ok g) :
    i64 (b.blockNum * g.jhdrSize) = b.start g := by
  have start := (Edge.of_start hg hb).2
  have stop := hb.stop_lt
  have pos := hb.size_pos
  unfold Bucket.stop at stop
  exact i64_eq (by unfold Bucket.start at *; omega) (by unfold Bucket.start at *; omega)

theorem Bucket.Ok.i64_stop (hg : g.Sound) (hb : b.Ok g) :
    i64 (b.start g + b.blockSize) = b.stop g := by
  have start := (Edge.of_start hg hb).2
  have := hb.size_pos
  have := hb.stop_lt
  exact i64_eq (by omega) this

theorem Bucket.Ok.stop_dvd (hg : g.Sound) (hb : b.Ok g) : g.jhdrSize ∣ b.stop g :=
  dvd_add (Edge.of_start hg hb).1 hb.size_dvd

def Bucket.lower (g : Geometry) (s : Int) (b : Bucket) : Bucket :=
  if b.stop g ≤ s then b else { b with blockSize := s - b.start g, cksum := 0 }

def Bucket.upper (g : Geometry) (s cksum : Int) (b : Bucket) : Bucket :=
  ⟨s / g.jhdrSize, circular g (b.jnlOffset + (s - b.start g)), b.stop g - s, cksum⟩

/-- The tail of a bucket that goes on after `s`, if it does. -/
def Bucket.tail (g : Geometry) (s cksum : Int) (b : Bucket) : List Bucket :=
  if b.stop g ≤ s then [] else [b.upper g s cksum]

/-- The buckets without what they have before `s`. -/
def cutNext (g : Geometry) (s : Int) : List Bucket → List Bucket
  | [] => []
  | b :: rest =>
    if s ≤ b.start g then b :: rest
    else if b.stop g ≤ s then cutNext g s rest
    else b.upper g s 0 :: rest

theorem Edge.div_mul (hs : Edge g s) : s / g.jhdrSize * g.jhdrSize = s :=
  Int.ediv_mul_cancel hs.dvd

theorem upper_start (hs : Edge g s) (b : Bucket) : (b.upper g s cksum).start g = s :=
  hs.div_mul

theorem upper_stop (hs : Edge g s) (b : Bucket) : (b.upper g s cksum).stop g = b.stop g := by
  rw [Bucket.stop, upper_start hs]
  simp only [Bucket.upper]
  omega

theorem upper_ok (hg : g.Sound) (hs : Edge g s) (hb : b.Ok g) (after : b.start g < s)
    (before : s < b.stop g) : (b.upper g s cksum).Ok g := by
  have size : b.stop g = b.start g + b.blockSize := rfl
  have := hb.size_lt
  have := hb.end_le
  have := hb.offset_nonneg
  obtain ⟨_, low, high, le⟩ :=
    wrapOnce_eq hg (x := b.jnlOffset + (s - b.start g)) (by omega) (by omega)
  exact {
    num_nonneg := Int.ediv_nonneg hs.pos.le hg.jhdr_pos.le
    size_pos := Int.sub_pos.mpr before
    size_dvd := dvd_sub (hb.stop_dvd hg) hs.dvd
    stop_lt := by rw [upper_stop hs]; exact hb.stop_lt
    offset_nonneg := low
    offset_lt := high
    size_lt := by simp only [Bucket.upper]; omega
    end_le := by simp only [Bucket.upper]; omega }

theorem lower_ok (hg : g.Sound) (hs : g.jhdrSize ∣ s) (hb : b.Ok g) (after : b.start g < s) :
    (b.lower g s).Ok g := by
  unfold Bucket.lower
  split_ifs with whole
  · exact hb
  have size : b.stop g = b.start g + b.blockSize := rfl
  have := hb.stop_lt
  have := hb.size_lt
  have := hb.end_le
  exact {
    num_nonneg := hb.num_nonneg
    size_pos := Int.sub_pos.mpr after
    size_dvd := dvd_sub hs (Edge.of_start hg hb).1
    stop_lt := by simp only [Bucket.stop, Bucket.start] at *; omega
    offset_nonneg := hb.offset_nonneg
    offset_lt := hb.offset_lt
    size_lt := by dsimp only; omega
    end_le := by dsimp only; omega }

theorem trimBucket_covered (hg : g.Sound) (hb : b.Ok g) (h : b.stop g ≤ s) :
    trimBucket g s b = .ok { b with blockNum := -2 } := by
  have stop := hb.i64_stop hg
  unfold Bucket.start at stop
  simp [trimBucket, hg.u64_jhdr, stop, if_pos h]

theorem trimBucket_cut (hg : g.Sound) (hs : Edge g s) (hb : b.Ok g) (after : b.start g < s)
    (before : s < b.stop g) :
    trimBucket g s b = .ok (b.upper g s 0) := by
  have size : b.stop g = b.start g + b.blockSize := rfl
  have start := Edge.of_start hg hb
  have := hs.lt
  have := hb.size_lt
  have := hb.end_le
  have := hb.offset_nonneg
  have := hb.offset_lt
  have := hg.size_lt
  have := hg.jhdr_pos
  have stop := hb.i64_stop hg
  have overlap : i64 (s - b.start g) = s - b.start g := i64_eq (by omega) (by omega)
  have aligned : (s - b.start g) % g.jhdrSize = 0 :=
    Int.emod_eq_zero_of_dvd (dvd_sub hs.dvd start.1)
  have rest : u32 (b.blockSize - (s - b.start g)) = b.stop g - s := by
    rw [u32_eq (by omega) (by omega)]
    omega
  have offset : u64 (b.jnlOffset + (s - b.start g)) = b.jnlOffset + (s - b.start g) :=
    u64_eq (by omega) (by omega)
  have wrapped := (wrapOnce_eq hg (x := b.jnlOffset + (s - b.start g)) (by omega) (by omega)).1
  -- the block number moves up by whole blocks, to the one at `s`
  have num : b.blockNum + (s - b.start g) / g.jhdrSize = s / g.jhdrSize := by
    rw [Bucket.start, Int.sub_ediv_of_dvd _ (Dvd.intro_left _ rfl),
      Int.mul_ediv_cancel _ hg.jhdr_pos.ne']
    omega
  have small : s / g.jhdrSize ≤ s := Int.ediv_le_self _ hs.pos.le
  have nonneg := Int.ediv_nonneg hs.pos.le hg.jhdr_pos.le
  have num64 : i64 (s / g.jhdrSize) = s / g.jhdrSize := i64_eq (by omega) (by omega)
  simp only [trimBucket, hg.u64_jhdr]
  unfold Bucket.start at *
  simp only [stop, overlap, aligned, rest, offset, wrapped, num, num64, ge_iff_le]
  rw [if_neg (by omega), if_pos (by omega), if_neg (by simp), if_neg (by omega)]
  rfl

theorem overlapLoop_stops (hg : g.Sound) {numFull fuel index r : Nat} {buf : List Bucket}
    (h : numFull ≤ index ∨ s ≤ i64 ((bucketAt buf index).blockNum * g.jhdrSize)) :
    overlapLoop g s numFull fuel buf index r = .ok (buf, index, r) := by
  cases fuel with
  | zero => rfl
  | succ fuel =>
    rw [overlapLoop, hg.u64_jhdr]
    exact if_neg (by omega)

theorem overlapLoop_enters (hg : g.Sound) {b' : Bucket} (hb : b.Ok g) (enter : b.start g < s)
    (trim : trimBucket g s b = .ok b') (x rest free : List Bucket) (n r : Nat) :
    overlapLoop g s (x.length + (rest.length + 1)) (n + 1) (x ++ b :: rest ++ free) x.length r =
      overlapLoop g s (x.length + (rest.length + 1)) n (x ++ [b'] ++ rest ++ free) (x.length + 1)
        (if b'.blockNum = -2 then r + 1 else r) := by
  have here : bucketAt (x ++ b :: rest ++ free) x.length = b := by
    rw [append_assoc, cons_append, bucketAt_append]
  have put : (x ++ b :: rest ++ free).set x.length b' = x ++ [b'] ++ rest ++ free := by
    simp
  have inside : x.length < x.length + (rest.length + 1) ∧ s > b.start g := by omega
  simp only [overlapLoop, here, hg.u64_jhdr, hb.i64_start hg, if_pos inside, trim, bind,
    Except.bind, put]

/-- Behind an entry that was cut the next one begins after the block, so the loop is over. -/
theorem overlapLoop_after_cut (hg : g.Sound) (ok : ∀ c ∈ rest, c.Ok g)
    (after : ∀ c ∈ rest, s ≤ c.start g) (x free : List Bucket) (a : Bucket) (r : Nat) :
    overlapLoop g s (x.length + (rest.length + 1)) rest.length (x ++ [a] ++ rest ++ free)
      (x.length + 1) r = .ok (x ++ [a] ++ rest ++ free, x.length + 1, r) := by
  apply overlapLoop_stops hg
  cases rest with
  | nil => exact .inl (le_refl _)
  | cons c rest =>
    right
    have here : bucketAt (x ++ [a] ++ c :: rest ++ free) (x.length + 1) = c := by
      have hc := bucketAt_append (x ++ [a]) c (rest ++ free)
      rwa [length_append, length_singleton, ← cons_append, ← append_assoc] at hc
    rw [here, (ok c (mem_cons_self ..)).i64_start hg]
    exact after c (mem_cons_self ..)

/-- The loop marks what is covered and moves up the entry it stops in, if any, as `q` tells. -/
theorem overlapLoop_spec (hg : g.Sound) (hs : Edge g s) (post : List Bucket)
    (ok : ∀ b ∈ post, b.Ok g) (ordered : post.Pairwise fun a b => a.stop g ≤ b.start g)
    (x free : List Bucket) (r : Nat) :
    ∃ marked q, (∀ b ∈ marked, b.blockNum = -2) ∧ (q = 0 ∨ q = 1 ∧ cutNext g s post ≠ []) ∧
      marked.length + (cutNext g s post).length = post.length ∧
      overlapLoop g s (x.length + post.length) post.length (x ++ post ++ free) x.length r =
        .ok (x ++ marked ++ cutNext g s post ++ free, x.length + marked.length + q,
          r + marked.length) := by
  induction post generalizing x r with
  | nil => exact ⟨[], 0, nofun, .inl rfl, rfl, by simp [overlapLoop, cutNext]⟩
  | cons b rest ih =>
    have hb := ok b (mem_cons_self ..)
    have ok' : ∀ c ∈ rest, c.Ok g := fun c hc => ok c (mem_cons_of_mem _ hc)
    obtain ⟨after, ordered'⟩ := pairwise_cons.mp ordered
    by_cases clear : s ≤ b.start g
    · refine ⟨[], 0, nofun, .inl rfl, ?_, ?_⟩
      · simp [cutNext, clear]
      have here : bucketAt (x ++ b :: rest ++ free) x.length = b := by
        rw [append_assoc, cons_append, bucketAt_append]
      rw [overlapLoop_stops hg (.inr (by rw [here, hb.i64_start hg]; exact clear))]
      simp [cutNext, clear]
    have enter : b.start g < s := by omega
    by_cases covered : b.stop g ≤ s
    · obtain ⟨marked, q, hm, hq, len, eq⟩ := ih ok' ordered' (x ++ [{ b with blockNum := -2 }])
        (r + 1)
      have next : cutNext g s (b :: rest) = cutNext g s rest := by
        rw [cutNext, if_neg clear, if_pos covered]
      refine ⟨{ b with blockNum := -2 } :: marked, q, ?_, ?_, ?_, ?_⟩
      · intro c hc
        cases mem_cons.mp hc with
        | inl h => rw [h]
        | inr h => exact hm c h
      · rwa [next]
      · rw [next, length_cons, length_cons]
        omega
      rw [length_append, length_singleton] at eq
      rw [length_cons,
        overlapLoop_enters hg hb enter (trimBucket_covered hg hb covered), if_pos rfl,
        show x.length + (rest.length + 1) = x.length + 1 + rest.length by omega, eq, next]
      simp
      omega
    · have before : s < b.stop g := by omega
      have positive : 0 ≤ (b.upper g s 0).blockNum :=
        (upper_ok hg hs hb enter before).num_nonneg
      have later : ∀ c ∈ rest, s ≤ c.start g := fun c hc => le_trans before.le (after c hc)
      refine ⟨[], 1, nofun, .inr ⟨rfl, ?_⟩, ?_, ?_⟩
      · simp [cutNext, clear, covered]
      · simp [cutNext, clear, covered]
      rw [length_cons, overlapLoop_enters hg hb enter (trimBucket_cut hg hs hb enter before),
        if_neg (by omega), overlapLoop_after_cut hg ok' later]
      simp [cutNext, clear, covered]

theorem removeAt_spec (x : List Bucket) (d : Bucket) (y z : List Bucket) :
    ∃ s, removeAt ⟨x ++ d :: y ++ z, x.length + 1 + y.length⟩ x.length =
      ⟨x ++ y ++ s :: z, x.length + y.length⟩ := by
  cases y with
  | nil =>
    refine ⟨{ d with blockNum := -1 }, ?_⟩
    simp [removeAt, bucketAt]
  | cons a y =>
    obtain ⟨s, moved⟩ := bcopy_down x d (a :: y) z (cons_ne_nil _ _)
    refine ⟨s, ?_⟩
    have inner : x.length ≠ x.length + 1 + (a :: y).length - 1 := by
      rw [length_cons]
      omega
    have count : x.length + 1 + (a :: y).length - (x.length + 1) = (a :: y).length := by omega
    simp only [removeAt, if_neg inner, count, moved]
    congr 1
    omega

/-- Marked entries between `x` and `y` leave stale ones behind the live. -/
theorem deleteMarked_spec (x marked : List Bucket) (hm : ∀ b ∈ marked, b.blockNum = -2)
    (y z : List Bucket) :
    ∃ stale, stale.length = marked.length ∧ deleteMarked x.length marked.length
        ⟨x ++ marked ++ y ++ z, x.length + marked.length + y.length⟩ =
      ⟨x ++ y ++ stale ++ z, x.length + y.length⟩ := by
  -- from the right, as the loop goes
  induction marked using List.reverseRecOn generalizing z with
  | nil => exact ⟨[], rfl, by simp [deleteMarked]⟩
  | append_singleton marked d ih =>
    obtain ⟨s, removed⟩ := removeAt_spec (x ++ marked) d y z
    have mark := hm d (by simp)
    obtain ⟨stale, len, eq⟩ := ih (fun b hb => hm b (mem_append_left _ hb)) (s :: z)
    refine ⟨stale ++ [s], by simp [len], ?_⟩
    have here : bucketAt (x ++ (marked ++ [d]) ++ y ++ z) (x.length + marked.length) = d := by
      have := bucketAt_append (x ++ marked) d (y ++ z)
      simpa using this
    rw [length_append, length_singleton, deleteMarked]
    simp only [here, mark, if_true]
    have whole : x ++ (marked ++ [d]) ++ y ++ z = x ++ marked ++ d :: y ++ z := by simp
    have full : x.length + (marked.length + 1) + y.length = (x ++ marked).length +
        1 + y.length := by
      rw [length_append]
      omega
    rw [whole, full, ← length_append, removed, length_append, eq]
    simp

theorem clearStale_spec (x stale z : List Bucket) :
    ∃ cleared, (∀ b ∈ cleared, b.blockNum = -1) ∧
      clearStale (x ++ stale ++ z) x.length stale.length = x ++ cleared ++ z := by
  induction stale generalizing x with
  | nil => exact ⟨[], nofun, by simp [clearStale]⟩
  | cons s stale ih =>
    obtain ⟨cleared, unused, eq⟩ := ih (x ++ [{ s with blockNum := -1 }])
    refine ⟨{ s with blockNum := -1 } :: cleared, ?_, ?_⟩
    · intro b hb
      cases mem_cons.mp hb with
      | inl h => rw [h]
      | inr h => exact unused b h
    have here := bucketAt_append x s (stale ++ z)
    have put := set_append x s { s with blockNum := -1 } (stale ++ z)
    rw [append_assoc, cons_append, length_cons, clearStale, here, put]
    simpa using eq

theorem deleteMarked_skips (blkIndex n : Nat) (t : Table)
    (h : (bucketAt t.buf (blkIndex + n)).blockNum ≠ -2) :
    deleteMarked blkIndex (n + 1) t = deleteMarked blkIndex n t := by
  rw [deleteMarked, if_neg h]

theorem cutNext_ok (hg : g.Sound) (hs : Edge g s) (ok : ∀ b ∈ post, b.Ok g) :
    ∀ b ∈ cutNext g s post, b.Ok g := by
  induction post with
  | nil => exact nofun
  | cons a rest ih =>
    have ok' : ∀ b ∈ rest, b.Ok g := fun b hb => ok b (mem_cons_of_mem _ hb)
    unfold cutNext
    split_ifs with clear covered
    · exact ok
    · exact ih ok'
    intro b hb
    cases mem_cons.mp hb with
    | inl h => exact h ▸ upper_ok hg hs (ok a (mem_cons_self ..)) (by omega) (by omega)
    | inr h => exact ok' b h

theorem loops_hold (hg : g.Sound) (hs : Edge g s) (h : t.Holds (x ++ post))
    (ok : ∀ b ∈ post, b.Ok g) (ordered : post.Pairwise fun a b => a.stop g ≤ b.start g) :
    ∃ buf index r t', overlapLoop g s t.numFull (t.numFull - x.length) t.buf x.length 0 =
        .ok (buf, index, r) ∧
      deleteMarked x.length (index - x.length) ⟨buf, t.numFull⟩ = t' ∧
      Table.Holds ⟨clearStale t'.buf t'.numFull r, t'.numFull⟩ (x ++ cutNext g s post) := by
  obtain ⟨free, spare, hbuf, hfull⟩ := h
  rw [length_append] at hfull
  obtain ⟨marked, q, hm, hq, len, eq⟩ := overlapLoop_spec hg hs post ok ordered x free 0
  obtain ⟨stale, staleLen, deleted⟩ := deleteMarked_spec x marked hm (cutNext g s post) free
  obtain ⟨cleared, unused, clear⟩ := clearStale_spec (x ++ cutNext g s post) stale free
  have full : t.numFull = x.length + marked.length + (cutNext g s post).length := by omega
  refine ⟨_, _, _, _, by rw [hbuf, hfull, Nat.add_sub_cancel_left]; exact eq, rfl, ?_⟩
  have count : deleteMarked x.length (x.length + marked.length + q - x.length)
      ⟨x ++ marked ++ cutNext g s post ++ free, t.numFull⟩ =
        ⟨x ++ cutNext g s post ++ stale ++ free, x.length + (cutNext g s post).length⟩ := by
    rw [full, ← deleted]
    cases hq with
    | inl zero =>
      congr 1
      omega
    | inr one =>
      -- the entry the loop stopped in is not marked
      obtain ⟨c, rest, hc⟩ := exists_cons_of_ne_nil one.2
      rw [one.1, show x.length + marked.length + 1 - x.length = marked.length + 1 by omega]
      apply deleteMarked_skips
      have here : bucketAt (x ++ marked ++ cutNext g s post ++ free)
          (x.length + marked.length) = c := by
        have := bucketAt_append (x ++ marked) c (rest ++ free)
        rw [hc]
        simpa using this
      rw [here]
      have := (cutNext_ok hg hs ok c (hc ▸ mem_cons_self ..)).num_nonneg
      omega
  rw [count, zero_add, ← staleLen, ← length_append, clear]
  exact ⟨cleared ++ free, Spare.append unused spare, append_assoc .., rfl⟩

theorem splitPrevious_holds (hg : g.Sound) (h : t.Holds (x ++ p :: y)) (hp : p.Ok g)
    (room : t.numFull + 1 < 2 ^ 30) (cksum : Int) (after : p.start g < e) (he : Edge g e) :
    ∃ t', splitPrevious g t (x.length + 1) p (p.start g) (p.stop g) e cksum = .ok t' ∧
      t'.Holds (x ++ p :: (p.tail g e cksum ++ y)) := by
  have size : p.stop g = p.start g + p.blockSize := rfl
  have := hp.size_lt
  have := hp.end_le
  have := hp.offset_nonneg
  have := hp.offset_lt
  have := hg.size_lt
  have := hg.jhdr_pos
  have := he.lt
  by_cases inside : p.stop g > e
  · have small : e / g.jhdrSize ≤ e := Int.ediv_le_self _ he.pos.le
    have nonneg := Int.ediv_nonneg he.pos.le hg.jhdr_pos.le
    have num : i64 (u64 e / g.jhdrSize) = e / g.jhdrSize := by
      rw [u64_eq he.pos.le (by omega), i64_eq (by omega) (by omega)]
    have rest : u64 (p.stop g - e) = p.stop g - e := u64_eq (by omega) (by omega)
    have rest' : u32 (p.stop g - e) = p.stop g - e := u32_eq (by omega) (by omega)
    have offset : u64 (p.jnlOffset + (e - p.start g)) = p.jnlOffset + (e - p.start g) :=
      u64_eq (by omega) (by omega)
    have wrapped := (wrapOnce_eq hg (x := p.jnlOffset + (e - p.start g)) (by omega) (by omega)).1
    rw [append_cons] at h
    obtain ⟨t', inserted, holds⟩ := insertBlock_holds g h room (e / g.jhdrSize)
      (p.jnlOffset + (e - p.start g)) cksum (Int.sub_pos.mpr inside)
    rw [length_append, length_singleton] at inserted
    rw [wrapped, rest'] at holds
    refine ⟨t', ?_, ?_⟩
    · rw [splitPrevious, if_pos inside, hg.u64_jhdr, num, rest, offset, inserted]
    · simpa [Bucket.tail, Bucket.upper, not_le.mpr inside] using holds
  · refine ⟨t, if_neg inside, ?_⟩
    simpa [Bucket.tail, not_lt.mp inside] using h

theorem cutPrevious_holds (hg : g.Sound) (h : t.Holds (x ++ p :: y)) (hp : p.Ok g)
    (room : t.numFull + 1 < 2 ^ 30) (cksum : Int) (hs : g.jhdrSize ∣ s) (before : p.start g < s)
    (lt : s < e) (he : Edge g e) :
    ∃ t', cutPrevious g t (x.length + 1) s e cksum = .ok t' ∧
      t'.Holds (x ++ p.lower g s :: (p.tail g e cksum ++ y)) := by
  have size : p.stop g = p.start g + p.blockSize := rfl
  obtain ⟨_, nonneg⟩ := Edge.of_start hg hp
  have := he.lt
  have := hp.size_lt
  have := hp.size_pos
  have := hg.size_lt
  have := hg.jhdr_pos
  have here : bucketAt t.buf (x.length + 1 - 1) = p := by
    obtain ⟨free, _, hbuf, _⟩ := h
    rw [hbuf, append_assoc, cons_append, Nat.add_sub_cancel, bucketAt_append]
  have overlap : i64 (p.stop g - s) = p.stop g - s := i64_eq (by omega) (by omega)
  simp only [cutPrevious, here, hg.u64_jhdr, hp.i64_start hg, hp.i64_stop hg, overlap]
  by_cases clear : p.stop g ≤ s
  · rw [if_neg (by omega)]
    refine ⟨t, rfl, ?_⟩
    simpa [Bucket.lower, Bucket.tail, clear, show p.stop g ≤ e by omega] using h
  have aligned := not_not.mpr (Int.emod_eq_zero_of_dvd (dvd_sub (hp.stop_dvd hg) hs))
  have kept : u32 (s - p.start g) = s - p.start g := u32_eq (by omega) (by omega)
  have lower : p.lower g s = { p with blockSize := s - p.start g, cksum := 0 } := if_neg clear
  obtain ⟨t', split, free, spare, hbuf, hfull⟩ :=
    splitPrevious_holds hg h hp room cksum (lt_trans before lt) he
  rw [if_pos (by omega), if_neg aligned, kept, ← lower, split]
  refine ⟨_, rfl, free, spare, ?_, ?_⟩
  · simp only [hbuf, Nat.add_sub_cancel, append_assoc, cons_append, set_append]
  · simp [hfull]

/-- Live buckets: each in order, none touching the next. -/
structure Live (g : Geometry) (l : List Bucket) : Prop where
  ok : ∀ b ∈ l, b.Ok g
  ordered : l.Pairwise fun a b => a.stop g ≤ b.start g

/-- What a call says: a block number that is not negative and a size in whole units of the
header size. -/
structure Call.Sized (g : Geometry) (c : Call) : Prop where
  num_nonneg : 0 ≤ c.blockNum
  size_pos : 0 < c.size
  size_dvd : g.jhdrSize ∣ c.size

def Call.start (g : Geometry) (c : Call) : Int := c.blockNum * g.jhdrSize

def Call.stop (g : Geometry) (c : Call) : Int := c.start g + c.size

/-- The block ends below `2 ^ 63` bytes, and in the journal no more than one round past the
end. -/
structure Call.Fits (g : Geometry) (c : Call) : Prop where
  stop_lt : c.stop g < 2 ^ 63
  size_lt : c.size < 2 ^ 32
  offset_nonneg : 0 ≤ c.offset
  end_le : c.offset + c.size ≤ 2 * g.size - g.jhdrSize

def Call.bucket (g : Geometry) (c : Call) : Bucket :=
  ⟨c.blockNum, circular g c.offset, c.size, c.cksum⟩

theorem cutNext_length_le (g : Geometry) (s : Int) (post : List Bucket) :
    (cutNext g s post).length ≤ post.length := by
  induction post with
  | nil => exact le_refl _
  | cons b rest ih =>
    unfold cutNext
    split_ifs
    · exact le_refl _
    · exact Nat.le_succ_of_le ih
    · exact le_refl _

theorem cutFollowing_holds (hg : g.Sound) (he : Edge g e) (h : t.Holds (x ++ rest))
    (ok : ∀ b ∈ rest, b.Ok g) (ordered : rest.Pairwise fun a b => a.stop g ≤ b.start g)
    (cksum : Int) :
    ∃ t', cutFollowing g t x.length e cksum false = .ok (t', false) ∧
      t'.Holds (x ++ cutNext g e rest) := by
  obtain ⟨buf, index, r, t', looped, deleted, holds⟩ := loops_hold hg he h ok ordered
  by_cases clear : e ≤ i64 ((bucketAt t.buf x.length).blockNum * u64 g.jhdrSize)
  · refine ⟨t, by simp [cutFollowing, clear], ?_⟩
    -- the loop would not have found anything either
    cases rest with
    | nil => exact h
    | cons b rest =>
      have here : bucketAt t.buf x.length = b := by
        obtain ⟨free, _, hbuf, _⟩ := h
        rw [hbuf, append_assoc, cons_append, bucketAt_append]
      rw [here, hg.u64_jhdr, (ok b (mem_cons_self ..)).i64_start hg] at clear
      rwa [cutNext, if_pos clear]
  · refine ⟨_, ?_, holds⟩
    simp [cutFollowing, clear, looped, deleted, bind, Except.bind]

theorem cutFollowing_overwrites (hg : g.Sound) (he : Edge g e) {y : List Bucket}
    (h : t.Holds (x ++ b :: y)) (ok : ∀ a ∈ b :: y, a.Ok g)
    (ordered : (b :: y).Pairwise fun a b => a.stop g ≤ b.start g) (covered : b.stop g ≤ e)
    (cksum : Int) :
    ∃ t' overwriting, cutFollowing g t x.length e cksum true = .ok (t', overwriting) ∧
      (overwriting = false ∧ t'.Holds (x ++ cutNext g e (b :: y)) ∨
        overwriting = true ∧ ∃ b', t'.Holds (x ++ b' :: cutNext g e (b :: y))) := by
  obtain ⟨buf, index, r, t', looped, deleted, holds⟩ := loops_hold hg he h ok ordered
  have pos := (ok b (mem_cons_self ..)).size_pos
  have size : b.stop g = b.start g + b.blockSize := rfl
  have next : cutNext g e (b :: y) = cutNext g e y := by
    rw [cutNext, if_neg (by omega), if_pos covered]
  by_cases simple : x.length + 1 ≥ t.numFull ∨
      e ≤ i64 ((bucketAt t.buf (x.length + 1)).blockNum * u64 g.jhdrSize)
  · refine ⟨⟨t.buf.set x.length { bucketAt t.buf x.length with cksum := cksum }, t.numFull⟩, true,
      ?_, .inr ⟨rfl, { b with cksum := cksum }, ?_⟩⟩
    · simp [cutFollowing, if_pos simple]
    obtain ⟨free, spare, hbuf, hfull⟩ := h
    have here : bucketAt t.buf x.length = b := by
      rw [hbuf, append_assoc, cons_append, bucketAt_append]
    -- either there is no following entry or the block ends before it
    have clear : cutNext g e y = y := by
      cases y with
      | nil => rfl
      | cons c y =>
        have hc : bucketAt t.buf (x.length + 1) = c := by
          have := bucketAt_append (x ++ [b]) c (y ++ free)
          rw [hbuf]
          simpa using this
        rw [hc, hg.u64_jhdr, (ok c (by simp)).i64_start hg, hfull] at simple
        simp only [length_append, length_cons] at simple
        exact if_pos (by omega)
    refine ⟨free, spare, ?_, ?_⟩
    · rw [here, hbuf, append_assoc, cons_append, set_append, next, clear]
      simp
    · rw [hfull, next, clear]
      simp
  · refine ⟨⟨clearStale t'.buf t'.numFull r, t'.numFull⟩, false, ?_, .inl ⟨rfl, holds⟩⟩
    simp [cutFollowing, if_neg simple, looped, deleted, bind, Except.bind]

/-- What the entries before the block's number keep. -/
def Call.lowers (g : Geometry) (c : Call) (pre : List Bucket) : List Bucket :=
  pre.map (Bucket.lower g (c.start g))

/-- What is left behind the block, of the entries before its number and of the others. -/
def Call.uppers (g : Geometry) (c : Call) (pre post : List Bucket) : List Bucket :=
  cutNext g (c.stop g) (pre.flatMap (Bucket.tail g (c.stop g) c.cksum) ++ post)

theorem Call.lowers_clear (c : Call) (clear : ∀ b ∈ pre, b.stop g ≤ c.start g) :
    c.lowers g pre = pre := by
  have same : ∀ b ∈ pre, b.lower g (c.start g) = id b := fun b hb => if_pos (clear b hb)
  rw [Call.lowers, map_congr_left same, map_id]

theorem tails_clear {s cksum : Int} (clear : ∀ b ∈ pre, b.stop g ≤ s) :
    pre.flatMap (Bucket.tail g s cksum) = [] :=
  flatMap_eq_nil_iff.mpr fun b hb => if_pos (clear b hb)

theorem Call.uppers_clear (c : Call) (post : List Bucket)
    (clear : ∀ b ∈ pre, b.stop g ≤ c.stop g) : c.uppers g pre post = cutNext g (c.stop g) post := by
  rw [Call.uppers, tails_clear clear, nil_append]

theorem tail_live (hg : g.Sound) (he : Edge g e) (hp : p.Ok g) (after : p.start g < e)
    (cksum : Int) {post : List Bucket} (ok : ∀ b ∈ post, b.Ok g)
    (ordered : post.Pairwise fun a b => a.stop g ≤ b.start g)
    (later : ∀ b ∈ post, p.stop g ≤ b.start g) :
    (∀ b ∈ p.tail g e cksum ++ post, b.Ok g) ∧
      (p.tail g e cksum ++ post).Pairwise fun a b => a.stop g ≤ b.start g := by
  unfold Bucket.tail
  split_ifs with covered
  · exact ⟨ok, ordered⟩
  constructor
  · intro b hb
    cases mem_cons.mp hb with
    | inl h => exact h ▸ upper_ok hg he hp after (by omega)
    | inr h => exact ok b h
  · refine pairwise_cons.mpr ⟨fun b hb => ?_, ordered⟩
    rw [upper_stop he]
    exact later b hb

theorem Call.edge (hg : g.Sound) (sized : c.Sized g) (fits : c.Fits g) :
    Edge g (c.stop g) ∧ g.jhdrSize ∣ c.start g ∧ 0 ≤ c.start g := by
  have dvd : g.jhdrSize ∣ c.start g := Dvd.intro_left _ rfl
  have nonneg : 0 ≤ c.start g := mul_nonneg sized.num_nonneg hg.jhdr_pos.le
  have stop : c.stop g = c.start g + c.size := rfl
  have := sized.size_pos
  exact ⟨⟨by omega, fits.stop_lt, dvd_add dvd sized.size_dvd⟩, dvd, nonneg⟩

theorem Call.bucket_ok (hg : g.Sound) (sized : c.Sized g) (fits : c.Fits g) :
    (c.bucket g).Ok g := by
  have := sized.size_pos
  have := fits.end_le
  obtain ⟨_, low, high, le⟩ := wrapOnce_eq hg fits.offset_nonneg (by omega)
  exact {
    num_nonneg := sized.num_nonneg
    size_pos := sized.size_pos
    size_dvd := sized.size_dvd
    stop_lt := fits.stop_lt
    offset_nonneg := low
    offset_lt := high
    size_lt := fits.size_lt
    end_le := by simp only [Call.bucket]; omega }

theorem Call.bucket_eq (hg : g.Sound) (sized : c.Sized g) (fits : c.Fits g) :
    ⟨c.blockNum, u32 (wrapOnce g c.offset), u32 c.size, c.cksum⟩ = c.bucket g := by
  have := sized.size_pos
  have := fits.end_le
  rw [(wrapOnce_eq hg fits.offset_nonneg (by omega)).1, u32_eq (by omega) fits.size_lt]
  rfl

theorem Call.before (hg : g.Sound) (h : b.blockNum < c.blockNum) :
    b.start g < c.start g :=
  mul_lt_mul_of_pos_right h hg.jhdr_pos

/-- Only the last entry before the block's number can reach into the block. -/
theorem Call.previous (hg : g.Sound) (sized : c.Sized g) (fits : c.Fits g)
    (live : Live g (x ++ [p] ++ post)) (less : ∀ b ∈ x ++ [p], b.blockNum < c.blockNum) :
    c.lowers g (x ++ [p]) = x ++ [p.lower g (c.start g)] ∧
      (x ++ [p]).flatMap (Bucket.tail g (c.stop g) c.cksum) = p.tail g (c.stop g) c.cksum ∧
      (∀ b ∈ p.tail g (c.stop g) c.cksum ++ post, b.Ok g) ∧
      (p.tail g (c.stop g) c.cksum ++ post).Pairwise fun a b => a.stop g ≤ b.start g := by
  have stop : c.stop g = c.start g + c.size := rfl
  have pos := sized.size_pos
  have hp : p ∈ x ++ [p] := mem_append_right _ (mem_singleton.mpr rfl)
  have before := Call.before hg (less p hp)
  obtain ⟨ordPre, ordPost, ordBoth⟩ := pairwise_append.mp live.ordered
  obtain ⟨okPre, okPost⟩ := forall_mem_append.mp live.ok
  have clear : ∀ a ∈ x, a.stop g ≤ c.start g := fun a ha =>
    le_trans ((pairwise_append.mp ordPre).2.2 a ha p (mem_singleton.mpr rfl)) before.le
  refine ⟨?_, ?_, tail_live hg (Call.edge hg sized fits).1 (okPre p hp) (by omega) c.cksum okPost
    ordPost (ordBoth p hp)⟩
  · rw [Call.lowers, map_append, ← Call.lowers, c.lowers_clear clear]
    rfl
  · rw [flatMap_append, tails_clear fun a ha => le_trans (clear a ha) (by omega)]
    simp

/-- An entry that is overwritten is the first from the block's number on, begins where it begins
and is covered. -/
theorem Call.overwritten (sized : c.Sized g) (h : t.Holds (pre ++ post))
    (hover : overwrites t pre.length c.blockNum c.size = true) :
    ∃ b y, post = b :: y ∧ b.start g = c.start g ∧ b.stop g ≤ c.stop g := by
  obtain ⟨free, spare, hbuf, hfull⟩ := h
  cases post with
  | nil =>
    obtain ⟨f, free', rfl⟩ := exists_cons_of_ne_nil spare.nonempty
    have here : bucketAt t.buf pre.length = f := by
      rw [hbuf, append_nil, bucketAt_append]
    have unused := spare.unused f (mem_cons_self ..)
    have nonneg := sized.num_nonneg
    simp only [overwrites, here, unused, Bool.and_eq_true, decide_eq_true_eq] at hover
    omega
  | cons b y =>
    have here : bucketAt t.buf pre.length = b := by
      rw [hbuf, append_assoc, cons_append, bucketAt_append]
    simp only [overwrites, here, Bool.and_eq_true, decide_eq_true_eq] at hover
    have same : b.start g = c.start g := by rw [Bucket.start, Call.start, hover.1]
    refine ⟨b, y, rfl, same, ?_⟩
    rw [Bucket.stop, Call.stop, same]
    omega

/-- The two parts of `do_overlap`, for a call that divides the live buckets into `pre` and
`post`. -/
theorem doOverlap_holds (hg : g.Sound) (sized : c.Sized g) (fits : c.Fits g)
    (h : t.Holds (pre ++ post)) (live : Live g (pre ++ post)) (room : t.numFull + 1 < 2 ^ 30)
    (less : ∀ b ∈ pre, b.blockNum < c.blockNum) (rest : ∀ b ∈ post, c.blockNum ≤ b.blockNum) :
    ∃ t' overwriting, doOverlap g t pre.length c.blockNum c.size c.cksum = .ok (t', overwriting) ∧
      (overwriting = false ∧ t'.Holds (c.lowers g pre ++ c.uppers g pre post) ∨
        overwriting = true ∧ ∃ b, t'.Holds (c.lowers g pre ++ b :: c.uppers g pre post)) := by
  obtain ⟨edge, dvd, nonneg⟩ := Call.edge hg sized fits
  have stop : c.stop g = c.start g + c.size := rfl
  have pos := sized.size_pos
  have start64 : i64 (c.blockNum * g.jhdrSize) = c.start g :=
    i64_eq (by unfold Call.start at *; have := edge.lt; omega)
      (by unfold Call.start at *; have := edge.lt; omega)
  have stop64 : i64 (c.start g + c.size) = c.stop g :=
    i64_eq (by have := edge.lt; omega) (by have := edge.lt; omega)
  obtain ⟨okPre, okPost⟩ : (∀ b ∈ pre, b.Ok g) ∧ ∀ b ∈ post, b.Ok g :=
    forall_mem_append.mp live.ok
  obtain ⟨ordPre, ordPost, ordBoth⟩ := pairwise_append.mp live.ordered
  simp only [doOverlap, hg.u64_jhdr, start64, stop64]
  cases hover : overwrites t pre.length c.blockNum c.size with
  | true =>
    obtain ⟨b, y, rfl, same, covered⟩ := Call.overwritten (g := g) sized h hover
    have clear : ∀ a ∈ pre, a.stop g ≤ c.start g := fun a ha =>
      same ▸ ordBoth a ha b (mem_cons_self ..)
    rw [if_neg (by simp), c.lowers_clear clear,
      c.uppers_clear _ fun a ha => le_trans (clear a ha) (by omega)]
    exact cutFollowing_overwrites hg edge h okPost ordPost covered c.cksum
  | false =>
    rcases eq_nil_or_concat' pre with rfl | ⟨x, p, rfl⟩
    · rw [if_neg (by simp)]
      obtain ⟨t', cut, holds⟩ := cutFollowing_holds hg edge h okPost ordPost c.cksum
      exact ⟨t', false, cut, .inl ⟨rfl, holds⟩⟩
    have hp : p ∈ x ++ [p] := mem_append_right _ (mem_singleton.mpr rfl)
    obtain ⟨lowers, tails, okTail, ordTail⟩ := Call.previous hg sized fits live less
    rw [← append_cons] at h
    obtain ⟨t₁, previous, h₁⟩ := cutPrevious_holds hg h (okPre p hp) room c.cksum dvd
      (Call.before hg (less p hp)) (by omega) edge
    rw [append_cons] at h₁
    obtain ⟨t', cut, holds⟩ := cutFollowing_holds hg edge h₁ okTail ordTail c.cksum
    rw [length_append, length_singleton] at cut ⊢
    refine ⟨t', false, ?_, .inl ⟨rfl, ?_⟩⟩
    · rw [if_pos (by simp), previous]
      exact cut
    · rw [lowers, Call.uppers, tails]
      exact holds

end XnuXzs.Journal
