import Mathlib.Data.List.TakeWhile
import XnuXzs.Tcp.SackSweep

/-!
# Before the sweep

The blocks are gathered and sorted by their ends, and the highest one may advance
`snd_fack`, with a new hole if it begins behind it.
-/

namespace XnuXzs.Tcp

open Lib List

variable {una : UInt32} {x : Block} {xs : List Block}

theorem sortPass_perm (x : Block) (xs : List Block) :
    ((sortPass x xs).1 :: (sortPass x xs).2).Perm (x :: xs) := by
  induction xs generalizing x with
  | nil => exact .refl _
  | cons y ys ih =>
    rw [sortPass]
    split
    · exact (List.Perm.swap _ _ _).trans ((ih y).cons x)
    · exact (List.Perm.swap _ _ _).trans (((ih x).cons y).trans (List.Perm.swap _ _ _))

theorem sortPass_least (hnear : ∀ b ∈ x :: xs, Near una b.stop) :
    ∀ b ∈ x :: xs, off una (sortPass x xs).1.stop ≤ off una b.stop := by
  induction xs generalizing x with
  | nil => simp [sortPass]
  | cons y ys ih =>
    obtain ⟨hx, hy, hys⟩ := (forall_mem_cons.trans (and_congr_right' forall_mem_cons)).mp hnear
    have hgt := seqGt_iff' hx hy
    rw [sortPass]
    split_ifs with h
    · have hle := ih (forall_mem_cons.mpr ⟨hy, hys⟩)
      have hfirst := hle y mem_cons_self
      refine forall_mem_cons.mpr ⟨?_, hle⟩
      exact hfirst.trans (hgt.mp h).le
    · have hle := ih (forall_mem_cons.mpr ⟨hx, hys⟩)
      have hfirst := hle x mem_cons_self
      refine forall_mem_cons.mpr ⟨hfirst, forall_mem_cons.mpr ⟨?_, ?_⟩⟩
      · exact hfirst.trans (not_lt.mp fun hlt => h (hgt.mpr hlt))
      · exact fun b hb => hle b (mem_cons_of_mem x hb)

theorem sortBlocks_perm (xs : List Block) : (sortBlocks xs).Perm xs := by
  induction xs using sortBlocks.induct with
  | case1 => rw [sortBlocks]
  | case2 x xs ih =>
    rw [sortBlocks]
    exact (ih.cons _).trans (sortPass_perm x xs)

theorem sortBlocks_sorted (hnear : ∀ b ∈ xs, Near una b.stop) :
    (sortBlocks xs).Pairwise fun b b' => off una b.stop ≤ off una b'.stop := by
  induction xs using sortBlocks.induct with
  | case1 =>
    rw [sortBlocks]
    exact .nil
  | case2 x xs ih =>
    have hperm := sortPass_perm x xs
    rw [sortBlocks]
    refine .cons ?_ (ih fun b hb => hnear b (hperm.subset (mem_cons_of_mem _ hb)))
    intro b hb
    have hb' := (sortBlocks_perm _).subset hb
    exact sortPass_least hnear b (hperm.subset (mem_cons_of_mem _ hb'))

/-- A block inside of the window. -/
def Block.Ok (una sndMax : UInt32) (b : Block) : Prop :=
  off una b.start < off una b.stop ∧ off una b.stop ≤ off una sndMax

/-- The blocks of the segment that count. -/
def validBlocks (b : Board) (ack : UInt32) (sacks : List Block) : List Block :=
  sacks.filter (validBlock b ack)

variable {b : Board} {ack : UInt32} {sacks : List Block} {s : Block}

/-- Any 32-bit number that compares as less than `y` and greater than `una`. -/
theorem off_of_between {una x y : UInt32} (hy : Near una y) (hgt : 0 < seqDiff x una)
    (hle : seqDiff x y ≤ 0) : off una x ≤ off una y := by
  have hux := una.toNat_lt
  unfold Near at hy
  rw [off_eq] at hy ⊢
  rw [off_eq]
  unfold seqDiff i32 at hgt hle
  omega

theorem validBlock_ok (hmax : Near b.sndUna b.sndMax) (h : validBlock b ack s = true) :
    s.Ok b.sndUna b.sndMax := by
  simp only [validBlock, seqGt, seqLt, seqLeq, Bool.and_eq_true, decide_eq_true_eq] at h
  obtain ⟨⟨⟨⟨⟨hpos, hstart⟩, -⟩, hstart'⟩, hstop⟩, hstop'⟩ := h
  have hle := off_of_between hmax hstart hstart'.le
  have hle' := off_of_between hmax hstop hstop'
  have hnear := lt_of_le_of_lt hle hmax
  have hnear' := lt_of_le_of_lt hle' hmax
  rw [seqDiff_off hnear' hnear] at hpos
  exact ⟨by omega, hle'⟩

/-- The cumulative acknowledgement is in the window. -/
structure AckOk (b : Board) (ack : UInt32) : Prop where
  window : Near b.sndUna b.sndMax
  ack : off b.sndUna ack ≤ off b.sndUna b.sndMax

theorem AckOk.near (h : AckOk b ack) : Near b.sndUna ack := lt_of_le_of_lt h.ack h.window

theorem near_una (una : UInt32) : Near una una := by
  rw [Near, off_self]
  decide

theorem AckOk.advances (h : AckOk b ack) : seqLt b.sndUna ack = true ↔ 0 < off b.sndUna ack := by
  rw [seqLt_iff (near_una _) h.near, off_self]

theorem gatherBlocks_ok (h : AckOk b ack) (hs : s ∈ gatherBlocks b ack sacks) :
    s.Ok b.sndUna b.sndMax := by
  rcases mem_append.mp hs with hs | hs
  · split_ifs at hs with hlt
    · obtain rfl := mem_singleton.mp hs
      refine ⟨?_, h.ack⟩
      rw [off_self]
      exact h.advances.mp hlt.1
    · cases hs
  · exact validBlock_ok h.window (mem_filter.mp hs).2

/-- If there are holes, the blocks cover what the segment acknowledges. -/
theorem covered_gather (h : AckOk b ack) (hne : b.holes ≠ []) {x : Nat} :
    Covered b.sndUna (gatherBlocks b ack sacks) x ↔
      x < off b.sndUna ack ∨ Covered b.sndUna (validBlocks b ack sacks) x := by
  have hsplit : Covered b.sndUna (gatherBlocks b ack sacks) x ↔
      Covered b.sndUna (if seqLt b.sndUna ack ∧ b.holes ≠ [] then [⟨b.sndUna, ack⟩] else []) x ∨
        Covered b.sndUna (validBlocks b ack sacks) x := by
    simp [Covered, gatherBlocks, validBlocks, or_and_right, exists_or]
  rw [hsplit]
  apply or_congr_left
  by_cases hlt : seqLt b.sndUna ack = true
  · rw [if_pos ⟨hlt, hne⟩, covered_cons]
    simp [Block.Has, off_self]
  rw [if_neg fun hc => hlt hc.1]
  rw [h.advances] at hlt
  constructor
  · exact fun hc => absurd hc covered_nil
  · omega

theorem gather_noHoles (hne : b.holes = []) :
    gatherBlocks b ack sacks = validBlocks b ack sacks := by
  rw [gatherBlocks, if_neg fun hc => hc.2 hne]
  rfl

/-- What the call is about: the bytes of the holes, and those `snd_fack` has passed. -/
def Region (una fack fack' : UInt32) (holes : List Hole) (x : Nat) : Prop :=
  InHoles una holes x ∨ off una fack ≤ x ∧ x < off una fack'

structure Started (una : UInt32) (lim : Nat) (total : UInt32) (sum : Prop) (fack : UInt32)
    (holes : List Hole) (blocks : List Block) (s : Start) : Prop where
  ge : off una fack ≤ off una s.fack
  le : off una s.fack ≤ lim
  ordered : Ordered una 0 (off una s.fack) s.holes
  fits : Fits una (total + UInt32.ofNat (off una s.fack - off una fack)) sum s.holes s.tally
  sub : s.blocks.Sublist blocks
  within : ∀ x, InHoles una s.holes x → Region una fack s.fack holes x
  keeps : ∀ x, Region una fack s.fack holes x → ¬Covered una blocks x → InHoles una s.holes x
  clean : ∀ b ∈ blocks, Sure una s.tally b → ∀ x, InHoles una s.holes x → b.Has una x → b ∈ s.blocks

variable {fack total : UInt32} {lim n s r : Nat} {sum : Prop} {holes : List Hole}
  {blocks : List Block} {b : Block} {t : Tally}

theorem Tally.Counts.grow (c : t.Counts total sum n s r) (d : Nat) :
    t.Counts (total + UInt32.ofNat d) sum n (s + d) r := by
  refine { c with bytes := ?_ }
  rw [UInt32.ofNat_add, ← UInt32.add_assoc, c.bytes]

/-- Bytes that are counted and were in no hole make the sum grow. -/
theorem Tally.Counts.countNew {start stop : UInt32} (hle : off una start ≤ off una stop)
    (c : t.Counts total sum n s r) :
    (t.count start stop).Counts (total + UInt32.ofNat (off una stop - off una start)) sum n s r :=
  (c.grow _).count hle

theorem started_same (hlim : off una fack ≤ lim) (hord : Ordered una 0 (off una fack) holes)
    (hfits : Fits una total sum holes t) :
    Started una lim total sum fack holes blocks ⟨fack, holes, blocks, t⟩ := by
  constructor
  · exact le_rfl
  · exact hlim
  · exact hord
  · simpa using hfits
  · exact .refl _
  · exact fun x hx => .inl hx
  · rintro x (hin | ⟨hge, hlt⟩) _
    · exact hin
    · exact absurd hlt (not_lt.mpr hge)
  · exact fun b hb _ _ _ _ => hb

theorem advanceFack_started (hlim : off una fack ≤ lim) (hnear : lim < 2 ^ 31)
    (hord : Ordered una 0 (off una fack) holes) (hfits : Fits una total sum holes t)
    (hstop : ∀ b ∈ blocks, off una b.stop ≤ lim)
    (hstart : ∀ b, blocks.head? = some b → off una b.start ≤ off una fack) :
    Started una lim total sum fack holes blocks (advanceFack fack holes blocks t) := by
  cases blocks with
  | nil => exact started_same hlim hord hfits
  | cons s rest =>
    have hs := hstop s mem_cons_self
    rw [advanceFack]
    split_ifs with hlt
    · rw [seqLt_iff (lt_of_le_of_lt hlim hnear) (lt_of_le_of_lt hs hnear)] at hlt
      constructor
      · exact hlt.le
      · exact hs
      · exact hord.weaken le_rfl hlt.le
      · exact Tally.Counts.countNew hlt.le hfits
      · exact .refl _
      · exact fun x hx => .inl hx
      · rintro x (hin | ⟨hge, hlt'⟩) hnot
        · exact hin
        · exact absurd (covered_cons.mpr (.inl ⟨(hstart s rfl).trans hge, hlt'⟩)) hnot
      · exact fun b hb _ _ _ _ => hb
    · exact started_same hlim hord hfits

theorem started_newHole (hord : Ordered una 0 (off una fack) holes) {t' : Tally} {now : UInt32}
    {rest : List Block} (hlt : off una fack < off una b.start)
    (hb : off una b.start < off una b.stop) (hlim : off una b.stop ≤ lim)
    (c : t'.Counts total sum (holes.length + 1) (size una holes) (rexmit holes)) :
    Started una lim total sum fack holes (b :: rest)
      ⟨b.stop, holes ++ [⟨fack, b.start, fack, now⟩], rest, t'.count b.start b.stop⟩ := by
  have hnew : HoleOk una ⟨fack, b.start, fack, now⟩ := ⟨hlt, le_rfl, hlt.le⟩
  constructor
  · exact (hlt.trans hb).le
  · exact hlim
  · exact ordered_append.mpr ⟨_, hord, le_rfl, hnew, hb.le⟩
  · have hsize : size una (holes ++ [⟨fack, b.start, fack, now⟩]) +
      (off una b.stop - off una b.start) =
        size una holes + (off una b.stop - off una fack) := by
      simp only [size_append, size_cons, size_nil, holeSize]
      omega
    have hgrown := c.grow (off una b.stop - off una fack)
    rw [← hsize] at hgrown
    simpa [Fits, Hole.rexmitted] using hgrown.count hb.le
  · exact sublist_cons_self b rest
  · intro x hx
    rcases inHoles_append.mp hx with hin | hin
    · exact .inl hin
    · rcases inHoles_cons.mp hin with hhas | hin
      · exact .inr ⟨hhas.1, hhas.2.trans hb⟩
      · exact absurd hin inHoles_nil
  · rintro x (hin | ⟨hge, hlt'⟩) hnot
    · exact inHoles_append.mpr (.inl hin)
    · refine inHoles_append.mpr (.inr (inHoles_cons.mpr (.inl ⟨hge, ?_⟩)))
      by_contra hnlt
      exact hnot (covered_cons.mpr (.inl ⟨not_lt.mp hnlt, hlt'⟩))
  · intro b' hb' _ x hx hhas
    rcases mem_cons.mp hb' with rfl | hmem
    · have hall : Ordered una 0 (off una b'.start) (holes ++ [⟨fack, b'.start, fack, now⟩]) :=
        ordered_append.mpr ⟨_, hord, le_rfl, hnew, le_rfl⟩
      exact absurd (hall.bounds hx).2 (not_lt.mpr hhas.1)
    · exact hmem

theorem advanceFack_failed (fack : UInt32) (holes : List Hole) (blocks : List Block) (t : Tally) :
    (advanceFack fack holes blocks t).tally.failed = t.failed := by
  cases blocks with
  | nil => rfl
  | cons s rest =>
    rw [advanceFack]
    split <;> rfl

/-- Blocks that are skipped do not matter, if they are not sure to be taken out. -/
theorem Started.skip {blocks' : List Block} {s : Start}
    (h : Started una lim total sum fack holes blocks' s) (hsub : blocks'.Sublist blocks)
    (hskip : ∀ b ∈ blocks, Sure una s.tally b → b ∈ blocks') :
    Started una lim total sum fack holes blocks s := by
  constructor
  · exact h.ge
  · exact h.le
  · exact h.ordered
  · exact h.fits
  · exact h.sub.trans hsub
  · exact h.within
  · intro x hx hnot
    apply h.keeps x hx
    rintro ⟨b, hb, hhas⟩
    exact hnot ⟨b, hsub.subset hb, hhas⟩
  · exact fun b hb hsure x hx hhas => h.clean b (hskip b hb hsure) hsure x hx hhas

theorem mem_dropWhile {α : Type} {p : α → Bool} {x : α} {l : List α} (hx : x ∈ l)
    (hp : ¬p x = true) :
    x ∈ l.dropWhile p := by
  rw [← takeWhile_append_dropWhile (p := p) (l := l)] at hx
  rcases mem_append.mp hx with htake | hdrop
  · exact absurd (mem_takeWhile_imp htake) hp
  · exact hdrop

/-- Without a new hole, the blocks behind `snd_fack` are skipped. -/
theorem started_skipped (hlim : off una fack ≤ lim) (hnear : lim < 2 ^ 31)
    (hord : Ordered una 0 (off una fack) holes) (hfits : Fits una total sum holes t)
    (hfailed : t.failed = true)
    (hblocks : ∀ b ∈ blocks, off una b.start < off una b.stop ∧ off una b.stop ≤ lim) :
    Started una lim total sum fack holes blocks
      (advanceFack fack holes (blocks.dropWhile fun b => seqLt fack b.start) t) := by
  have hsub := dropWhile_sublist (l := blocks) fun b => seqLt fack b.start
  have hlt : ∀ b ∈ blocks, (seqLt fack b.start = true ↔ off una fack < off una b.start) :=
    fun b hb =>
    seqLt_iff (lt_of_le_of_lt hlim hnear)
      ((hblocks b hb).1.trans (lt_of_le_of_lt (hblocks b hb).2 hnear))
  have hstarted : Started una lim total sum fack holes (blocks.dropWhile fun b =>
    seqLt fack b.start)
      (advanceFack fack holes (blocks.dropWhile fun b => seqLt fack b.start) t) := by
    apply advanceFack_started hlim hnear hord hfits fun b hb => (hblocks b (hsub.subset hb)).2
    intro b hb
    have hnot := head?_dropWhile_not (fun b => seqLt fack b.start) blocks
    rw [hb] at hnot
    have hmem := hsub.subset (mem_of_mem_head? hb)
    exact not_lt.mp fun hlt' => by simp [(hlt b hmem).mpr hlt'] at hnot
  apply hstarted.skip hsub
  rintro b hb (hok | hzero)
  · rw [advanceFack_failed, hfailed] at hok
    cases hok
  · apply mem_dropWhile hb
    rw [hlt b hb]
    omega

theorem startSweep_started {env : Env} (hmax : env.maxholes < 2 ^ 15) (hlim : off una fack ≤ lim)
    (hnear : lim < 2 ^ 31) (hord : Ordered una 0 (off una fack) holes)
    (hfits : Fits una total sum holes t)
    (hblocks : ∀ b ∈ blocks, off una b.start < off una b.stop ∧ off una b.stop ≤ lim) :
    Started una lim total sum fack holes blocks (startSweep env fack holes blocks t) := by
  cases blocks with
  | nil => exact started_same hlim hord hfits
  | cons s rest =>
    have hfack := lt_of_le_of_lt hlim hnear
    have hstarts : ∀ b ∈ s :: rest, Near una b.start := fun b hb =>
      (hblocks b hb).1.trans (lt_of_le_of_lt (hblocks b hb).2 hnear)
    have hs := hblocks s mem_cons_self
    rw [startSweep]
    split_ifs with hlt
    · rw [seqLt_iff hfack (hstarts s mem_cons_self)] at hlt
      obtain ⟨t', halloc, c, hfailed⟩ | ⟨t', halloc, c, -⟩ :=
        sackholeAlloc_spec hmax hfits fack s.start
      · rw [halloc]
        exact started_skipped hlim hnear hord c hfailed hblocks
      · rw [halloc]
        exact started_newHole hord hlt hs.1 hs.2 c
    · apply advanceFack_started hlim hnear hord hfits fun b hb => (hblocks b hb).2
      rintro b ⟨⟩
      exact not_lt.mp fun hlt' => hlt ((seqLt_iff hfack (hstarts s mem_cons_self)).mpr hlt')

end XnuXzs.Tcp
