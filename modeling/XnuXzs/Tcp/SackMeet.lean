import XnuXzs.Tcp.Scoreboard

/-!
# A block meets a hole

What the body of the sweep does to one hole and to the counters: how many holes there are, how
many bytes they have, and how many are retransmitted.
-/

namespace XnuXzs.Tcp

open Lib

/-- The counters fit to `n` holes of `s` bytes, `r` of them retransmitted. Bytes that leave
the holes are counted, the sum staying at `total`; `sum` says whether `sack_bytes_rexmit` was
right. -/
structure Tally.Counts (t : Tally) (total : UInt32) (sum : Prop) (n s r : Nat) : Prop where
  numholes : t.numholes = n
  few : n < 2 ^ 15
  bytes : t.newbytes + UInt32.ofNat s = total
  rexmit : sum → t.bytesRexmit = r

variable {t : Tally} {total oldFack : UInt32} {sum : Prop} {una : UInt32} {n s r : Nat} {h : Hole}
  {env : Env}

theorem Tally.Counts.subRexmit (c : t.Counts total sum n s (r + h.rexmitted.toNat))
    (hr : r + h.rexmitted.toNat < 2 ^ 31) : (t.subRexmit h).Counts total sum n s r := by
  constructor
  · exact c.numholes
  · exact c.few
  · exact c.bytes
  intro hsum
  have hb := c.rexmit hsum
  have hsub : i32 (t.bytesRexmit - h.rexmitted.toNat) = r := by
    rw [hb, i32_eq] <;> omega
  simp only [Tally.subRexmit, hsub]
  rw [if_neg (by omega)]

theorem Tally.Counts.addRexmit (c : t.Counts total sum n s r)
    (hr : r + h.rexmitted.toNat < 2 ^ 31) :
    (t.addRexmit h).Counts total sum n s (r + h.rexmitted.toNat) := by
  constructor
  · exact c.numholes
  · exact c.few
  · exact c.bytes
  intro hsum
  have hb := c.rexmit hsum
  simp only [Tally.addRexmit, hb]
  rw [i32_eq] <;> omega

theorem Tally.Counts.count {start stop : UInt32} (hle : off una start ≤ off una stop)
    (c : t.Counts total sum n (s + (off una stop - off una start)) r) :
    (t.count start stop).Counts total sum n s r := by
  constructor
  · exact c.numholes
  · exact c.few
  · have hd : stop - start = UInt32.ofNat (off una stop - off una start) := by
      rw [← toNat_sub_off hle, UInt32.ofNat_toNat]
    rw [← c.bytes, Tally.count, hd, UInt32.ofNat_add, UInt32.add_assoc,
      UInt32.add_comm (UInt32.ofNat s)]
  · exact c.rexmit

theorem Tally.Counts.withReorder (c : t.Counts total sum n s r) (o : Reorder) :
    Tally.Counts { t with reorder := o } total sum n s r :=
  ⟨c.numholes, c.few, c.bytes, c.rexmit⟩

theorem Tally.Counts.remove (c : t.Counts total sum (n + 1) s r) :
    Tally.Counts { t with numholes := i16 (t.numholes - 1) } total sum n s r := by
  have hn := c.numholes
  have hfew := c.few
  constructor
  · dsimp only
    rw [hn, i16_eq] <;> omega
  · omega
  · exact c.bytes
  · exact c.rexmit

/-- Either there is no new hole, and this is remembered, or there is one more. -/
theorem sackholeAlloc_spec (hmax : env.maxholes < 2 ^ 15) (c : t.Counts total sum n s r)
    (start stop : UInt32) :
    (∃ t', sackholeAlloc env t start stop = (none, t') ∧ t'.Counts total sum n s r ∧
      t'.failed = true) ∨
    ∃ t', sackholeAlloc env t start stop = (some ⟨start, stop, start, env.now⟩, t') ∧
      t'.Counts total sum (n + 1) s r ∧ t'.failed = t.failed := by
  have hn := c.numholes
  by_cases hfull : env.maxholes ≤ t.numholes ∨ env.hardlimit t.tried
  · left
    rw [sackholeAlloc, if_pos hfull]
    exact ⟨_, rfl, { c with numholes := hn }, rfl⟩
  right
  rw [sackholeAlloc, if_neg hfull]
  refine ⟨_, rfl, ⟨?_, by omega, c.bytes, c.rexmit⟩, rfl⟩
  dsimp only
  rw [hn, i16_eq] <;> omega

theorem detectReordering_spec {una : UInt32} (env : Env) (t : Tally) (seq : UInt32)
    (hok : HoleOk una h) (hstop : Near una h.stop) (hfack : Near una oldFack) :
    ∃ o, detectReordering env t h seq oldFack = some { t with reorder := o } := by
  rw [detectReordering]
  split
  · exact ⟨t.reorder, rfl⟩
  rename_i hnew
  have hrx := lt_of_le_of_lt hok.rxmit_le hstop
  have hle : off una h.stop ≤ off una oldFack := by
    by_contra hlt
    exact hnew (.inl ((seqGt_iff' hstop hfack).mpr (by omega)))
  have hge : seqGeq oldFack h.rxmit = true := (seqGeq_iff hfack hrx).mpr (hok.rxmit_le.trans hle)
  dsimp only
  split
  · split <;> exact ⟨_, rfl⟩
  · exact ⟨t.reorder, rfl⟩

def Met.holes : Met → List Hole
  | .deleted _ => []
  | .kept h behind _ => h :: behind

def Met.tally : Met → Tally
  | .deleted t => t
  | .kept h _ t => t.addRexmit h

/-- Nothing of the block may be left: no allocation failed, or it begins at `una` and so does
not split a hole. -/
def Sure (una : UInt32) (t : Tally) (b : Block) : Prop := t.failed = false ∨ off una b.start = 0

structure MetOk (una : UInt32) (b : Block) (cur : Hole) (m : Met) : Prop where
  ordered : Ordered una (off una cur.start) (off una cur.stop) m.holes
  keeps : ∀ x, cur.Has una x → ¬b.Has una x → InHoles una m.holes x
  clean : Sure una m.tally b → ∀ x, InHoles una m.holes x → ¬b.Has una x
  /-- What is not before the block is behind it. -/
  behind : ∀ h hs t, m = .kept h hs t →
    (∀ x, InHoles una hs x → off una b.stop ≤ x) ∧
    (off una b.start ≤ off una h.start → off una b.stop ≤ off una h.start)

variable {b : Block} {cur : Hole} {t' : Tally}

/-- The block and the hole have bytes in common. -/
structure Overlap (una : UInt32) (b : Block) (cur : Hole) : Prop where
  hole : HoleOk una cur
  block : off una b.start < off una b.stop
  nearHole : Near una cur.stop
  nearBlock : Near una b.stop
  before : off una b.start < off una cur.stop
  after : off una cur.start < off una b.stop

theorem metOk_deleted (hstart : off una b.start ≤ off una cur.start)
    (hstop : off una cur.stop ≤ off una b.stop) (hok : HoleOk una cur) :
    MetOk una b cur (.deleted t) := by
  constructor
  · exact hok.nonempty.le
  · intro x hx hnot
    exact absurd ⟨hstart.trans hx.1, hx.2.trans_le hstop⟩ hnot
  · intro _ x hx
    exact absurd hx inHoles_nil
  · intro h hs t' heq
    cases heq

theorem metOk_forward (hov : Overlap una b cur) (hstart : off una b.start ≤ off una cur.start)
    (hstop : off una b.stop < off una cur.stop) :
    MetOk una b cur
      (.kept { cur with start := b.stop, rxmit := seqMax cur.rxmit b.stop } [] t) := by
  have hrx := hov.hole.rxmit_le
  have hmax := off_seqMax (lt_of_le_of_lt hrx hov.nearHole) hov.nearBlock
  constructor
  · refine ⟨hov.after.le, ⟨hstop, ?_, ?_⟩, le_rfl⟩ <;> dsimp only <;> omega
  · intro x hx hnot
    refine inHoles_cons.mpr (.inl ⟨?_, hx.2⟩)
    by_contra hlt
    exact hnot ⟨hstart.trans hx.1, by dsimp only at hlt; omega⟩
  · intro _ x hx hb
    rcases inHoles_cons.mp hx with hhas | hin
    · exact absurd hhas.1 (by dsimp only; exact not_le.mpr hb.2)
    · exact inHoles_nil hin
  · rintro h hs t' ⟨⟩
    exact ⟨fun x hx => absurd hx inHoles_nil, fun _ => le_rfl⟩

theorem metOk_backward (hov : Overlap una b cur) (hstart : off una cur.start < off una b.start)
    (hstop : off una cur.stop ≤ off una b.stop) :
    MetOk una b cur
      (.kept { cur with stop := b.start, rxmit := seqMin cur.rxmit b.start } [] t) := by
  have hge := hov.hole.rxmit_ge
  have hmin :=
    off_seqMin (lt_of_le_of_lt hov.hole.rxmit_le hov.nearHole) (hov.block.trans hov.nearBlock)
  constructor
  · refine ⟨le_rfl, ⟨hstart, ?_, ?_⟩, hov.before.le⟩ <;> dsimp only <;> omega
  · intro x hx hnot
    refine inHoles_cons.mpr (.inl ⟨hx.1, ?_⟩)
    by_contra hlt
    exact hnot ⟨not_lt.mp hlt, hx.2.trans_le hstop⟩
  · intro _ x hx hb
    rcases inHoles_cons.mp hx with hhas | hin
    · exact absurd hhas.2 (not_lt.mpr hb.1)
    · exact inHoles_nil hin
  · rintro h hs t' ⟨⟩
    exact ⟨fun x hx => absurd hx inHoles_nil, fun hle => absurd hle (not_le.mpr hstart)⟩

theorem metOk_split (hov : Overlap una b cur) (hstart : off una cur.start < off una b.start)
    {rest : Hole} (hrest : HoleOk una rest) (hfrom : rest.start = b.stop)
    (hto : rest.stop = cur.stop) :
    MetOk una b cur (.kept { cur with stop := b.start, rxmit := seqMin cur.rxmit b.start }
      [rest] t) := by
  have hge := hov.hole.rxmit_ge
  have hmin :=
    off_seqMin (lt_of_le_of_lt hov.hole.rxmit_le hov.nearHole) (hov.block.trans hov.nearBlock)
  constructor
  · refine ⟨le_rfl, ⟨hstart, ?_, ?_⟩, ?_, hrest, by rw [hto, Ordered]⟩
    · dsimp only; omega
    · dsimp only; omega
    · rw [hfrom]
      exact hov.block.le
  · intro x hx hnot
    by_cases hlt : x < off una b.start
    · exact inHoles_cons.mpr (.inl ⟨hx.1, hlt⟩)
    refine inHoles_cons.mpr (.inr (inHoles_cons.mpr (.inl ⟨?_, by rw [hto]; exact hx.2⟩)))
    rw [hfrom]
    by_contra hin
    exact hnot ⟨not_lt.mp hlt, not_le.mp hin⟩
  · intro _ x hx hb
    rcases inHoles_cons.mp hx with hhas | hin
    · exact absurd hhas.2 (not_lt.mpr hb.1)
    · rcases inHoles_cons.mp hin with hhas | hin
      · exact absurd hhas.1 (by rw [hfrom]; exact not_le.mpr hb.2)
      · exact inHoles_nil hin
  · rintro h hs t' ⟨⟩
    refine ⟨fun x hx => ?_, fun hle => absurd hle (not_le.mpr hstart)⟩
    rcases inHoles_cons.mp hx with hhas | hin
    · exact hfrom ▸ hhas.1
    · exact absurd hin inHoles_nil

theorem metOk_failed (hov : Overlap una b cur) (hstart : off una cur.start < off una b.start)
    (hfailed : t.failed = true) : MetOk una b cur (.kept cur [] t) := by
  constructor
  · exact ⟨le_rfl, hov.hole, le_rfl⟩
  · exact fun x hx _ => inHoles_cons.mpr (.inl hx)
  · rintro (hnot | hzero)
    · exact absurd (hfailed.symm.trans hnot) (by decide)
    · omega
  · rintro h hs t' ⟨⟩
    exact ⟨fun x hx => absurd hx inHoles_nil, fun hle => absurd hle (not_le.mpr hstart)⟩

/-- What the loop needs to know of a hole that was met. -/
structure MetSpec (una : UInt32) (b : Block) (cur : Hole) (total : UInt32)
    (sum : Prop) (n s r : Nat)
    (t : Tally) (m : Met) : Prop extends MetOk una b cur m where
  counts : m.tally.Counts total sum (n + m.holes.length) (s + size una m.holes) (r + rexmit m.holes)
  mono : m.tally.failed = false → t.failed = false

theorem MetOk.rexmit_le {m : Met} (hm : MetOk una b cur m) : rexmit m.holes ≤ holeSize una cur := by
  have hsize := hm.ordered.size_le
  have hle := hm.ordered.rexmit_le
  rw [holeSize]
  omega

/-- A hole that is kept is added to the retransmitted bytes again. -/
theorem metSpec_kept {hs : List Hole} (hm : MetOk una b cur (.kept h hs t'))
    (c : t'.Counts total sum (n + (h :: hs).length) (s + size una (h :: hs)) (r + rexmit hs))
    (hsmall : r + holeSize una cur < 2 ^ 31) (hmono : t'.failed = false → t.failed = false) :
    MetSpec una b cur total sum n s r t (.kept h hs t') := by
  have hle : rexmit (h :: hs) ≤ holeSize una cur := hm.rexmit_le
  rw [rexmit_cons] at hle
  have hadd := c.addRexmit (show r + rexmit hs + h.rexmitted.toNat < 2 ^ 31 by omega)
  refine ⟨hm, ?_, hmono⟩
  rw [Met.holes, rexmit_cons, add_comm h.rexmitted.toNat, ← add_assoc]
  exact hadd

theorem metSpec_alone (hm : MetOk una b cur (.kept h [] t'))
    (c : t'.Counts total sum (n + 1) (s + holeSize una h) r)
    (hsmall : r + holeSize una cur < 2 ^ 31) (hmono : t'.failed = false → t.failed = false) :
    MetSpec una b cur total sum n s r t (.kept h [] t') :=
  metSpec_kept hm (by simpa using c) hsmall hmono

theorem splitHole_spec (hmax : env.maxholes < 2 ^ 15) (hov : Overlap una b cur)
    (hstart : off una cur.start < off una b.start) (hstop : off una b.stop < off una cur.stop)
    (c : t.Counts total sum (n + 1) (s + holeSize una cur) r)
    (hsmall : r + holeSize una cur < 2 ^ 31) :
    MetSpec una b cur total sum n s r t (splitHole env b cur t) := by
  have hblock := hov.block
  have hrx := hov.hole.rxmit_le
  have hnear := lt_of_le_of_lt hrx hov.nearHole
  obtain ⟨t', halloc, c', hfailed⟩ | ⟨t', halloc, c', hfailed⟩ :=
    sackholeAlloc_spec hmax c b.stop cur.stop
  · rw [splitHole, halloc]
    apply metSpec_alone (metOk_failed hov hstart hfailed) c' hsmall
    intro hnot
    exact absurd (hfailed.symm.trans hnot) (by decide)
  have hcount : (t'.count b.start b.stop).Counts total sum (n + 1 + 1)
      (s + (off una b.start - off una cur.start) + (off una cur.stop - off una b.stop)) r := by
    apply Tally.Counts.count hblock.le
    rw [holeSize] at c'
    convert c' using 1
    omega
  rw [splitHole, halloc]
  dsimp only
  -- The bytes behind the block that were retransmitted stay so.
  split_ifs with hgt
  · rw [seqGt_iff' hnear hov.nearBlock] at hgt
    have hrest : HoleOk una { cur with start := b.stop } := ⟨hstop, hgt.le, hrx⟩
    refine metSpec_kept (metOk_split hov hstart hrest rfl rfl) ?_ hsmall (fun hnot =>
      hfailed ▸ hnot)
    have hr : (cur.rxmit - b.stop).toNat = off una cur.rxmit - off una b.stop := hrest.rexmitted_eq
    have hadd := hcount.addRexmit (h := ⟨b.stop, cur.stop, cur.rxmit, env.now⟩)
      (by rw [holeSize] at hsmall; rw [Hole.rexmitted, hr]; omega)
    simpa [holeSize, Hole.rexmitted, add_assoc] using hadd
  · have hrest : HoleOk una ⟨b.stop, cur.stop, b.stop, cur.rxmitStart⟩ := ⟨hstop, le_rfl, hstop.le⟩
    refine metSpec_kept (metOk_split hov hstart hrest rfl rfl) ?_ hsmall (fun hnot =>
      hfailed ▸ hnot)
    simpa [holeSize, Hole.rexmitted, add_assoc] using hcount

theorem meet_spec (hmax : env.maxholes < 2 ^ 15) (hov : Overlap una b cur)
    (hfack : Near una oldFack)
    (c : t.Counts total sum (n + 1) (s + holeSize una cur) (r + cur.rexmitted.toNat))
    (hsmall : r + holeSize una cur < 2 ^ 31) :
    ∃ m, meet env oldFack b cur t = some m ∧ MetSpec una b cur total sum n s r t m := by
  have hne := hov.hole.nonempty
  have hbefore := hov.before
  have hafter := hov.after
  have hrex := hov.hole.rexmitted_eq
  have hrx := hov.hole.rxmit_le
  have nearStart := hne.trans hov.nearHole
  have nearFrom := hov.block.trans hov.nearBlock
  have c' := c.subRexmit (by rw [holeSize] at hsmall; omega)
  have hdetect := fun t seq => detectReordering_spec env t seq hov.hole hov.nearHole hfack
  simp only [meet, seqLeq_iff nearFrom nearStart, seqGeq_iff hov.nearBlock hov.nearHole]
  by_cases hstart : off una b.start ≤ off una cur.start
  · by_cases hstop : off una cur.stop ≤ off una b.stop
    · rw [if_pos hstart, if_pos hstop]
      obtain ⟨o, ho⟩ := hdetect ((t.subRexmit cur).count cur.start cur.stop) cur.stop
      rw [ho]
      refine ⟨_, rfl, metOk_deleted hstart hstop hov.hole, ?_, id⟩
      exact ((c'.count hne.le).withReorder o).remove
    · rw [if_pos hstart, if_neg hstop]
      obtain ⟨o, ho⟩ := hdetect ((t.subRexmit cur).count cur.start b.stop) b.stop
      rw [ho]
      refine ⟨_, rfl, metSpec_alone (metOk_forward hov hstart (by omega)) ?_ hsmall id⟩
      apply Tally.Counts.withReorder
      apply Tally.Counts.count hafter.le
      convert c' using 1
      simp only [holeSize]
      omega
  · by_cases hstop : off una cur.stop ≤ off una b.stop
    · rw [if_neg hstart, if_pos hstop]
      obtain ⟨o, ho⟩ := hdetect ((t.subRexmit cur).count b.start cur.stop) cur.stop
      rw [ho]
      refine ⟨_, rfl, metSpec_alone (metOk_backward hov (by omega) hstop) ?_ hsmall id⟩
      apply Tally.Counts.withReorder
      apply Tally.Counts.count hbefore.le
      convert c' using 1
      simp only [holeSize]
      omega
    · rw [if_neg hstart, if_neg hstop]
      obtain ⟨o, ho⟩ := hdetect (t.subRexmit cur) b.stop
      rw [ho]
      obtain ⟨hok, hcounts, hmono⟩ :=
        splitHole_spec hmax hov (by omega) (by omega) (c'.withReorder o) hsmall
      exact ⟨_, rfl, hok, hcounts, hmono⟩

end XnuXzs.Tcp
