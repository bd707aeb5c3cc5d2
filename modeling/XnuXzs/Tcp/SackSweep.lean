import XnuXzs.Tcp.SackMeet

/-!
# The sweep

The sweep takes every byte that a block covers out of the holes, as long as it can
allocate, and it never takes another one.
-/

namespace XnuXzs.Tcp

open Lib List

/-- The blocks left come from last to first, and none covers a byte of the holes that are done. -/
structure Sweeping (una : UInt32) (hi : Nat) (blocks : List Block) (left done : List Hole) :
    Prop where
  ordered : Ordered una 0 hi (left.reverse ++ done)
  valid : ∀ b ∈ blocks, off una b.start < off una b.stop ∧ Near una b.stop
  sorted : blocks.Pairwise fun b b' => off una b'.stop ≤ off una b.stop
  clear : ∀ x, InHoles una done x → ¬Covered una blocks x

def Fits (una total : UInt32) (sum : Prop) (holes : List Hole) (t : Tally) : Prop :=
  t.Counts total sum holes.length (size una holes) (rexmit holes)

structure Swept (una : UInt32) (hi : Nat) (total : UInt32) (sum : Prop) (blocks : List Block)
    (old : List Hole) (t : Tally) (new : List Hole) (t' : Tally) : Prop where
  ordered : Ordered una 0 hi new
  fits : Fits una total sum new t'
  within : ∀ x, InHoles una new x → InHoles una old x
  keeps : ∀ x, InHoles una old x → ¬Covered una blocks x → InHoles una new x
  clean : ∀ b ∈ blocks, Sure una t' b → ∀ x, InHoles una new x → ¬b.Has una x
  mono : t'.failed = false → t.failed = false

variable {una total oldFack : UInt32} {hi x : Nat} {sum : Prop} {b : Block}
  {blocks blocks' : List Block} {cur h : Hole} {left done old mid new : List Hole}
  {t t' t'' : Tally} {m : Met} {env : Env}

theorem Sweeping.covered_lt (hs : Sweeping una hi (b :: blocks) left done)
    (hx : Covered una (b :: blocks) x) : x < off una b.stop := by
  rcases covered_cons.mp hx with hhas | ⟨b', hb', hhas⟩
  · exact hhas.2
  · exact hhas.2.trans_le (rel_of_pairwise_cons hs.sorted hb')

/-- The sweep goes on with other holes, and maybe without a block that covers none of them. -/
theorem Swept.before (h : Swept una hi total sum blocks' mid t' new t'')
    (hwithin : ∀ x, InHoles una mid x → InHoles una old x)
    (hkeeps : ∀ x, InHoles una old x → ¬Covered una blocks x → InHoles una mid x)
    (hsub : ∀ x, Covered una blocks' x → Covered una blocks x)
    (hclean : ∀ b ∈ blocks, Sure una t' b → ∀ x, InHoles una mid x → b.Has una x → b ∈ blocks')
    (hmono : t'.failed = false → t.failed = false) :
    Swept una hi total sum blocks old t new t'' := by
  constructor
  · exact h.ordered
  · exact h.fits
  · exact fun x hx => hwithin x (h.within x hx)
  · exact fun x hx hnot => h.keeps x (hkeeps x hx hnot) fun hcov => hnot (hsub x hcov)
  · intro b hb hsure x hx hhas
    have hb' := hclean b hb (hsure.imp_left h.mono) x (h.within x hx) hhas
    exact h.clean b hb' hsure x hx hhas
  · exact fun hok => hmono (h.mono hok)

theorem swept_end (hord : Ordered una 0 hi old) (hfits : Fits una total sum old t)
    (hclear : ∀ x, InHoles una old x → ¬Covered una blocks x) :
    Swept una hi total sum blocks old t old t :=
  ⟨hord, hfits, fun _ => id, fun _ hx _ => hx, fun b hb _ x hx hhas =>
    hclear x hx ⟨b, hb, hhas⟩, id⟩

theorem Sweeping.nextBlock (hs : Sweeping una hi (b :: blocks) left done) :
    Sweeping una hi blocks left done := by
  constructor
  · exact hs.ordered
  · exact fun b' hb' => hs.valid b' (mem_cons_of_mem b hb')
  · exact hs.sorted.tail
  · exact fun x hx hcov => hs.clear x hx (covered_cons.mpr (.inr hcov))

theorem Sweeping.around (hs : Sweeping una hi blocks (cur :: left) done) :
    Ordered una 0 hi (left.reverse ++ cur :: done) := by
  simpa using hs.ordered

/-- A block that begins behind the current hole covers nothing any more. -/
theorem Sweeping.beyond (hs : Sweeping una hi (b :: blocks) (cur :: left) done)
    (hle : off una cur.stop ≤ off una b.start)
    (hx : InHoles una ((cur :: left).reverse ++ done) x) :
    ¬b.Has una x := by
  intro hb
  rcases inHoles_append.mp hx with hx | hx
  · obtain ⟨mid, hfront, hmid, hok, -⟩ := ordered_append.mp hs.around
    have hlast : Ordered una 0 (off una cur.stop) (cur :: left).reverse := by
      rw [reverse_cons]
      exact ordered_append.mpr ⟨mid, hfront, hmid, hok, le_rfl⟩
    exact absurd (hlast.bounds hx).2 (not_lt.mpr (hle.trans hb.1))
  · exact hs.clear x hx (covered_cons.mpr (.inl hb))

theorem Sweeping.previous (hs : Sweeping una hi (b :: blocks) (cur :: left) done)
    (hle : off una b.stop ≤ off una cur.start) :
    Sweeping una hi (b :: blocks) left (cur :: done) := by
  constructor
  · simpa using hs.ordered
  · exact hs.valid
  · exact hs.sorted
  intro x hx hcov
  rcases inHoles_cons.mp hx with hhas | hin
  · exact absurd (hs.covered_lt hcov) (not_lt.mpr (hle.trans hhas.1))
  · exact hs.clear x hin hcov

theorem MetOk.within (hm : MetOk una b cur m) (hx : InHoles una m.holes x) :
    cur.Has una x := hm.ordered.bounds hx

theorem met_within (hm : MetOk una b cur m)
    (hx : InHoles una (left.reverse ++ (m.holes ++ done)) x) :
    InHoles una (left.reverse ++ cur :: done) x := by
  simp only [inHoles_append, inHoles_cons] at hx ⊢
  rcases hx with hleft | hmet | hdone
  · exact .inl hleft
  · exact .inr (.inl (hm.within hmet))
  · exact .inr (.inr hdone)

theorem met_keeps (hm : MetOk una b cur m) (hx : InHoles una (left.reverse ++ cur :: done) x)
    (hnot : ¬Covered una (b :: blocks) x) : InHoles una (left.reverse ++ (m.holes ++ done)) x := by
  simp only [inHoles_append, inHoles_cons] at hx ⊢
  rcases hx with hleft | hcur | hdone
  · exact .inl hleft
  · exact .inr (.inl (hm.keeps x hcur fun hb => hnot (covered_cons.mpr (.inl hb))))
  · exact .inr (.inr hdone)

theorem fits_cur (hfits : Fits una total sum (left.reverse ++ cur :: done) t) :
    t.Counts total sum (left.reverse.length + done.length + 1)
      (size una left.reverse + size una done + holeSize una cur)
      (rexmit left.reverse + rexmit done + cur.rexmitted.toNat) := by
  unfold Fits at hfits
  convert hfits using 1
  · simp [add_assoc]
  · rw [size_append, size_cons]
    omega
  · rw [rexmit_append, rexmit_cons]
    omega

theorem fits_met
    (c : m.tally.Counts total sum (left.reverse.length + done.length + m.holes.length)
      (size una left.reverse + size una done + size una m.holes)
        (rexmit left.reverse + rexmit done + rexmit m.holes)) :
    Fits una total sum (left.reverse ++ (m.holes ++ done)) m.tally := by
  unfold Fits
  convert c using 1
  · simp only [length_append]
    omega
  · rw [size_append, size_append]
    omega
  · rw [rexmit_append, rexmit_append]
    omega

theorem Sweeping.overlap (hs : Sweeping una hi (b :: blocks) (cur :: left) done)
    (hhi : hi < 2 ^ 31) (hbefore : off una b.start < off una cur.stop)
    (hafter : off una cur.start < off una b.stop) :
    Overlap una b cur := by
  obtain ⟨mid, -, -, hok, hback⟩ := ordered_append.mp hs.around
  obtain ⟨hblock, hnear⟩ := hs.valid b mem_cons_self
  exact ⟨hok, hblock, lt_of_le_of_lt hback.le hhi, hnear, hbefore, hafter⟩

theorem Sweeping.small (hs : Sweeping una hi (b :: blocks) (cur :: left) done) (hhi : hi < 2 ^ 31) :
    rexmit left.reverse + rexmit done + holeSize una cur < 2 ^ 31 := by
  have hsize := hs.around.size_le
  obtain ⟨mid, hfront, -, -, hback⟩ := ordered_append.mp hs.around
  have hleft := hfront.rexmit_le
  have hdone := hback.rexmit_le
  rw [size_append, size_cons] at hsize
  omega

theorem Sweeping.met (hs : Sweeping una hi (b :: blocks) (cur :: left) done)
    (hm : MetOk una b cur m) : Ordered una 0 hi (left.reverse ++ (m.holes ++ done)) :=
  hs.around.replace hm.ordered

/-- After a hole was deleted, or its start moved forward, the block goes on with the hole
before it. -/
theorem Sweeping.moved (hs : Sweeping una hi (b :: blocks) (cur :: left) done)
    (hord : Ordered una 0 hi (left.reverse ++ (new ++ done)))
    (hbehind : ∀ x, InHoles una new x → off una b.stop ≤ x) :
    Sweeping una hi (b :: blocks) left (new ++ done) := by
  constructor
  · exact hord
  · exact hs.valid
  · exact hs.sorted
  intro x hx hcov
  rcases inHoles_append.mp hx with hnew | hdone
  · exact absurd (hs.covered_lt hcov) (not_lt.mpr (hbehind x hnew))
  · exact hs.clear x hdone hcov

theorem Sweeping.trimmed (hs : Sweeping una hi (b :: blocks) (cur :: left) done)
    (hord : Ordered una 0 hi (left.reverse ++ (h :: new ++ done)))
    (hbehind : ∀ x, InHoles una new x → off una b.stop ≤ x) :
    Sweeping una hi blocks (h :: left) (new ++ done) := by
  constructor
  · simpa using hord
  · exact hs.nextBlock.valid
  · exact hs.nextBlock.sorted
  intro x hx hcov
  have hcov' : Covered una (b :: blocks) x := covered_cons.mpr (.inr hcov)
  rcases inHoles_append.mp hx with hnew | hdone
  · exact absurd (hs.covered_lt hcov') (not_lt.mpr (hbehind x hnew))
  · exact hs.clear x hdone hcov'

/-- The block that trimmed a hole covers no byte of the holes any more. -/
theorem Sweeping.uncovered (hs : Sweeping una hi (b :: blocks) (cur :: left) done)
    (hm : MetOk una b cur (.kept h new t)) (hsure : Sure una t b)
    (hlt : off una h.start < off una b.start)
    (hx : InHoles una (left.reverse ++ (h :: new ++ done)) x) : ¬b.Has una x := by
  intro hb
  obtain ⟨mid, hfront, hback⟩ := ordered_append.mp (hs.met hm)
  have hmid : mid ≤ off una h.start := hback.1
  rcases inHoles_append.mp hx with hleft | hx
  · have hbound := (hfront.bounds hleft).2
    have hge := hb.1
    omega
  · rcases inHoles_append.mp hx with hmet | hdone
    · exact hm.clean hsure x hmet hb
    · exact hs.clear x hdone (covered_cons.mpr (.inl hb))

theorem Sweeping.geq_iff (hs : Sweeping una hi (b :: blocks) (cur :: left) done)
    (hhi : hi < 2 ^ 31) :
    seqGeq b.start cur.stop = true ↔ off una cur.stop ≤ off una b.start := by
  obtain ⟨mid, -, -, -, hback⟩ := ordered_append.mp hs.around
  obtain ⟨hblock, hnear⟩ := hs.valid b mem_cons_self
  exact seqGeq_iff (hblock.trans hnear) (lt_of_le_of_lt hback.le hhi)

theorem Sweeping.leq_iff (hs : Sweeping una hi (b :: blocks) (cur :: left) done)
    (hhi : hi < 2 ^ 31) :
    seqLeq b.stop cur.start = true ↔ off una b.stop ≤ off una cur.start := by
  obtain ⟨mid, -, -, hok, hback⟩ := ordered_append.mp hs.around
  obtain ⟨-, hnear⟩ := hs.valid b mem_cons_self
  exact seqLeq_iff hnear (hok.nonempty.trans (lt_of_le_of_lt hback.le hhi))

theorem Sweeping.kept_iff (hs : Sweeping una hi (b :: blocks) (cur :: left) done)
    {new : List Hole} (hhi : hi < 2 ^ 31) (hm : MetOk una b cur (.kept h new t)) :
    seqLeq b.start h.start = true ↔ off una b.start ≤ off una h.start := by
  obtain ⟨mid, -, -, hok, hback⟩ := ordered_append.mp (hs.met hm)
  obtain ⟨hblock, hnear⟩ := hs.valid b mem_cons_self
  exact seqLeq_iff (hblock.trans hnear) (hok.nonempty.trans (lt_of_le_of_lt hback.le hhi))

/-- A block and a hole that pass the two tests of the loop overlap, and the hole is met. -/
theorem Sweeping.meets (hmax : env.maxholes < 2 ^ 15)
    (hs : Sweeping una hi (b :: blocks) (cur :: left) done) (hfack : Near una oldFack)
    (hhi : hi < 2 ^ 31) (hge : ¬seqGeq b.start cur.stop = true)
    (hle : ¬seqLeq b.stop cur.start = true)
    (hfits : Fits una total sum ((cur :: left).reverse ++ done) t) :
    ∃ m, meet env oldFack b cur t = some m ∧ MetOk una b cur m ∧
      Fits una total sum (left.reverse ++ (m.holes ++ done)) m.tally ∧
      (m.tally.failed = false → t.failed = false) := by
  rw [hs.geq_iff hhi] at hge
  rw [hs.leq_iff hhi] at hle
  have hov := hs.overlap hhi (not_le.mp hge) (not_le.mp hle)
  have hcur :=
    fits_cur (show Fits una total sum (left.reverse ++ cur :: done) t by simpa using hfits)
  obtain ⟨m, hmeet, hspec⟩ := meet_spec hmax hov hfack hcur (hs.small hhi)
  exact ⟨m, hmeet, hspec.toMetOk, fits_met hspec.counts, hspec.mono⟩

/-- The sweep of the holes that a block met is part of the sweep of those before. -/
theorem Swept.beforeMet (hm : MetOk una b cur m) (hmono : m.tally.failed = false → t.failed = false)
    (h : Swept una hi total sum (b :: blocks) (left.reverse ++ (m.holes ++ done)) m.tally new t'') :
    Swept una hi total sum (b :: blocks) ((cur :: left).reverse ++ done) t new t'' := by
  rw [reverse_cons, append_assoc]
  exact h.before (fun _ => met_within hm) (fun _ => met_keeps hm) (fun _ =>
    id) (fun _ hb _ _ _ _ => hb) hmono

theorem sweep_spec (hmax : env.maxholes < 2 ^ 15) (hfack : Near una oldFack) (hhi : hi < 2 ^ 31)
    (blocks : List Block) (left done : List Hole) (t : Tally)
    (hs : Sweeping una hi blocks left done) (hfits : Fits una total sum (left.reverse ++ done) t) :
    ∃ new t', sweep env oldFack blocks left done t = some (new, t') ∧
      Swept una hi total sum blocks (left.reverse ++ done) t new t' := by
  induction blocks, left, done, t using sweep.induct env oldFack with
  | case1 =>
    rw [sweep]
    exact ⟨_, _, rfl, swept_end hs.ordered hfits fun _ _ => covered_nil⟩
  | case2 =>
    rw [sweep]
    exact ⟨_, _, rfl, swept_end hs.ordered hfits hs.clear⟩
  | case3 b blocks cur left done t hge ih =>
    obtain ⟨new, t', heq, hswept⟩ := ih hs.nextBlock hfits
    refine ⟨new, t', by rw [sweep, if_pos hge, heq], ?_⟩
    apply hswept.before (fun _ => id) (fun _ hx _ => hx) (fun _ hx =>
      covered_cons.mpr (.inr hx)) _ id
    intro b' hb' _ x hx hhas
    rcases mem_cons.mp hb' with rfl | hmem
    · exact absurd hhas (hs.beyond ((hs.geq_iff hhi).mp hge) hx)
    · exact hmem
  | case4 b blocks cur left done t hge hle ih =>
    have hsame : (cur :: left).reverse ++ done = left.reverse ++ cur :: done := by simp
    rw [hsame] at hfits ⊢
    obtain ⟨new, t', heq, hswept⟩ := ih (hs.previous ((hs.leq_iff hhi).mp hle)) hfits
    exact ⟨new, t', by rw [sweep, if_neg hge, if_pos hle, heq], hswept⟩
  | case5 b blocks cur left done t hge hle hnone =>
    obtain ⟨m, hmeet, -⟩ := hs.meets hmax hfack hhi hge hle hfits
    rw [hnone] at hmeet
    cases hmeet
  | case6 b blocks cur left done t hge hle t₁ hsome ih =>
    obtain ⟨m, hmeet, hm, hfits', hmono⟩ := hs.meets hmax hfack hhi hge hle hfits
    obtain rfl : Met.deleted t₁ = m := Option.some.inj (hsome.symm.trans hmeet)
    have hs' := hs.moved (hs.met hm) fun x hx => absurd hx inHoles_nil
    obtain ⟨new, t', heq, hswept⟩ := ih hs' hfits'
    exact ⟨new, t', by rw [sweep, if_neg hge, if_neg hle, hsome]; exact heq,
      hswept.beforeMet hm hmono⟩
  | case7 b blocks cur left done t hge hle cur' behind t₁ hsome t₂ hstart ih =>
    obtain ⟨m, hmeet, hm, hfits', hmono⟩ := hs.meets hmax hfack hhi hge hle hfits
    obtain rfl : Met.kept cur' behind t₁ = m := Option.some.inj (hsome.symm.trans hmeet)
    obtain ⟨hbehind, hstop⟩ := hm.behind cur' behind t₁ rfl
    have hle' := hstop ((hs.kept_iff hhi hm).mp hstart)
    have hs' := hs.moved (hs.met hm) fun x hx => by
      rcases inHoles_cons.mp hx with hhas | hin
      · exact hle'.trans hhas.1
      · exact hbehind x hin
    obtain ⟨new, t', heq, hswept⟩ := ih hs' hfits'
    refine ⟨new, t', ?_, hswept.beforeMet hm hmono⟩
    rw [sweep, if_neg hge, if_neg hle, hsome]
    simp only [if_pos hstart]
    exact heq
  | case8 b blocks cur left done t hge hle cur' behind t₁ hsome t₂ hstart ih =>
    obtain ⟨m, hmeet, hm, hfits', hmono⟩ := hs.meets hmax hfack hhi hge hle hfits
    obtain rfl : Met.kept cur' behind t₁ = m := Option.some.inj (hsome.symm.trans hmeet)
    have hlt := not_le.mp fun hle' => hstart ((hs.kept_iff hhi hm).mpr hle')
    obtain ⟨hbehind, -⟩ := hm.behind cur' behind t₁ rfl
    have hsame : (cur' :: left).reverse ++ (behind ++ done) =
        left.reverse ++ (cur' :: behind ++ done) := by
      simp
    rw [hsame] at ih
    obtain ⟨new, t', heq, hswept⟩ := ih (hs.trimmed (hs.met hm) hbehind) hfits'
    refine ⟨new, t', ?_, ?_⟩
    · rw [sweep, if_neg hge, if_neg hle, hsome]
      simp only [if_neg hstart]
      exact heq
    rw [reverse_cons, append_assoc]
    apply hswept.before (fun _ => met_within hm) (fun _ => met_keeps hm)
      (fun _ hx => covered_cons.mpr (.inr hx)) _ hmono
    intro b' hb' hsure x hx hhas
    rcases mem_cons.mp hb' with rfl | hmem
    · exact absurd hhas (hs.uncovered hm hsure hlt hx)
    · exact hmem

end XnuXzs.Tcp
