import Mathlib.Order.Interval.Set.Nat
import XnuXzs.Tcp.SackStart

/-!
# A call of `tcp_sack_doack`

What a call makes of a valid scoreboard, in terms of the bytes that the segment
acknowledges.
-/

namespace XnuXzs.Tcp

open Lib List

variable {una fack fack' : UInt32} {lo hi : Nat} {hs : List Hole}

theorem setOf_inHoles_cons (h : Hole) (hs : List Hole) : {x | InHoles una (h :: hs) x} =
    Set.Ico (off una h.start) (off una h.stop) ∪ {x | InHoles una hs x} := by
  ext x
  exact inHoles_cons

theorem Ordered.finite (h : Ordered una lo hi hs) : {x | InHoles una hs x}.Finite :=
  (Set.finite_Ico lo hi).subset fun _ hx => h.bounds hx

theorem Ordered.ncard (h : Ordered una lo hi hs) : {x | InHoles una hs x}.ncard = size una hs := by
  induction hs generalizing lo with
  | nil => simp
  | cons h' hs ih =>
    obtain ⟨hlo, hok, hrest⟩ := h
    have hdisj : Disjoint (Set.Ico (off una h'.start) (off una h'.stop)) {x | InHoles una hs x} :=
      Set.disjoint_left.mpr fun x hx hin => absurd hx.2 (not_lt.mpr (hrest.bounds hin).1)
    rw [setOf_inHoles_cons, Set.ncard_union_eq hdisj (Set.finite_Ico _ _) hrest.finite, ih hrest,
      Set.ncard_Ico_nat, size_cons, holeSize]

theorem setOf_region (una fack fack' : UInt32) (hs : List Hole) : {x | Region una fack fack' hs x} =
    {x | InHoles una hs x} ∪ Set.Ico (off una fack) (off una fack') := rfl

theorem region_finite (h : Ordered una lo (off una fack) hs) :
    {x | Region una fack fack' hs x}.Finite := by
  rw [setOf_region]
  exact h.finite.union (Set.finite_Ico _ _)

theorem region_ncard (h : Ordered una lo (off una fack) hs) :
    {x | Region una fack fack' hs x}.ncard = size una hs + (off una fack' - off una fack) := by
  have hdisj : Disjoint {x | InHoles una hs x} (Set.Ico (off una fack) (off una fack')) :=
    Set.disjoint_left.mpr fun x hin hx => absurd hx.1 (not_le.mpr (h.bounds hin).2)
  rw [setOf_region, Set.ncard_union_eq hdisj h.finite (Set.finite_Ico _ _), h.ncard,
    Set.ncard_Ico_nat]

theorem newbytes_eq (h : Ordered una lo (off una fack) hs) {new : List Hole} {P : Nat → Prop}
    {a c : UInt32} (hnew : Ordered una lo hi new)
    (hiff : ∀ x, InHoles una new x ↔ Region una fack fack' hs x ∧ ¬P x)
    (hsum : a + UInt32.ofNat (size una new) = c + UInt32.ofNat (size una hs) +
      UInt32.ofNat (off una fack' - off una fack)) :
    a = c + UInt32.ofNat {x | Region una fack fack' hs x ∧ P x}.ncard := by
  have hdiff : {x | Region una fack fack' hs x ∧ P x} =
      {x | Region una fack fack' hs x} \ {x | InHoles una new x} := by
    ext x
    simp only [Set.mem_ofPred_eq, Set.mem_sdiff, hiff]
    tauto
  have hsub : {x | InHoles una new x} ⊆ {x | Region una fack fack' hs x} :=
    fun x hx => ((hiff x).mp hx).1
  have hcard := Set.ncard_sdiff_add_ncard_of_subset hsub (region_finite h)
  rw [← hdiff, hnew.ncard, region_ncard h] at hcard
  rw [UInt32.add_assoc, ← UInt32.ofNat_add, ← hcard, UInt32.ofNat_add, ← UInt32.add_assoc] at hsum
  exact (UInt32.add_left_inj _).mp hsum

/-- The holes are in order, apart, not empty, with `start ≤ rxmit ≤ end ≤ snd_fack`, and
`snd_numholes` is their number. -/
structure Board.Valid (b : Board) : Prop where
  window : Near b.sndUna b.sndMax
  ordered : b.holes ≠ [] →
    off b.sndUna b.sndFack ≤ off b.sndUna b.sndMax ∧
      Ordered b.sndUna 0 (off b.sndUna b.sndFack) b.holes
  numholes : b.numholes = b.holes.length
  few : b.holes.length < 2 ^ 15

/-- The cumulative acknowledgement and the blocks of a segment. Its options have 40 bytes at
most, so four blocks. -/
structure AckSegment (b : Board) where
  ack : UInt32
  sacks : List Block
  ack_le : off b.sndUna ack ≤ off b.sndUna b.sndMax
  sacks_le : sacks.length ≤ tcpMaxSack

/-- The byte is acknowledged, by the number or by a valid block. -/
def AckSegment.Acks {b : Board} (c : AckSegment b) (x : Nat) : Prop :=
  x < off b.sndUna c.ack ∨ Covered b.sndUna (validBlocks b c.ack c.sacks) x

/-- `old_snd_fack`. It is set anew if there are no holes, unless the call returns at once. -/
def AckSegment.oldFack {b : Board} (c : AckSegment b) : UInt32 :=
  if gatherBlocks b c.ack c.sacks ≠ [] ∧ b.holes = [] then seqMax b.sndUna c.ack else b.sndFack

/-- The bytes of the old holes, and those between the old and the new `snd_fack`. -/
def AckSegment.Known {b : Board} (c : AckSegment b) (b' : Board) (x : Nat) : Prop :=
  Region b.sndUna c.oldFack b'.sndFack b.holes x

structure Sound (b : Board) (c : AckSegment b) (newbytes : UInt32) (b' : Board) (newbytes' : UInt32)
    (failed : Bool) : Prop where
  valid : b'.Valid
  sndUna : b'.sndUna = b.sndUna
  sndMax : b'.sndMax = b.sndMax
  holes : failed = false → ∀ x, InHoles b.sndUna b'.holes x ↔ c.Known b' x ∧ ¬c.Acks x
  newbytes : failed = false → newbytes' = newbytes +
    UInt32.ofNat {x | c.Known b' x ∧ c.Acks x}.ncard
  rexmit : b.bytesRexmit = rexmit b.holes → b'.bytesRexmit = rexmit b'.holes
  /-- Also if an allocation failed, only bytes that are acknowledged leave the holes. -/
  keeps : ∀ x, c.Known b' x → ¬c.Acks x → InHoles b.sndUna b'.holes x
  /-- And no byte before the acknowledgement stays. -/
  acked : ∀ x, InHoles b.sndUna b'.holes x → off b.sndUna c.ack ≤ x

variable {b : Board} {c : AckSegment b} {env : Env}

theorem AckSegment.ackOk (c : AckSegment b) (hv : b.Valid) : AckOk b c.ack := ⟨hv.window, c.ack_le⟩

theorem AckSegment.gathered_le (c : AckSegment b) :
    (gatherBlocks b c.ack c.sacks).length ≤ tcpMaxSack + 1 := by
  have hfilter := length_filter_le (validBlock b c.ack) c.sacks
  have hsacks := c.sacks_le
  rw [gatherBlocks, length_append]
  split <;> simp only [length_cons, length_nil] <;> omega

theorem sound_noBlocks (hv : b.Valid) (hnone : gatherBlocks b c.ack c.sacks = [])
    (newbytes : UInt32) :
    Sound b c newbytes b newbytes false := by
  have hold : c.oldFack = b.sndFack := by
    rw [AckSegment.oldFack, if_neg fun h => h.1 hnone]
  have hknown : ∀ x, c.Known b x ↔ InHoles b.sndUna b.holes x := by
    intro x
    rw [AckSegment.Known, hold]
    exact ⟨fun h => h.resolve_right fun h => absurd h.2 (not_lt.mpr h.1), .inl⟩
  have hacks : ∀ x, InHoles b.sndUna b.holes x → ¬c.Acks x := by
    intro x hin hack
    have hne : b.holes ≠ [] := by
      intro hnil
      rw [hnil] at hin
      exact inHoles_nil hin
    have hcov := (covered_gather (c.ackOk hv) hne).mpr hack
    rw [hnone] at hcov
    exact covered_nil hcov
  constructor
  · exact hv
  · rfl
  · rfl
  · intro _ x
    rw [hknown]
    exact ⟨fun h => ⟨h, hacks x h⟩, And.left⟩
  · intro _
    have hempty : {x | c.Known b x ∧ c.Acks x} = ∅ :=
      Set.eq_empty_of_forall_notMem fun x hx => hacks x ((hknown x).mp hx.1) hx.2
    rw [hempty, Set.ncard_empty]
    simp
  · exact id
  · exact fun x hx _ => (hknown x).mp hx
  · exact fun x hx => not_lt.mp fun hlt => hacks x hx (.inl hlt)

/-- What the sweep makes of the bytes that are known. -/
structure Taken (una fack fack' : UInt32) (holes : List Hole) (blocks : List Block) (t : Tally)
    (new : List Hole) : Prop where
  within : ∀ x, InHoles una new x → Region una fack fack' holes x
  keeps : ∀ x, Region una fack fack' holes x → ¬Covered una blocks x → InHoles una new x
  clean : ∀ b ∈ blocks, Sure una t b → ∀ x, InHoles una new x → ¬b.Has una x

theorem Started.taken {una total fack : UInt32} {lim : Nat} {sum : Prop} {holes : List Hole}
    {blocks : List Block} {s : Start} (hmax : env.maxholes < 2 ^ 15) (hlim : lim < 2 ^ 31)
    (hs : Started una lim total sum fack holes blocks s)
    (hvalid : ∀ b ∈ blocks, off una b.start < off una b.stop ∧ off una b.stop ≤ lim)
    (hsorted : blocks.Pairwise fun b b' => off una b'.stop ≤ off una b.stop) :
    ∃ new t, sweep env fack s.blocks s.holes.reverse [] s.tally = some (new, t) ∧
      Ordered una 0 (off una s.fack) new ∧
      Fits una (total + UInt32.ofNat (off una s.fack - off una fack)) sum new t ∧
      Taken una fack s.fack holes blocks t new := by
  have hhi := lt_of_le_of_lt hs.le hlim
  have hsame : s.holes.reverse.reverse ++ [] = s.holes := by simp
  have hsweeping : Sweeping una (off una s.fack) s.blocks s.holes.reverse [] := by
    constructor
    · rw [hsame]
      exact hs.ordered
    · intro b hb
      obtain ⟨hlt, hle⟩ := hvalid b (hs.sub.subset hb)
      exact ⟨hlt, lt_of_le_of_lt hle hlim⟩
    · exact hsorted.sublist hs.sub
    · exact fun x hx => absurd hx inHoles_nil
  obtain ⟨new, t, heq, hswept⟩ := sweep_spec hmax (lt_of_le_of_lt hs.ge hhi) hhi _ _ _ _ hsweeping
    (by rw [hsame]; exact hs.fits)
  rw [hsame] at hswept
  refine ⟨new, t, heq, hswept.ordered, hswept.fits, ?_⟩
  constructor
  · exact fun x hx => hs.within x (hswept.within x hx)
  · intro x hx hnot
    apply hswept.keeps x (hs.keeps x hx hnot)
    rintro ⟨b, hb, hhas⟩
    exact hnot ⟨b, hs.sub.subset hb, hhas⟩
  · intro b hb hsure x hx hhas
    have hmem := hs.clean b hb (hsure.imp_left hswept.mono) x (hswept.within x hx) hhas
    exact hswept.clean b hmem hsure x hx hhas

variable {b' : Board} {x : Nat} {t : Tally}

/-- `snd_fack` starts in the window, behind the holes, or without any the acknowledgement. -/
theorem AckSegment.oldFack_ok (hv : b.Valid) (hsome : gatherBlocks b c.ack c.sacks ≠ []) :
    off b.sndUna c.oldFack ≤ off b.sndUna b.sndMax ∧
    Ordered b.sndUna 0 (off b.sndUna c.oldFack) b.holes ∧
    (b.holes = [] → off b.sndUna c.ack ≤ off b.sndUna c.oldFack) := by
  by_cases hnil : b.holes = []
  · have hold : off b.sndUna c.oldFack = off b.sndUna c.ack := by
      rw [AckSegment.oldFack, if_pos ⟨hsome, hnil⟩,
        off_seqMax (near_una _) (c.ackOk hv).near, off_self]
      exact Nat.max_eq_right (Nat.zero_le _)
    rw [hold, hnil]
    exact ⟨c.ack_le, Nat.zero_le _, fun _ => le_rfl⟩
  · have hold : c.oldFack = b.sndFack := by
      rw [AckSegment.oldFack, if_neg fun h => hnil h.2]
    obtain ⟨hle, hord⟩ := hv.ordered hnil
    rw [hold]
    exact ⟨hle, hord, fun h => absurd h hnil⟩

theorem AckSegment.known_ge (hv : b.Valid) (hsome : gatherBlocks b c.ack c.sacks ≠ [])
    (hnil : b.holes = []) (hx : c.Known b' x) : off b.sndUna c.ack ≤ x := by
  obtain ⟨-, -, hack⟩ := oldFack_ok hv hsome
  rcases hx with hin | ⟨hge, -⟩
  · rw [hnil] at hin
    exact absurd hin inHoles_nil
  · exact (hack hnil).trans hge

theorem AckSegment.acks_iff (hv : b.Valid) (hsome : gatherBlocks b c.ack c.sacks ≠ [])
    (hx : c.Known b' x) : c.Acks x ↔ Covered b.sndUna (gatherBlocks b c.ack c.sacks) x := by
  by_cases hnil : b.holes = []
  · have hge := known_ge hv hsome hnil hx
    rw [gather_noHoles hnil]
    exact ⟨fun h => h.resolve_left (not_lt.mpr hge), .inr⟩
  · exact (covered_gather (c.ackOk hv) hnil).symm

/-- The blocks as the sweep walks them, the one with the highest end first. -/
def AckSegment.blocks (c : AckSegment b) : List Block :=
    (sortBlocks (gatherBlocks b c.ack c.sacks)).reverse

theorem AckSegment.mem_blocks {s : Block} : s ∈ c.blocks ↔ s ∈ gatherBlocks b c.ack c.sacks :=
  mem_reverse.trans (sortBlocks_perm _).mem_iff

theorem AckSegment.blocks_ok (hv : b.Valid) : ∀ s ∈ c.blocks, s.Ok b.sndUna b.sndMax :=
  fun _ hs => gatherBlocks_ok (c.ackOk hv) (mem_blocks.mp hs)

theorem AckSegment.blocks_sorted (hv : b.Valid) :
    c.blocks.Pairwise fun s s' => off b.sndUna s'.stop ≤ off b.sndUna s.stop := by
  apply pairwise_reverse.mpr
  apply sortBlocks_sorted
  intro s hs
  exact lt_of_le_of_lt (gatherBlocks_ok (c.ackOk hv) hs).2 hv.window

theorem AckSegment.taken_iff (hv : b.Valid) (hsome : gatherBlocks b c.ack c.sacks ≠ [])
    (h : Taken b.sndUna c.oldFack b'.sndFack b.holes c.blocks t b'.holes) (hok : t.failed = false)
    (x : Nat) : InHoles b.sndUna b'.holes x ↔ c.Known b' x ∧ ¬c.Acks x := by
  constructor
  · intro hx
    have hknown := h.within x hx
    refine ⟨hknown, fun hack => ?_⟩
    obtain ⟨s, hs, hhas⟩ := (acks_iff hv hsome hknown).mp hack
    exact h.clean s (mem_blocks.mpr hs) (.inl hok) x hx hhas
  · rintro ⟨hknown, hnot⟩
    apply h.keeps x hknown
    rintro ⟨s, hs, hhas⟩
    exact hnot ((acks_iff hv hsome hknown).mpr ⟨s, mem_blocks.mp hs, hhas⟩)

/-- The block for the acknowledgement never splits a hole. -/
theorem AckSegment.taken_acked (hv : b.Valid) (hsome : gatherBlocks b c.ack c.sacks ≠ [])
    (h : Taken b.sndUna c.oldFack b'.sndFack b.holes c.blocks t b'.holes)
    (hx : InHoles b.sndUna b'.holes x) : off b.sndUna c.ack ≤ x := by
  by_cases hnil : b.holes = []
  · exact known_ge hv hsome hnil (show c.Known b' x from h.within x hx)
  by_contra hlt
  have hadv : seqLt b.sndUna c.ack = true := (c.ackOk hv).advances.mpr (by omega)
  have hin : ⟨b.sndUna, c.ack⟩ ∈ gatherBlocks b c.ack c.sacks := by
    rw [gatherBlocks, if_pos ⟨hadv, hnil⟩]
    exact mem_cons_self
  apply h.clean _ (mem_blocks.mpr hin) (.inr (off_self _)) x hx
  exact ⟨by rw [off_self]; exact Nat.zero_le x, Nat.not_le.mp hlt⟩

theorem sound_of_taken (hv : b.Valid) (hsome : gatherBlocks b c.ack c.sacks ≠ [])
    (h : Taken b.sndUna c.oldFack b'.sndFack b.holes c.blocks t b'.holes) {newbytes : UInt32}
    (hvalid : b'.Valid) (hord : Ordered b.sndUna 0 (off b.sndUna b'.sndFack) b'.holes)
    (hfits : Fits b.sndUna (newbytes + UInt32.ofNat (size b.sndUna b.holes) +
      UInt32.ofNat (off b.sndUna b'.sndFack - off b.sndUna c.oldFack))
        (b.bytesRexmit = rexmit b.holes) b'.holes t)
    (huna : b'.sndUna = b.sndUna) (hmax : b'.sndMax = b.sndMax)
    (hrexmit : b'.bytesRexmit = t.bytesRexmit) : Sound b c newbytes b' t.newbytes t.failed := by
  have hiff := AckSegment.taken_iff hv hsome h
  obtain ⟨-, hold, -⟩ := AckSegment.oldFack_ok hv hsome
  constructor
  · exact hvalid
  · exact huna
  · exact hmax
  · exact hiff
  · exact fun hok => newbytes_eq hold hord (hiff hok) hfits.bytes
  · exact fun hsum => hrexmit.trans (hfits.rexmit hsum)
  · intro x hknown hnot
    apply h.keeps x hknown
    rintro ⟨s, hs, hhas⟩
    exact hnot ((AckSegment.acks_iff hv hsome hknown).mpr ⟨s, AckSegment.mem_blocks.mp hs, hhas⟩)
  · exact fun x hx => AckSegment.taken_acked hv hsome h hx

/-- No `VERIFY` fails, and the call does what it has to do. -/
theorem tcpSackDoack_sound (hmax : env.maxholes < 2 ^ 15) (hv : b.Valid) (c : AckSegment b)
    (newbytes : UInt32) :
    ∃ b' newbytes' failed, tcpSackDoack env b c.ack c.sacks newbytes =
      some (b', newbytes', failed) ∧
      Sound b c newbytes b' newbytes' failed := by
  by_cases hnone : gatherBlocks b c.ack c.sacks = []
  · refine ⟨b, newbytes, false, ?_, sound_noBlocks hv hnone newbytes⟩
    rw [tcpSackDoack, if_pos hnone]
  have hfack : (if b.holes = [] then seqMax b.sndUna c.ack else b.sndFack) = c.oldFack := by
    simp [AckSegment.oldFack, hnone]
  obtain ⟨hle, hord, -⟩ := AckSegment.oldFack_ok hv hnone
  have hfits : Fits b.sndUna (newbytes + UInt32.ofNat (size b.sndUna b.holes))
      (b.bytesRexmit = rexmit b.holes) b.holes
      ⟨b.numholes, b.bytesRexmit, newbytes, b.reorder, 0, false⟩ :=
    ⟨hv.numholes, hv.few, rfl, id⟩
  have hstarted := startSweep_started hmax hle hv.window hord hfits (c.blocks_ok hv)
  obtain ⟨new, t, heq, hord', hfits', htaken⟩ :=
    hstarted.taken hmax hv.window (c.blocks_ok hv) (c.blocks_sorted hv)
  rw [AckSegment.blocks] at heq
  rw [tcpSackDoack, if_neg hnone, if_neg (not_lt.mpr c.gathered_le)]
  simp only [hfack, heq, Option.map_some]
  refine ⟨_, _, _, rfl, sound_of_taken hv hnone htaken ?_ hord' hfits' rfl rfl rfl⟩
  exact ⟨hv.window, fun _ => ⟨hstarted.le, hord'⟩, hfits'.numholes, hfits'.few⟩

end XnuXzs.Tcp
