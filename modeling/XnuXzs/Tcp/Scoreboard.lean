import XnuXzs.Tcp.Sack

/-!
# Holes as bytes

All sequence numbers of a call are less than 2^31 ahead of `snd_una`, so that their
comparisons are those of the distances from it. Holes are sets of such distances.
-/

namespace XnuXzs.Tcp

open Lib

def off (una x : UInt32) : Nat := (x - una).toNat

/-- Distances for which comparisons are right. -/
def Near (una x : UInt32) : Prop := off una x < 2 ^ 31

variable {una x y : UInt32}

theorem off_eq (una x : UInt32) : off una x = (2 ^ 32 - una.toNat + x.toNat) % 2 ^ 32 :=
  UInt32.toNat_sub x una

theorem seqDiff_off (hx : Near una x) (hy : Near una y) :
    seqDiff x y = (off una x : Int) - off una y := by
  unfold Near at hx hy
  rw [off_eq] at hx hy ⊢
  rw [off_eq]
  unfold seqDiff i32
  omega

theorem seqLt_iff (hx : Near una x) (hy : Near una y) :
    seqLt x y = true ↔ off una x < off una y := by
  rw [seqLt, seqDiff_off hx hy, decide_eq_true_iff]
  omega

theorem seqLeq_iff (hx : Near una x) (hy : Near una y) :
    seqLeq x y = true ↔ off una x ≤ off una y := by
  rw [seqLeq, seqDiff_off hx hy, decide_eq_true_iff]
  omega

theorem seqGt_iff' (hx : Near una x) (hy : Near una y) :
    seqGt x y = true ↔ off una y < off una x := by
  rw [seqGt, seqDiff_off hx hy, decide_eq_true_iff]
  omega

theorem seqGeq_iff (hx : Near una x) (hy : Near una y) :
    seqGeq x y = true ↔ off una y ≤ off una x := by
  rw [seqGeq, seqDiff_off hx hy, decide_eq_true_iff]
  omega

theorem off_seqMin (hx : Near una x) (hy : Near una y) :
    off una (seqMin x y) = min (off una x) (off una y) := by
  rw [seqMin]
  split_ifs with h
  · rw [seqLt_iff hx hy] at h
    omega
  · rw [seqLt_iff hx hy] at h
    omega

theorem off_seqMax (hx : Near una x) (hy : Near una y) :
    off una (seqMax x y) = max (off una x) (off una y) := by
  rw [seqMax]
  split_ifs with h
  · rw [seqGt_iff' hx hy] at h
    omega
  · rw [seqGt_iff' hx hy] at h
    omega

theorem toNat_sub_off (h : off una x ≤ off una y) : (y - x).toNat = off una y - off una x := by
  have hxx := x.toNat_lt
  rw [off_eq, off_eq] at *
  rw [UInt32.toNat_sub]
  omega

theorem off_self (una : UInt32) : off una una = 0 := by simp [off]

structure HoleOk (una : UInt32) (h : Hole) : Prop where
  nonempty : off una h.start < off una h.stop
  rxmit_ge : off una h.start ≤ off una h.rxmit
  rxmit_le : off una h.rxmit ≤ off una h.stop

/-- In order and apart, between `lo` and `hi`. -/
def Ordered (una : UInt32) : Nat → Nat → List Hole → Prop
  | lo, hi, [] => lo ≤ hi
  | lo, hi, h :: hs => lo ≤ off una h.start ∧ HoleOk una h ∧ Ordered una (off una h.stop) hi hs

def Hole.Has (una : UInt32) (h : Hole) (x : Nat) : Prop := off una h.start ≤ x ∧ x < off una h.stop

def Block.Has (una : UInt32) (b : Block) (x : Nat) : Prop :=
    off una b.start ≤ x ∧ x < off una b.stop

def InHoles (una : UInt32) (hs : List Hole) (x : Nat) : Prop := ∃ h ∈ hs, h.Has una x

/-- The byte is acknowledged by a block. -/
def Covered (una : UInt32) (bs : List Block) (x : Nat) : Prop := ∃ b ∈ bs, b.Has una x

def holeSize (una : UInt32) (h : Hole) : Nat := off una h.stop - off una h.start

def size (una : UInt32) (hs : List Hole) : Nat := (hs.map (holeSize una)).sum

/-- The number of bytes in the holes that have been retransmitted. -/
def rexmit (hs : List Hole) : Nat := (hs.map fun h => h.rexmitted.toNat).sum

variable {lo hi x : Nat} {hs hs' : List Hole} {h : Hole}

@[simp] theorem inHoles_nil : ¬InHoles una [] x := by simp [InHoles]

@[simp] theorem inHoles_cons : InHoles una (h :: hs) x ↔ h.Has una x ∨ InHoles una hs x := by
  simp [InHoles]

@[simp] theorem inHoles_append : InHoles una (hs ++ hs') x ↔
  InHoles una hs x ∨ InHoles una hs' x := by
  simp [InHoles, or_and_right, exists_or]

@[simp] theorem covered_nil : ¬Covered una [] x := by simp [Covered]

@[simp] theorem covered_cons {b : Block} {bs : List Block} :
    Covered una (b :: bs) x ↔ b.Has una x ∨ Covered una bs x := by
  simp [Covered]

@[simp] theorem size_nil : size una [] = 0 := rfl

@[simp] theorem size_cons : size una (h :: hs) = holeSize una h + size una hs := by simp [size]

@[simp] theorem size_append : size una (hs ++ hs') = size una hs + size una hs' := by simp [size]

@[simp] theorem rexmit_nil : rexmit [] = 0 := rfl

@[simp] theorem rexmit_cons : rexmit (h :: hs) = h.rexmitted.toNat + rexmit hs := by simp [rexmit]

@[simp] theorem rexmit_append : rexmit (hs ++ hs') = rexmit hs + rexmit hs' := by simp [rexmit]

theorem Ordered.le (h : Ordered una lo hi hs) : lo ≤ hi := by
  induction hs generalizing lo with
  | nil => exact h
  | cons h' hs ih =>
    obtain ⟨hlo, hok, hrest⟩ := h
    have hle := ih hrest
    have hne := hok.nonempty
    omega

theorem Ordered.weaken {lo' hi' : Nat} (h : Ordered una lo hi hs) (hlo : lo' ≤ lo)
    (hhi : hi ≤ hi') :
    Ordered una lo' hi' hs := by
  induction hs generalizing lo lo' with
  | nil => exact hlo.trans (le_trans h hhi)
  | cons h' hs ih =>
    obtain ⟨hlo', hok, hrest⟩ := h
    exact ⟨hlo.trans hlo', hok, ih hrest le_rfl⟩

theorem ordered_append : Ordered una lo hi (hs ++ hs') ↔
    ∃ mid, Ordered una lo mid hs ∧ Ordered una mid hi hs' := by
  induction hs generalizing lo with
  | nil =>
    constructor
    · exact fun h => ⟨lo, le_rfl, h⟩
    · rintro ⟨mid, hlo, hrest⟩
      exact hrest.weaken hlo le_rfl
  | cons h' hs ih =>
    constructor
    · rintro ⟨hlo, hok, hrest⟩
      obtain ⟨mid, hfront, hback⟩ := ih.mp hrest
      exact ⟨mid, ⟨hlo, hok, hfront⟩, hback⟩
    · rintro ⟨mid, ⟨hlo, hok, hfront⟩, hback⟩
      exact ⟨hlo, hok, ih.mpr ⟨mid, hfront, hback⟩⟩

theorem Ordered.bounds (h : Ordered una lo hi hs) (hx : InHoles una hs x) : lo ≤ x ∧ x < hi := by
  induction hs generalizing lo with
  | nil => exact absurd hx inHoles_nil
  | cons h' hs ih =>
    obtain ⟨hlo, hok, hrest⟩ := h
    rcases inHoles_cons.mp hx with hhas | hin
    · have hle := hrest.le
      exact ⟨hlo.trans hhas.1, hhas.2.trans_le hle⟩
    · obtain ⟨hge, hlt⟩ := ih hrest hin
      have hne := hok.nonempty
      omega

theorem Ordered.size_le (h : Ordered una lo hi hs) : lo + size una hs ≤ hi := by
  induction hs generalizing lo with
  | nil => exact h
  | cons h' hs ih =>
    obtain ⟨hlo, hok, hrest⟩ := h
    have hle := ih hrest
    have hne := hok.nonempty
    rw [size_cons, holeSize]
    omega

theorem HoleOk.rexmitted_eq (h' : HoleOk una h) :
    h.rexmitted.toNat = off una h.rxmit - off una h.start := toNat_sub_off h'.rxmit_ge

theorem Ordered.rexmit_le (h : Ordered una lo hi hs) : rexmit hs ≤ size una hs := by
  induction hs generalizing lo with
  | nil => exact le_rfl
  | cons h' hs ih =>
    obtain ⟨hlo, hok, hrest⟩ := h
    have hle := ih hrest
    have hrx := hok.rxmit_le
    rw [rexmit_cons, size_cons, hok.rexmitted_eq, holeSize]
    omega

theorem Ordered.replace {front back new : List Hole} (h : Ordered una lo hi (front ++ h' :: back))
    (hnew : Ordered una (off una h'.start) (off una h'.stop) new) :
    Ordered una lo hi (front ++ (new ++ back)) := by
  obtain ⟨mid, hfront, hlo, hok, hback⟩ := ordered_append.mp h
  exact ordered_append.mpr ⟨mid, hfront, ordered_append.mpr ⟨_, hnew.weaken hlo le_rfl, hback⟩⟩

end XnuXzs.Tcp
