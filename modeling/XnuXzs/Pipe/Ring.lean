import XnuXzs.Lib.Ring
import XnuXzs.Pipe.Model

/-!
# The ring of a pipe

What `cnt`, `in` and `out` say about the buffer, and what the copies and the updates of
a read, a write and an expansion do to the unread bytes.
-/

namespace XnuXzs.Pipe

open Lib

theorem add32_eq {a b : Nat} (h : a + b < 2 ^ 32) : add32 a b = a + b := by
  unfold add32
  rw [u32_eq (by omega) (by omega)]
  omega

theorem sub32_eq {a b : Nat} (hle : b ≤ a) (h : a < 2 ^ 32) : sub32 a b = a - b := by
  unfold sub32
  rw [u32_eq (by omega) (by omega)]
  omega

theorem mem_blocks_bounds {n : Nat} (h : n ∈ pipesizeBlocks) : 512 ≤ n ∧ n ≤ 65536 := by
  revert n
  decide

theorem blocks_double {m n : Nat} (hm : m ∈ pipesizeBlocks) (hn : n ∈ pipesizeBlocks) (h : m < n) :
    m + m ≤ n := by
  have hall : ∀ m ∈ pipesizeBlocks, ∀ n ∈ pipesizeBlocks, m < n → m + m ≤ n := by decide
  exact hall m hm n hn h

theorem chooseFrom_le (target i : Nat) : chooseFrom target i ≤ i := by
  induction i with
  | zero => exact le_rfl
  | succ i ih =>
    rw [chooseFrom]
    split
    · exact ih.trans (Nat.le_succ i)
    · exact le_rfl

theorem choosePipespace_mem (current expected : Nat) :
    choosePipespace current expected ∈ pipesizeBlocks := by
  unfold choosePipespace
  have hle := chooseFrom_le (if current < expected then expected else current) 6
  have hlt := Nat.lt_succ_of_le hle
  rw [List.getD_eq_getElem?_getD, List.getElem?_eq_getElem hlt]
  exact List.getElem_mem hlt

def Pipebuf.mem (p : Pipebuf) : Nat → UInt8 := (p.buffer.map Buffer.mem).getD fun _ => 0

/-- The bytes between `out` and `in`. -/
def unread (p : Pipebuf) : List UInt8 := ringAt p.mem p.size p.out p.cnt

/-- The unread bytes lie inside of the buffer, from `out` up to `in`. -/
structure Ring (p : Pipebuf) (b : Buffer) : Prop where
  buffer : p.buffer = some b
  length : b.length = p.size
  block : p.size ∈ pipesizeBlocks
  cnt : p.cnt ≤ p.size
  out : p.out < p.size
  inp : p.inp = if p.out + p.cnt ≤ p.size then p.out + p.cnt else p.out + p.cnt - p.size
  empty : p.cnt = 0 → p.out = 0

/-- There is no buffer yet, or it is described by `cnt`, `in` and `out`. -/
def Layout (p : Pipebuf) : Prop :=
  (p.buffer = none ∧ p.size = 0 ∧ p.cnt = 0 ∧ p.inp = 0 ∧ p.out = 0) ∨ ∃ b, Ring p b

variable {p : Pipebuf} {b : Buffer} {size seg a n : Nat} {bytes : List UInt8}

theorem Ring.mem_eq (h : Ring p b) : p.mem = b.mem := by
  rw [Pipebuf.mem, h.buffer]
  rfl

theorem Ring.size_bounds (h : Ring p b) : 512 ≤ p.size ∧ p.size ≤ 65536 := mem_blocks_bounds h.block

theorem Ring.inp_le (h : Ring p b) : p.inp ≤ p.size := by
  have hcnt := h.cnt
  have hout := h.out
  rw [h.inp]
  split <;> omega

theorem Ring.checkBounds (h : Ring p b) : checkBounds p = .ok b := by
  have hok : ¬(b.length ≠ p.size ∨ p.size < p.inp ∨ p.size < p.out) := by
    have hlength := h.length
    have hinp := h.inp_le
    have hout := h.out
    omega
  simp [Pipe.checkBounds, h.buffer, hok]

theorem Ring.setLocked (h : Ring p b) (locked : Bool) : Ring { p with locked := locked } b :=
  ⟨h.buffer, h.length, h.block, h.cnt, h.out, h.inp, h.empty⟩

theorem Layout.cnt_le (h : Layout p) : p.cnt ≤ p.size := by
  rcases h with ⟨-, -, hcnt, -⟩ | ⟨b, hring⟩
  · exact hcnt ▸ Nat.zero_le _
  · exact hring.cnt

theorem Layout.size_le (h : Layout p) : p.size ≤ 65536 := by
  rcases h with ⟨-, hsize, -⟩ | ⟨b, hring⟩
  · exact hsize ▸ Nat.zero_le _
  · exact hring.size_bounds.2

theorem Layout.ring (h : Layout p) (hpos : 0 < p.size) : ∃ b, Ring p b := by
  rcases h with ⟨-, hsize, -⟩ | hring
  · exact absurd hsize (ne_of_gt hpos)
  · exact hring

theorem Layout.setLocked (h : Layout p) (locked : Bool) : Layout { p with locked := locked } :=
  h.imp id fun ⟨b, hring⟩ => ⟨b, hring.setLocked locked⟩

theorem unread_setLocked (locked : Bool) : unread { p with locked := locked } = unread p := rfl

/-- A round of a write: the bytes fit, and the first of two segments ends with the buffer. -/
structure Round (p : Pipebuf) (size seg : Nat) : Prop where
  pos : 0 < size
  fits : p.cnt + size ≤ p.size
  short : seg ≤ size
  straight : p.inp + seg ≤ p.size
  turn : seg < size → p.inp + seg = p.size

theorem Round.setMem (h : Round p size seg) (b' : Buffer) :
    Round { p with buffer := some b' } size seg :=
  ⟨h.pos, h.fits, h.short, h.straight, h.turn⟩

theorem Ring.setMem (h : Ring p b) (mem : Nat → UInt8) :
    Ring { p with buffer := some { b with mem := mem } } { b with mem := mem } :=
  { h with buffer := rfl }

/-- The places of the unread bytes are not in the segments that are written. -/
theorem Ring.apart (h : Ring p b) {i : Nat} (hround : Round p size seg) (hi : i < p.cnt) :
    ((p.out + i) % p.size < p.inp ∨ p.inp + seg ≤ (p.out + i) % p.size) ∧
      size - seg ≤ (p.out + i) % p.size := by
  obtain ⟨hpos, hfits, hseg, hstraight, hturn⟩ := hround
  have hout := h.out
  have hinp := h.inp
  have hplace : (p.out + i) % p.size = if p.out + i < p.size then p.out + i
      else p.out + i - p.size := by
    split
    · exact Nat.mod_eq_of_lt ‹_›
    · rw [Nat.mod_eq_sub_mod (by omega), Nat.mod_eq_of_lt (by omega)]
  rw [hplace]
  split at hinp <;> split <;> omega

theorem Ring.inp_mod (h : Ring p b) : (p.out + p.cnt) % p.size = p.inp % p.size := by
  rw [h.inp]
  split
  · rfl
  · exact Nat.mod_eq_sub_mod (by omega)

theorem Ring.unread_store (h : Ring p b)
    (hapart : ∀ i < p.cnt, (p.out + i) % p.size < a ∨ a + bytes.length ≤ (p.out + i) % p.size) :
    unread { p with buffer := some { b with mem := storeBytes b.mem a bytes } } = unread p := by
  apply ringAt_congr
  intro i hi
  rw [h.mem_eq]
  exact storeBytes_outside (hapart i hi)

theorem Ring.unread_append (h : Ring p b) (hround : Round p size seg) :
    ringAt p.mem p.size p.out (p.cnt + size) =
      unread p ++ (bytesAt p.mem p.inp seg ++ bytesAt p.mem 0 (size - seg)) := by
  have hsize := hround.fits
  rw [ringAt_add, ringAt_of_mod_eq h.inp_mod,
    ringAt_split hround.short hround.straight hround.turn (by omega)]
  rfl

theorem Ring.advance (h : Ring p b) (hround : Round p size seg) :
    Ring { p with inp := (if p.size < p.inp + size then size - seg else p.inp + size),
                  cnt := p.cnt + size, locked := false } b := by
  obtain ⟨hpos, hfits, hseg, hstraight, hturn⟩ := hround
  have hout := h.out
  have hinp := h.inp
  refine ⟨h.buffer, h.length, h.block, hfits, hout, ?_, fun h0 => ?_⟩
  · dsimp only
    split at hinp <;> split <;> split <;> omega
  · dsimp only at h0
    omega

theorem unread_split (hn : n ≤ p.cnt) (hend : p.out + n ≤ p.size) :
    unread p = bytesAt p.mem p.out n ++ ringAt p.mem p.size (p.out + n) (p.cnt - n) := by
  rw [← ringAt_straight hend, ← ringAt_add, Nat.add_sub_of_le hn]
  rfl

/-- The pipe after a read of `n` bytes. -/
def Pipebuf.consume (p : Pipebuf) (n : Nat) : Pipebuf :=
  { p with
    out := if p.cnt - n = 0 then 0 else if p.size ≤ p.out + n then 0 else p.out + n
    cnt := p.cnt - n
    inp := if p.cnt - n = 0 then 0 else p.inp }

theorem Ring.consume (h : Ring p b) (hn : n ≤ p.cnt) (hend : p.out + n ≤ p.size) :
    Ring (p.consume n) b := by
  have hcnt := h.cnt
  have hout := h.out
  have hinp := h.inp
  refine ⟨h.buffer, h.length, h.block, ?_, ?_, ?_, fun h0 => if_pos h0⟩
  · dsimp only [Pipebuf.consume]
    omega
  · dsimp only [Pipebuf.consume]
    split
    · omega
    · split <;> omega
  dsimp only [Pipebuf.consume]
  by_cases hrest : p.cnt - n = 0
  · simp [hrest]
  · simp only [hrest, if_false]
    split at hinp <;> split <;> split <;> omega

theorem unread_consume (hn : n ≤ p.cnt) (hend : p.out + n ≤ p.size) :
    unread p = bytesAt p.mem p.out n ++ unread (p.consume n) := by
  rw [unread_split hn hend]
  congr 1
  by_cases hrest : p.cnt - n = 0
  · simp [unread, Pipebuf.consume, hrest, ringAt]
  have hmod : (p.out + n) % p.size = (p.consume n).out % p.size := by
    simp only [Pipebuf.consume, hrest, if_false]
    split
    · have heq : p.out + n = p.size := by omega
      simp [heq]
    · rfl
  exact ringAt_of_mod_eq hmod

/-- The old buffer, and again behind itself: a ring that goes on at its start is straight. -/
theorem unread_expand {mem : Nat → UInt8} {p' : Pipebuf} (hsize : p.size + p.size ≤ size)
    (hlow : ∀ x < p.size, mem x = p.mem x)
    (hhigh : p.size < p.out + p.cnt → ∀ x < p.size, mem (p.size + x) = p.mem x)
    (hout : p.out < p.size) (hcnt : p.cnt ≤ p.size)
    (hp' : p'.mem = mem ∧ p'.size = size ∧ p'.out = p.out ∧ p'.cnt = p.cnt) :
    unread p' = unread p := by
  obtain ⟨hmem, hsize', hout', hcnt'⟩ := hp'
  rw [unread, unread, hmem, hsize', hout', hcnt']
  apply ringAt_congr
  intro i hi
  rw [Nat.mod_eq_of_lt (show p.out + i < size by omega)]
  by_cases hstraight : p.out + i < p.size
  · rw [Nat.mod_eq_of_lt hstraight, hlow _ hstraight]
  have hplace : (p.out + i) % p.size = p.out + i - p.size := by
    rw [Nat.mod_eq_sub_mod (by omega), Nat.mod_eq_of_lt (by omega)]
  rw [hplace, ← hhigh (by omega) _ (by omega)]
  congr 1
  omega

theorem Buffer.store_ok (h : a + bytes.length ≤ b.length) :
    b.store a bytes = .ok { b with mem := storeBytes b.mem a bytes } := by
  rw [Buffer.store, rejectIf, if_neg (by omega)]
  rfl

theorem Buffer.load_ok (h : a + n ≤ b.length) : b.load a n = .ok (bytesAt b.mem a n) := by
  rw [Buffer.load, rejectIf, if_neg (by omega)]
  rfl

theorem storeBytes_bytesAt_inside {m m' : Nat → UInt8} {a n x : Nat} (hx : x < n) :
    storeBytes m' a (bytesAt m 0 n) (a + x) = m x := by
  rw [storeBytes_inside (by rwa [bytesAt_length]), bytesAt_getElem, zero_add]

theorem Ring.expandInto {new : Buffer} (h : Ring p b) (hnew : new.length ∈ pipesizeBlocks)
    (hlt : p.size < new.length) : ∃ p' b', expandInto p b new = .ok p' ∧ Ring p' b' ∧
      unread p' = unread p ∧ p'.locked = p.locked := by
  have hcnt := h.cnt
  have hout := h.out
  have hinp := h.inp
  have hlength := h.length
  have hdouble := blocks_double h.block hnew hlt
  have hbound := (mem_blocks_bounds hnew).2
  have hload : b.load 0 p.size = .ok (bytesAt b.mem 0 p.size) := Buffer.load_ok (by omega)
  obtain ⟨mem, hmem⟩ : ∃ mem, mem = storeBytes new.mem 0 (bytesAt b.mem 0 p.size) := ⟨_, rfl⟩
  have hstore : new.store 0 (bytesAt b.mem 0 p.size) = .ok ⟨new.length, mem⟩ :=
    hmem ▸ Buffer.store_ok (by rw [bytesAt_length]; omega)
  have hlow : ∀ x < p.size, mem x = p.mem x := by
    intro x hx
    have hinside := @storeBytes_bytesAt_inside b.mem new.mem 0 p.size x hx
    rw [zero_add] at hinside
    rw [hmem, hinside, h.mem_eq]
  by_cases hwrapped : 0 < p.cnt ∧ p.inp ≤ p.out
  · obtain ⟨mem', hmem'⟩ : ∃ mem', mem' = storeBytes mem p.size (bytesAt b.mem 0 p.size) := ⟨_, rfl⟩
    have htwice : Buffer.store ⟨new.length, mem⟩ p.size (bytesAt b.mem 0 p.size) =
        .ok ⟨new.length, mem'⟩ :=
      hmem' ▸ Buffer.store_ok (by rw [bytesAt_length]; exact hdouble)
    refine ⟨{ p with
        buffer := some ⟨new.length, mem'⟩, size := new.length, inp := add32 p.inp p.size }, _, ?_,
      ⟨rfl, rfl, hnew, hcnt.trans hlt.le, hout.trans hlt, ?_, h.empty⟩, ?_, rfl⟩
    · simp only [Pipe.expandInto, hload, hstore, ok_bind, hwrapped, and_self, if_true, htwice]
      rfl
    · dsimp only
      rw [add32_eq (by omega)]
      split at hinp <;> split <;> omega
    refine unread_expand hdouble ?_ ?_ hout hcnt ⟨rfl, rfl, rfl, rfl⟩
    · intro x hx
      exact (congrFun hmem' x).trans ((storeBytes_outside (.inl hx)).trans (hlow x hx))
    · intro _ x hx
      exact (congrFun hmem' _).trans (h.mem_eq ▸ storeBytes_bytesAt_inside hx)
  · refine ⟨{ p with buffer := some ⟨new.length, mem⟩, size := new.length }, _, ?_,
      ⟨rfl, rfl, hnew, hcnt.trans hlt.le, hout.trans hlt, ?_, h.empty⟩, ?_, rfl⟩
    · simp only [Pipe.expandInto, hload, hstore, ok_bind, hwrapped, if_false]
      rfl
    · dsimp only
      split at hinp <;> split <;> omega
    · refine unread_expand hdouble hlow ?_ hout hcnt ⟨rfl, rfl, rfl, rfl⟩
      intro hover
      split at hinp <;> omega

end XnuXzs.Pipe
