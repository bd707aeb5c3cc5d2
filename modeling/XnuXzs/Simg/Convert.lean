import XnuXzs.Lib.Guard
import XnuXzs.Simg.Format

/-!
# From a raw image to a sparse one

`raw2simg.py`: the blocks of an HFS+ image are written as raw, fill and don't-care chunks, as
the allocation bitmap says. A chunk is flushed when another kind of block comes.
-/

namespace XnuXzs.Simg

open XnuXzs.Lib List

def blkSz : Nat := 4096
def maxRawBlks : Nat := 16384
def batchBlks : Nat := 4096

structure Image where
  byte : Nat → UInt8
  size : Nat

/-- The exceptions that the script can raise. -/
inductive PyError where
  | valueError
  | structError
  | indexError
  deriving DecidableEq, Repr

/-- `fin.read(n)` at a position; at the end of the file there is less. -/
def Image.read (img : Image) (pos n : Nat) : List UInt8 :=
    bytesAt img.byte pos (min n (img.size - pos))

/-- A big-endian field of the volume header. -/
def vhField (vh : List UInt8) (off n : Nat) : Nat := leValue ((vh.drop off).take n).reverse

def Image.volumeHeader (img : Image) : List UInt8 := img.read 1024 512

/-- The extents of the allocation file, up to the first empty one. -/
def allocExtents (vh : List UInt8) : List (Nat × Nat) :=
  ((List.range 8).map fun i =>
    (vhField vh (128 + i * 8) 4, vhField vh (128 + i * 8 + 4) 4)).takeWhile
    (·.2 ≠ 0)

def readAllocationBitmap (img : Image) (vh : List UInt8) (totalBlks : Nat) : List UInt8 :=
  let bitmap := (allocExtents vh).flatMap fun e => img.read (e.1 * blkSz) (e.2 * blkSz)
  bitmap.take (max (vhField vh 112 8) ((totalBlks + 7) / 8))

inductive Kind where
  | raw
  | fill
  | dontCare
  deriving DecidableEq, Repr

/-- `cur_type`, `cur_count`, `raw_buf`, what is written behind the header, and `total_chunks`. -/
structure Writer where
  kind : Option Kind
  count : Nat
  rawBuf : List UInt8
  out : List UInt8
  chunks : Nat

/-- `struct.pack("<HHII", ...)`. -/
def packChunk (type count size : Nat) : Except PyError (List UInt8) :=
  if count < 2 ^ 32 ∧ size < 2 ^ 32 then .ok (chunkHeader type count size) else .error .structError

/-- What `flush_current` writes. -/
def Writer.bytes (w : Writer) : Kind → Except PyError (List UInt8)
  | .raw => (packChunk typeRaw w.count (12 + w.rawBuf.length)).map (· ++ w.rawBuf)
  | .fill => (packChunk typeFill w.count 16).map (· ++ leBytes 4 0)
  | .dontCare => packChunk typeDontCare w.count 12

def Writer.flush (w : Writer) : Except PyError Writer :=
  match w.kind with
  | none => .ok w
  | some kind =>
    if w.count = 0 then .ok w
    else do
      let bytes ← w.bytes kind
      .ok
        { kind := none
          count := 0
          rawBuf := if kind = .raw then [] else w.rawBuf
          out := w.out ++ bytes
          chunks := w.chunks + 1 }

/-- What is pending is flushed if it is of another kind, or full. -/
def Writer.turnTo (w : Writer) (kind : Kind) (full : Bool) : Except PyError Writer :=
  if w.kind ≠ some kind ∨ full then w.flush.map fun w => { w with kind := some kind } else .ok w

def Writer.add (w : Writer) (kind : Kind) (full : Bool) (n : Nat) (data : List UInt8) :
    Except PyError Writer := do
  let w ← w.turnTo kind full
  .ok { w with count := w.count + n, rawBuf := w.rawBuf ++ data }

/-- One block of a batch that was read. -/
def addBlock (bitmap buf : List UInt8) (blkIdx i : Nat) (w : Writer) : Except PyError Writer :=
  let b := blkIdx + i
  match bitmap[b / 8]? with
  | none => .error .indexError
  | some byte =>
    if (byte.toNat >>> (7 - b % 8)) % 2 = 0 then w.add .dontCare false 1 []
    else
      let blk := (buf.drop (i * blkSz)).take blkSz
      if blk = List.replicate blkSz 0 then w.add .fill false 1 []
      else w.add .raw (maxRawBlks ≤ w.count) 1 blk

/-- `n` blocks of a batch, from the `i`-th on. -/
def addBlocks (bitmap buf : List UInt8) (blkIdx : Nat) :
    (n i : Nat) → Writer → Except PyError Writer
  | 0, _, w => .ok w
  | n + 1, i, w => do
    let w ← addBlock bitmap buf blkIdx i w
    addBlocks bitmap buf blkIdx n (i + 1) w

/-- The batches, with the position of the input file. -/
def convertLoop (img : Image) (bitmap : List UInt8) (totalBlks blkIdx pos : Nat) (w : Writer) :
    Except PyError Writer :=
  if blkIdx < totalBlks then
    let toRead := min batchBlks (totalBlks - blkIdx)
    let bStart := blkIdx / 8
    let bEnd := (blkIdx + toRead) / 8
    if blkIdx % 8 = 0 ∧ toRead % 8 = 0 ∧
        (bitmap.drop bStart).take (bEnd - bStart) = List.replicate (bEnd - bStart) 0 then do
      let w ← w.add .dontCare false toRead []
      convertLoop img bitmap totalBlks (blkIdx + toRead) ((blkIdx + toRead) * blkSz) w
    else do
      let buf := img.read pos (toRead * blkSz)
      let w ← addBlocks bitmap buf blkIdx toRead 0 w
      convertLoop img bitmap totalBlks (blkIdx + toRead) (pos + buf.length) w
  else .ok w
termination_by totalBlks - blkIdx
decreasing_by all_goals (simp only [batchBlks]; omega)

/-- The bytes `HX` and `H+`. -/
def signatures : List (List UInt8) := [[0x48, 0x58], [0x48, 0x2b]]

/-- `main`, on an image; the result is the content of the output file. -/
def raw2simg (img : Image) : Except PyError (List UInt8) :=
  if img.size % blkSz ≠ 0 then .error .valueError
  else
    let totalBlks := img.size / blkSz
    let vh := img.volumeHeader
    if vh.take 2 ∉ signatures then .error .valueError
    else do
      let bitmap := readAllocationBitmap img vh totalBlks
      let w ← convertLoop img bitmap totalBlks 0 0 ⟨none, 0, [], [], 0⟩
      let w ← w.flush
      if totalBlks < 2 ^ 32 ∧ w.chunks < 2 ^ 32 then
        .ok (sparseHeader blkSz totalBlks w.chunks ++ w.out)
      else .error .structError

def Image.block (img : Image) (b : Nat) : List UInt8 := bytesAt img.byte (b * blkSz) blkSz

/-- The bit of a block, from the high end of its byte. -/
def allocated (bitmap : List UInt8) (b : Nat) : Bool :=
  (bitmap.getD (b / 8) 0).toNat.testBit (7 - b % 8)

/-- What a block has to become: itself if it is allocated. -/
def wanted (img : Image) (bitmap : List UInt8) (b : Nat) : Option (List UInt8) :=
  if allocated bitmap b then some (img.block b) else none

section
variable (want : Nat → Option (List UInt8))

def Chunk.RightAt (start : Nat) : Chunk → Prop
  | .raw n data => data.length = n * blkSz ∧
    ∀ i < n, want (start + i) = some ((data.drop (i * blkSz)).take blkSz)
  | .fill n word => word = leBytes 4 0 ∧ ∀ i < n, want (start + i) = some (List.replicate blkSz 0)
  | .dontCare n => ∀ i < n, want (start + i) = none

def RightFrom : (start : Nat) → List Chunk → Prop
  | _, [] => True
  | start, c :: cs => c.RightAt want start ∧ RightFrom (start + c.count) cs

def blocks (cs : List Chunk) : Nat := (cs.map Chunk.count).sum

def pending (kind : Kind) (count : Nat) (rawBuf : List UInt8) : Chunk :=
  match kind with
  | .raw => .raw count rawBuf
  | .fill => .fill count (leBytes 4 0)
  | .dontCare => .dontCare count

variable {want} {start n : Nat} {kind : Kind} {data : List UInt8} {cs : List Chunk} {c : Chunk}

theorem pending_count (kind : Kind) (count : Nat) (rawBuf : List UInt8) :
    (pending kind count rawBuf).count = count := by
  cases kind <;> rfl

theorem rightFrom_snoc :
    RightFrom want start (cs ++ [c]) ↔ RightFrom want start cs ∧
      c.RightAt want (start + blocks cs) := by
  induction cs generalizing start with
  | nil => simp [RightFrom, blocks]
  | cons d cs ih =>
    have hsum : start + blocks (d :: cs) = start + d.count + blocks cs := by
      simp only [blocks, map_cons, sum_cons]
      omega
    rw [cons_append, RightFrom, RightFrom, ih, hsum, and_assoc]

theorem block_end_le {i n : Nat} (h : i < n) : i * blkSz + blkSz ≤ n * blkSz := by
  rw [← Nat.succ_mul]
  exact Nat.mul_le_mul_right _ h

theorem pending_append {m : Nat} {buf : List UInt8} (hbuf : (pending kind m buf).RightAt want start)
    (hdata : (pending kind n data).RightAt want (start + m)) :
    (pending kind (m + n) (buf ++ data)).RightAt want start := by
  cases kind with
  | raw =>
    obtain ⟨hlen, hleft⟩ := hbuf
    obtain ⟨hlen', hright⟩ := hdata
    refine ⟨by rw [length_append, hlen, hlen', add_mul], fun i hi => ?_⟩
    by_cases him : i < m
    · have hend := block_end_le him
      rw [hleft i him, drop_append_of_le_length (by omega), take_append_of_le_length]
      rw [length_drop]
      omega
    · obtain ⟨j, rfl⟩ := Nat.exists_eq_add_of_le (not_lt.mp him)
      rw [← add_assoc, hright j (by omega), add_mul, ← hlen, drop_length_add_append]
  | fill =>
    refine ⟨rfl, fun i hi => ?_⟩
    by_cases him : i < m
    · exact hbuf.2 i him
    · obtain ⟨j, rfl⟩ := Nat.exists_eq_add_of_le (not_lt.mp him)
      rw [← add_assoc]
      exact hdata.2 j (by omega)
  | dontCare =>
    intro i hi
    by_cases him : i < m
    · exact hbuf i him
    · obtain ⟨j, rfl⟩ := Nat.exists_eq_add_of_le (not_lt.mp him)
      rw [← add_assoc]
      exact hdata j (by omega)

theorem zeroWords (n : Nat) :
    (List.replicate (n * blkSz / 4) (leBytes 4 0)).flatten = List.replicate (n * blkSz) 0 := by
  have hword : leBytes 4 0 = List.replicate 4 0 := by decide
  rw [hword, flatten_replicate_replicate]
  congr 1
  rw [blkSz]
  omega

theorem Chunk.expand_right (h : c.RightAt want start) (junk : Nat → UInt8) :
    (c.expand blkSz junk start).length = c.count * blkSz ∧
      ∀ i < c.count, ∀ blk, want (start + i) = some blk →
      ((c.expand blkSz junk start).drop (i * blkSz)).take blkSz = blk := by
  cases c with
  | raw n data =>
    refine ⟨h.1, fun i hi blk hblk => ?_⟩
    rw [h.2 i hi] at hblk
    exact Option.some.inj hblk
  | fill n word =>
    obtain ⟨rfl, hzero⟩ := h
    rw [Chunk.expand, zeroWords]
    refine ⟨length_replicate, fun i hi blk hblk => ?_⟩
    have hend := @block_end_le i n hi
    rw [hzero i hi] at hblk
    rw [drop_replicate, take_replicate, ← Option.some.inj hblk]
    congr 1
    omega
  | dontCare n =>
    refine ⟨bytesAt_length .., fun i hi blk hblk => ?_⟩
    rw [h i hi] at hblk
    cases hblk

theorem expandChunks_right (h : RightFrom want start cs) (junk : Nat → UInt8) :
    (expandChunks blkSz junk start cs).length = blocks cs * blkSz ∧ ∀ i < blocks cs, ∀ blk,
      want (start + i) = some blk →
        ((expandChunks blkSz junk start cs).drop (i * blkSz)).take blkSz = blk := by
  induction cs generalizing start with
  | nil => exact ⟨by simp [expandChunks, blocks], fun i hi => absurd hi (Nat.not_lt_zero i)⟩
  | cons c cs ih =>
    obtain ⟨hlen, hhead⟩ := Chunk.expand_right h.1 junk
    obtain ⟨hlen', htail⟩ := ih h.2
    have hsum : blocks (c :: cs) = c.count + blocks cs := by
      simp [blocks]
    rw [expandChunks, hsum]
    refine ⟨by rw [length_append, hlen, hlen', add_mul], fun i hi blk hblk => ?_⟩
    by_cases hic : i < c.count
    · have hend := block_end_le hic
      rw [drop_append_of_le_length (by omega), take_append_of_le_length]
      · exact hhead i hic blk hblk
      · rw [length_drop]
        omega
    · obtain ⟨j, rfl⟩ := Nat.exists_eq_add_of_le (not_lt.mp hic)
      rw [add_mul, ← hlen, drop_length_add_append]
      apply htail j (by omega)
      rwa [add_assoc]

/-- The chunks written, and the one that is pending, stand for the first `k` blocks. -/
structure Progress (want : Nat → Option (List UInt8)) (k : Nat) (w : Writer) (cs : List Chunk) :
    Prop where
  out : w.out = cs.flatMap encodeChunk
  chunks : w.chunks = cs.length
  fits : ∀ c ∈ cs, c.Fits blkSz
  pos : ∀ c ∈ cs, 0 < c.count
  right : RightFrom want 0 cs
  idle : w.kind = none → w.count = 0
  buf : w.kind ≠ some .raw → w.rawBuf = []
  cap : w.kind = some .raw → w.count ≤ maxRawBlks
  held : ∀ kind, w.kind = some kind → (pending kind w.count w.rawBuf).RightAt want (blocks cs)
  total : blocks cs + w.count = k

variable {k : Nat} {w : Writer}

/-- A right chunk of not too many blocks fits into its header. -/
theorem pending_fits (hn : n < 2 ^ 32) (hcap : kind = .raw → n ≤ maxRawBlks)
    (h : (pending kind n data).RightAt want start) : (pending kind n data).Fits blkSz := by
  cases kind with
  | raw =>
    have hle := hcap rfl
    have hlen := h.1
    refine ⟨hn, hlen, ?_⟩
    rw [hlen, blkSz]
    rw [maxRawBlks] at hle
    omega
  | fill => exact ⟨hn, rfl⟩
  | dontCare => exact hn

theorem Writer.bytes_eq (h : (pending kind w.count w.rawBuf).Fits blkSz) :
    w.bytes kind = .ok (encodeChunk (pending kind w.count w.rawBuf)) := by
  cases kind with
  | raw =>
    rw [Writer.bytes, packChunk, if_pos ⟨h.1, h.2.2⟩]
    rfl
  | fill =>
    rw [Writer.bytes, packChunk, if_pos ⟨h.1, by decide⟩]
    rfl
  | dontCare =>
    rw [Writer.bytes, packChunk, if_pos ⟨h, by decide⟩]
    rfl

section

variable (h : Progress want k w cs)
include h

theorem Progress.flush (hk : k < 2 ^ 32) :
    ∃ w' cs', w.flush = .ok w' ∧ Progress want k w' cs' ∧ w'.count = 0 ∧ w'.rawBuf = [] := by
  have htotal := h.total
  cases hkind : w.kind with
  | none => exact ⟨w, cs, by rw [Writer.flush, hkind], h, h.idle hkind,
      h.buf (by rw [hkind]; nofun)⟩
  | some kind =>
    have hheld := h.held kind hkind
    by_cases hzero : w.count = 0
    · refine ⟨w, cs, by simp [Writer.flush, hkind, hzero], h, hzero, ?_⟩
      by_cases hraw : kind = .raw
      · subst hraw
        have hlen := hheld.1
        rw [hzero, zero_mul] at hlen
        exact length_eq_zero_iff.mp hlen
      · exact h.buf fun hr => hraw (Option.some.inj (hkind.symm.trans hr))
    · have hcap : kind = .raw → w.count ≤ maxRawBlks := fun hr => h.cap (by rw [hkind, hr])
      have hfits := pending_fits (by omega) hcap hheld
      have hbuf : (if kind = .raw then [] else w.rawBuf) = [] := by
        split_ifs with hraw
        · rfl
        · exact h.buf fun hr => hraw (Option.some.inj (hkind.symm.trans hr))
      have hsum : blocks (cs ++ [pending kind w.count w.rawBuf]) = blocks cs + w.count := by
        simp [blocks, pending_count]
      have hfits' : ∀ c ∈ cs ++ [pending kind w.count w.rawBuf], c.Fits blkSz := by
        rw [forall_mem_append, forall_mem_singleton]
        exact ⟨h.fits, hfits⟩
      have hpos' : ∀ c ∈ cs ++ [pending kind w.count w.rawBuf], 0 < c.count := by
        rw [forall_mem_append, forall_mem_singleton, pending_count]
        exact ⟨h.pos, by omega⟩
      have hright' : RightFrom want 0 (cs ++ [pending kind w.count w.rawBuf]) := by
        rw [rightFrom_snoc, zero_add]
        exact ⟨h.right, hheld⟩
      have hstep : w.flush = .ok ⟨none, 0, [], w.out ++ encodeChunk (pending kind w.count w.rawBuf),
          w.chunks + 1⟩ := by
        simp only [Writer.flush, hkind, hzero, if_false, Writer.bytes_eq hfits, hbuf]
        rfl
      refine ⟨_, cs ++ [pending kind w.count w.rawBuf], hstep, ?_, rfl, rfl⟩
      refine ⟨?_, ?_, hfits', hpos', hright', fun _ => rfl, fun _ => rfl, nofun, nofun, ?_⟩
      · simp [h.out]
      · simp [h.chunks]
      · rw [hsum]
        exact htotal

/-- Before blocks of a kind are added, nothing of another kind is pending. -/
theorem Progress.turnTo (hk : k < 2 ^ 32) (kind : Kind) (full : Bool)
    (hcap : kind = .raw → n ≤ maxRawBlks ∧
      (w.kind = some .raw → full = false → w.count + n ≤ maxRawBlks)) :
    ∃ w' cs', w.turnTo kind full = .ok w' ∧ Progress want k w' cs' ∧ w'.kind = some kind ∧
      (kind = .raw → w'.count + n ≤ maxRawBlks) := by
  rw [Writer.turnTo]
  split_ifs with hstay
  · obtain ⟨w', cs', hflush, hw', hcount, hbuf⟩ := h.flush hk
    refine ⟨{ w' with kind := some kind }, cs', by rw [hflush]; rfl, ?_, rfl, ?_⟩
    · refine ⟨hw'.out, hw'.chunks, hw'.fits, hw'.pos, hw'.right, nofun, fun _ =>
        hbuf, ?_, ?_, hw'.total⟩
      · intro _
        change w'.count ≤ _
        omega
      rintro kind' -
      rw [hcount, hbuf]
      cases kind' with
      | raw | fill => exact ⟨rfl, nofun⟩
      | dontCare => exact nofun
    · intro hraw
      rw [hcount, zero_add]
      exact (hcap hraw).1
  · rw [not_or, not_not, Bool.not_eq_true] at hstay
    refine ⟨w, cs, rfl, h, hstay.1, fun hraw => ?_⟩
    exact (hcap hraw).2 (by rw [hstay.1, hraw]) hstay.2

theorem Progress.add (hk : k < 2 ^ 32) {full : Bool}
    (hpiece : (pending kind n data).RightAt want k) (hdata : kind ≠ .raw → data = [])
    (hcap : kind = .raw → n ≤ maxRawBlks ∧
      (w.kind = some .raw → full = false → w.count + n ≤ maxRawBlks)) :
    ∃ w' cs', w.add kind full n data = .ok w' ∧ Progress want (k + n) w' cs' := by
  obtain ⟨w', cs', hturn, hw', hkind, hroom⟩ := h.turnTo hk kind full hcap
  have htotal := hw'.total
  refine ⟨{ w' with count := w'.count + n, rawBuf := w'.rawBuf ++ data }, cs', by
    rw [Writer.add, hturn, ok_bind], ?_⟩
  refine ⟨hw'.out, hw'.chunks, hw'.fits, hw'.pos, hw'.right, ?_, ?_, ?_, ?_, ?_⟩
  · intro hnone
    rw [show w'.kind = none from hnone] at hkind
    cases hkind
  · intro hother
    have hne : kind ≠ .raw := fun hraw => hother (by rw [← hraw]; exact hkind)
    rw [hdata hne, append_nil]
    exact hw'.buf fun hraw => hother hraw
  · intro hraw
    exact hroom (Option.some.inj (hkind.symm.trans hraw))
  · intro kind' hkind'
    obtain rfl : kind = kind' := Option.some.inj (hkind.symm.trans hkind')
    apply pending_append (hw'.held kind hkind)
    rw [htotal]
    exact hpiece
  · change blocks cs' + (w'.count + n) = k + n
    omega

theorem Progress.addOther (hk : k < 2 ^ 32) (kind : Kind)
    (hkind : kind ≠ .raw) (hpiece : (pending kind n []).RightAt want k) :
    ∃ w' cs', w.add kind false n [] = .ok w' ∧ Progress want (k + n) w' cs' :=
  h.add hk hpiece (fun _ => rfl) fun hraw => absurd hraw hkind

end

end

variable {img : Image} {bitmap buf : List UInt8} {totalBlks blkIdx i toRead j blks : Nat}
  {w : Writer} {cs : List Chunk}

theorem bit_eq_zero {byte : UInt8} {b : Nat} (h : bitmap[b / 8]? = some byte) :
    (byte.toNat >>> (7 - b % 8)) % 2 = 0 ↔ allocated bitmap b = false := by
  have hbyte : bitmap.getD (b / 8) 0 = byte := by
    rw [getD_eq_getElem?_getD, h]
    rfl
  rw [allocated, hbyte, Nat.testBit_eq_decide_div_mod_eq, Nat.shiftRight_eq_div_pow,
    decide_eq_false_iff_not]
  omega

theorem image_block_length (b : Nat) : (img.block b).length = blkSz := bytesAt_length ..

theorem addBlock_progress (h : Progress (wanted img bitmap) (blkIdx + i) w cs)
    (hk : blkIdx + i < 2 ^ 32) (hcover : blkIdx + i < 8 * bitmap.length)
    (hbuf : (buf.drop (i * blkSz)).take blkSz = img.block (blkIdx + i)) :
    ∃ w' cs', addBlock bitmap buf blkIdx i w = .ok w' ∧
      Progress (wanted img bitmap) (blkIdx + i + 1) w' cs' := by
  have hin : (blkIdx + i) / 8 < bitmap.length := by omega
  have hbyte := getElem?_eq_getElem hin
  have hbit := bit_eq_zero hbyte
  simp only [addBlock, hbyte, hbuf, hbit]
  by_cases halloc : allocated bitmap (blkIdx + i) = false
  · rw [if_pos halloc]
    refine h.addOther hk .dontCare nofun fun j hj => ?_
    rw [Nat.lt_one_iff.mp hj, add_zero, wanted, halloc]
    rfl
  have hwant : wanted img bitmap (blkIdx + i) = some (img.block (blkIdx + i)) :=
    if_pos (by simpa using halloc)
  rw [if_neg halloc]
  split
  · rename_i hzero
    refine h.addOther hk .fill nofun ⟨rfl, fun j hj => ?_⟩
    rw [Nat.lt_one_iff.mp hj, add_zero, hwant, hzero]
  apply h.add hk _ (absurd rfl)
  · refine fun _ => ⟨by decide, fun _ hroom => ?_⟩
    have hlt := of_decide_eq_false hroom
    omega
  · refine ⟨by rw [image_block_length, one_mul], fun j hj => ?_⟩
    rw [Nat.lt_one_iff.mp hj, add_zero, hwant, zero_mul, drop_zero,
      take_of_length_le (by rw [image_block_length])]

theorem addBlocks_progress {n : Nat} (h : Progress (wanted img bitmap) (blkIdx + i) w cs)
    (hk : blkIdx + i + n ≤ 2 ^ 32) (hcover : blkIdx + i + n ≤ 8 * bitmap.length)
    (hbuf : ∀ j < i + n, (buf.drop (j * blkSz)).take blkSz = img.block (blkIdx + j)) :
    ∃ w' cs', addBlocks bitmap buf blkIdx n i w = .ok w' ∧
      Progress (wanted img bitmap) (blkIdx + i + n) w' cs' := by
  induction n generalizing i w cs with
  | zero => exact ⟨w, cs, rfl, h⟩
  | succ n ih =>
    obtain ⟨w₁, cs₁, hstep, h₁⟩ := addBlock_progress h (by omega) (by omega) (hbuf i (by omega))
    rw [add_assoc blkIdx i 1] at h₁
    obtain ⟨w₂, cs₂, hrest, h₂⟩ := ih h₁ (by omega) (by omega) fun j hj => hbuf j (by omega)
    refine ⟨w₂, cs₂, by rw [addBlocks, hstep, ok_bind, hrest], ?_⟩
    rwa [show blkIdx + i + (n + 1) = blkIdx + (i + 1) + n by omega]

/-- The blocks of a batch of which all bits are zero are not allocated. -/
theorem not_allocated_of_zeros (haligned : blkIdx % 8 = 0) (hwhole : toRead % 8 = 0)
    (hzeros : (bitmap.drop (blkIdx / 8)).take ((blkIdx + toRead) / 8 - blkIdx / 8) =
      List.replicate ((blkIdx + toRead) / 8 - blkIdx / 8) 0)
    (hj : j < toRead) :
    allocated bitmap (blkIdx + j) = false := by
  have hbyte : bitmap[(blkIdx + j) / 8]? = some 0 := by
    have hget := congrArg (·[(blkIdx + j) / 8 - blkIdx / 8]?) hzeros
    simp only [getElem?_take, getElem?_drop, getElem?_replicate] at hget
    rw [if_pos (by omega), if_pos (by omega)] at hget
    rwa [show blkIdx / 8 + ((blkIdx + j) / 8 - blkIdx / 8) = (blkIdx + j) / 8 by omega] at hget
  rw [← bit_eq_zero hbyte]
  exact by simp

theorem read_block (hsize : (blkIdx + toRead) * blkSz ≤ img.size) (hj : j < toRead) :
    ((img.read (blkIdx * blkSz) (toRead * blkSz)).drop (j * blkSz)).take blkSz =
      img.block (blkIdx + j) := by
  rw [add_mul] at hsize
  have hend := block_end_le hj
  have hsplit : toRead * blkSz = j * blkSz + (blkSz + (toRead * blkSz - (j * blkSz + blkSz))) := by
    omega
  rw [Image.read, min_eq_left (by omega), hsplit, bytesAt_append, drop_left' (bytesAt_length ..),
    bytesAt_append, take_left' (bytesAt_length ..), Image.block, add_mul]

theorem convertLoop_progress (hsize : img.size = totalBlks * blkSz) (hk : totalBlks ≤ 2 ^ 32)
    (hcover : totalBlks ≤ 8 * bitmap.length) (hle : blkIdx ≤ totalBlks)
    (h : Progress (wanted img bitmap) blkIdx w cs) :
    ∃ w' cs', convertLoop img bitmap totalBlks blkIdx (blkIdx * blkSz) w = .ok w' ∧
      Progress (wanted img bitmap) totalBlks w' cs' := by
  generalize hleft : totalBlks - blkIdx = left
  induction left using Nat.strongRecOn generalizing blkIdx w cs with
  | ind left ih =>
    rw [convertLoop]
    split
    · have hbatch : 0 < min batchBlks (totalBlks - blkIdx) ∧
          blkIdx + min batchBlks (totalBlks - blkIdx) ≤ totalBlks := by
        rw [batchBlks]
        omega
      dsimp only
      generalize min batchBlks (totalBlks - blkIdx) = toRead at hbatch
      split
      · -- the whole batch is skipped
        rename_i hfast
        obtain ⟨haligned, hwhole, hzeros⟩ := hfast
        have hpiece : (pending .dontCare toRead []).RightAt (wanted img bitmap) blkIdx := by
          intro j hj
          rw [wanted, not_allocated_of_zeros haligned hwhole hzeros hj]
          rfl
        obtain ⟨w₁, cs₁, hadd, h₁⟩ := h.addOther (by omega) .dontCare nofun hpiece
        rw [hadd, ok_bind]
        exact ih (totalBlks - (blkIdx + toRead)) (by omega) (by omega) h₁ rfl
      · have hinside : (blkIdx + toRead) * blkSz ≤ img.size := by
          rw [hsize]
          exact Nat.mul_le_mul_right _ hbatch.2
        have hread : (img.read (blkIdx * blkSz) (toRead * blkSz)).length = toRead * blkSz := by
          rw [add_mul] at hinside
          rw [Image.read, bytesAt_length]
          omega
        obtain ⟨w₁, cs₁, hadd, h₁⟩ := @addBlocks_progress img bitmap
          (img.read (blkIdx * blkSz) (toRead * blkSz)) blkIdx 0 w cs toRead h (by omega) (by omega)
          fun j hj => read_block hinside (by omega)
        rw [hadd, ok_bind, hread, ← add_mul]
        exact ih (totalBlks - (blkIdx + toRead)) (by omega) (by omega) h₁ rfl
    · obtain rfl : blkIdx = totalBlks := by omega
      exact ⟨w, cs, rfl, h⟩

theorem length_le_blocks (h : ∀ c ∈ cs, 0 < c.count) : cs.length ≤ blocks cs := by
  induction cs with
  | nil => exact le_refl _
  | cons c cs ih =>
    obtain ⟨hc, hcs⟩ := forall_mem_cons.mp h
    have hle := ih hcs
    simp only [blocks, map_cons, sum_cons, length_cons] at hle ⊢
    omega

/-- The images the script is for: whole blocks, a volume header with blocks of 4096 bytes, and
an allocation bitmap with a bit for each. -/
structure IsVolume (img : Image) : Prop where
  size : img.size % blkSz = 0
  signature : img.volumeHeader.take 2 ∈ signatures
  blockSize : vhField img.volumeHeader 40 4 = blkSz
  covers : img.size / blkSz ≤ 8 *
    (readAllocationBitmap img img.volumeHeader (img.size / blkSz)).length

/-- A file written for an image: whatever is where nothing is cared for, it expands to an
image of the same size with every allocated block in its place, and its header counts what is
in it. -/
structure Expands (img : Image) (file : List UInt8) : Prop where
  image : ∀ junk, ∃ out, expand file junk = some out ∧ out.length = img.size ∧
    ∀ b < img.size / blkSz,
      allocated (readAllocationBitmap img img.volumeHeader (img.size / blkSz)) b = true →
        (out.drop (b * blkSz)).take blkSz = img.block b
  counts : ∃ s, decode file = some s ∧ s.totalBlks = blocks s.chunks ∧
    s.totalChunks = s.chunks.length

/-- Every volume of fewer than 2^32 blocks is written as a sparse image that expands to it. -/
theorem raw2simg_expands (img : Image) (h : IsVolume img) (hfew : img.size / blkSz < 2 ^ 32) :
    ∃ file, raw2simg img = .ok file ∧ Expands img file := by
  have hsize : img.size = img.size / blkSz * blkSz :=
    (Nat.div_mul_cancel (Nat.dvd_of_mod_eq_zero h.size)).symm
  have hstart : Progress (wanted img (readAllocationBitmap img img.volumeHeader (img.size / blkSz)))
    0
      ⟨none, 0, [], [], 0⟩ [] :=
    ⟨rfl, rfl, nofun, nofun, trivial, fun _ => rfl, fun _ => rfl, nofun, nofun, rfl⟩
  obtain ⟨w₁, cs₁, hloop, h₁⟩ := convertLoop_progress hsize hfew.le h.covers (Nat.zero_le _) hstart
  obtain ⟨w, cs, hflush, hw, hcount, -⟩ := h₁.flush hfew
  have htotal : blocks cs = img.size / blkSz := by
    have := hw.total
    omega
  have hchunks : w.chunks < 2 ^ 32 := by
    have := length_le_blocks hw.pos
    rw [hw.chunks]
    omega
  have hdecode :=
    @decode_encode blkSz cs (img.size / blkSz) w.chunks (by decide) hfew hchunks hw.fits
  rw [zero_mul] at hloop
  refine ⟨sparseHeader blkSz (img.size / blkSz) w.chunks ++ w.out, ?_, ?_, ?_⟩
  · rw [raw2simg, if_neg (not_not.mpr h.size)]
    dsimp only
    rw [if_neg (not_not.mpr h.signature), hloop, ok_bind, hflush, ok_bind, if_pos ⟨hfew, hchunks⟩]
  · intro junk
    obtain ⟨hlen, hblocks⟩ := expandChunks_right hw.right junk
    refine ⟨_, by rw [expand, hw.out, hdecode]; rfl, ?_, fun b hb halloc => ?_⟩
    · rw [hlen, htotal]
      exact hsize.symm
    · apply hblocks b (by omega)
      rw [zero_add, wanted, halloc]
      rfl
  · exact ⟨_, by rw [hw.out, hdecode], htotal.symm, hw.chunks⟩

theorem few_of_raw2simg {img : Image} {file : List UInt8} (h : raw2simg img = .ok file) :
    img.size / blkSz < 2 ^ 32 := by
  rw [raw2simg] at h
  split at h
  · cases h
  dsimp only at h
  split at h
  · cases h
  obtain ⟨w, -, h⟩ := bind_ok.mp h
  obtain ⟨w', -, h⟩ := bind_ok.mp h
  split at h
  · rename_i hfits
    exact hfits.1
  · cases h

/-- A volume header with the signature `H+`, blocks of 4096 bytes and an allocation file of `2 ^
17` blocks from block 0 on, which says that block 0 is allocated; then zeros. -/
def plainByte (p : Nat) : UInt8 :=
  if p = 0 then 0x80 else if p = 1024 then 0x48 else if p = 1025 then 0x2b
    else if p = 1066 then 0x10
  else if p = 1157 then 0x02 else 0

def plainVolume (blks : Nat) : Image := ⟨plainByte, blks * blkSz⟩

theorem plainVolume_header (h : 0 < blks) :
    (plainVolume blks).volumeHeader = bytesAt plainByte 1024 512 := by
  have hsize : min 512 (blks * blkSz - 1024) = 512 := by
    rw [blkSz]
    omega
  rw [Image.volumeHeader, Image.read, plainVolume, hsize]

theorem plain_extents : allocExtents (bytesAt plainByte 1024 512) = [(0, 131072)] := by
    decide +kernel

theorem plainVolume_isVolume (hmany : 131072 ≤ blks) (hle : blks ≤ 2 ^ 32) :
    IsVolume (plainVolume blks) := by
  have hpos : 0 < blks := by omega
  have hdiv : (plainVolume blks).size / blkSz = blks := Nat.mul_div_cancel _ (by decide)
  constructor
  · exact Nat.mul_mod_left _ _
  · rw [plainVolume_header hpos]
    decide +kernel
  · rw [plainVolume_header hpos]
    decide +kernel
  have hread : min (131072 * blkSz) ((plainVolume blks).size - 0 * blkSz) = 131072 * blkSz := by
    change min (131072 * blkSz) (blks * blkSz - 0 * blkSz) = _
    rw [blkSz]
    omega
  rw [hdiv, plainVolume_header hpos, readAllocationBitmap, plain_extents, flatMap_singleton,
    length_take, Image.read, hread, bytesAt_length, blkSz]
  omega

theorem raw2simg_of_plain : IsVolume (plainVolume 131072) ∧
    ∃ file, raw2simg (plainVolume 131072) = .ok file ∧ Expands (plainVolume 131072) file := by
  have hvolume : IsVolume (plainVolume 131072) := plainVolume_isVolume (by decide) (by decide)
  exact ⟨hvolume, raw2simg_expands _ hvolume (by decide)⟩

/-- An image of 2^32 blocks: the script ends with an exception when it packs the header. -/
theorem raw2simg_too_large : IsVolume (plainVolume (2 ^ 32)) ∧
    ¬∃ file, raw2simg (plainVolume (2 ^ 32)) = .ok file ∧ Expands (plainVolume (2 ^ 32)) file := by
  refine ⟨plainVolume_isVolume (by decide) (by decide), ?_⟩
  rintro ⟨file, hfile, -⟩
  have hfew := few_of_raw2simg hfile
  exact absurd hfew (by decide)

end XnuXzs.Simg
