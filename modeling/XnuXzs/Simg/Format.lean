import XnuXzs.Lib.Bytes

/-!
# Sparse images

A header and a sequence of chunks, each for a number of blocks. `decode` reads a file, `expand`
writes out the image, with anything where a chunk does not care.
-/

namespace XnuXzs.Simg

open XnuXzs.Lib List

inductive Chunk where
  | raw (count : Nat) (data : List UInt8)
  | fill (count : Nat) (word : List UInt8)
  | dontCare (count : Nat)
  deriving DecidableEq, Repr

def typeRaw : Nat := 0xCAC1
def typeFill : Nat := 0xCAC2
def typeDontCare : Nat := 0xCAC3
def sparseMagic : Nat := 0xED26FF3A

def Chunk.count : Chunk → Nat
  | .raw n _ => n
  | .fill n _ => n
  | .dontCare n => n

structure Sparse where
  blkSz : Nat
  totalBlks : Nat
  totalChunks : Nat
  chunks : List Chunk

/-- A little-endian field, and what is behind it. -/
def takeLe (k : Nat) (bytes : List UInt8) : Option (Nat × List UInt8) :=
  if k ≤ bytes.length then some (leValue (bytes.take k), bytes.drop k) else none

/-- One chunk: type, reserved, number of blocks, length with the header, content. -/
def decodeChunk (blkSz : Nat) (bytes : List UInt8) : Option (Chunk × List UInt8) := do
  let (type, bytes) ← takeLe 2 bytes
  let (_, bytes) ← takeLe 2 bytes
  let (count, bytes) ← takeLe 4 bytes
  let (size, bytes) ← takeLe 4 bytes
  let body := bytes.take (size - 12)
  let rest := bytes.drop (size - 12)
  if size < 12 ∨ body.length ≠ size - 12 then none
  else if type = typeRaw ∧ body.length = count * blkSz then some (.raw count body, rest)
  else if type = typeFill ∧ body.length = 4 then some (.fill count body, rest)
  else if type = typeDontCare ∧ body.length = 0 then some (.dontCare count, rest)
  else none

/-- Chunks up to the end of the file. -/
def decodeChunks (blkSz : Nat) : (fuel : Nat) → List UInt8 → Option (List Chunk)
  | _, [] => some []
  | 0, _ :: _ => none
  | fuel + 1, c :: bytes => do
    let (chunk, rest) ← decodeChunk blkSz (c :: bytes)
    let chunks ← decodeChunks blkSz fuel rest
    some (chunk :: chunks)

/-- A sparse image of version 1. -/
def decode (file : List UInt8) : Option Sparse := do
  let (magic, bytes) ← takeLe 4 file
  let (major, bytes) ← takeLe 2 bytes
  let (_, bytes) ← takeLe 2 bytes
  let (fileHdrSz, bytes) ← takeLe 2 bytes
  let (chunkHdrSz, bytes) ← takeLe 2 bytes
  let (blkSz, bytes) ← takeLe 4 bytes
  let (totalBlks, bytes) ← takeLe 4 bytes
  let (totalChunks, bytes) ← takeLe 4 bytes
  let (_, bytes) ← takeLe 4 bytes
  if magic ≠ sparseMagic ∨ major ≠ 1 ∨ fileHdrSz ≠ 28 ∨ chunkHdrSz ≠ 12 then none
  else do
    let chunks ← decodeChunks blkSz bytes.length bytes
    some ⟨blkSz, totalBlks, totalChunks, chunks⟩

/-- The blocks that a chunk stands for, from block `at` on; `junk` is what was there. -/
def Chunk.expand (blkSz : Nat) (junk : Nat → UInt8) (start : Nat) : Chunk → List UInt8
  | .raw _ data => data
  | .fill n word => (List.replicate (n * blkSz / 4) word).flatten
  | .dontCare n => bytesAt junk (start * blkSz) (n * blkSz)

def expandChunks (blkSz : Nat) (junk : Nat → UInt8) : (start : Nat) → List Chunk → List UInt8
  | _, [] => []
  | start, c :: cs => c.expand blkSz junk start ++ expandChunks blkSz junk (start + c.count) cs

def expand (file : List UInt8) (junk : Nat → UInt8) : Option (List UInt8) :=
  (decode file).map fun s => expandChunks s.blkSz junk 0 s.chunks

def chunkHeader (type count size : Nat) : List UInt8 :=
  leBytes 2 type ++ leBytes 2 0 ++ leBytes 4 count ++ leBytes 4 size

def encodeChunk : Chunk → List UInt8
  | .raw n data => chunkHeader typeRaw n (12 + data.length) ++ data
  | .fill n word => chunkHeader typeFill n 16 ++ word
  | .dontCare n => chunkHeader typeDontCare n 12

def sparseHeader (blkSz totalBlks totalChunks : Nat) : List UInt8 :=
  leBytes 4 sparseMagic ++ leBytes 2 1 ++ leBytes 2 0 ++ leBytes 2 28 ++ leBytes 2 12 ++
    leBytes 4 blkSz ++ leBytes 4 totalBlks ++ leBytes 4 totalChunks ++ leBytes 4 0

/-- The numbers of a chunk fit into their fields, and its content has the right length. -/
def Chunk.Fits (blkSz : Nat) : Chunk → Prop
  | .raw n data => n < 2 ^ 32 ∧ data.length = n * blkSz ∧ 12 + data.length < 2 ^ 32
  | .fill n word => n < 2 ^ 32 ∧ word.length = 4
  | .dontCare n => n < 2 ^ 32

variable {blkSz : Nat} {cs : List Chunk}

theorem takeLe_append {k v : Nat} (h : v < 256 ^ k) (rest : List UInt8) :
    takeLe k (leBytes k v ++ rest) = some (v, rest) := by
  have hlen := leBytes_length k v
  rw [takeLe, if_pos (by rw [length_append, hlen]; exact Nat.le_add_right _ _), take_left' hlen,
    drop_left' hlen, leValue_leBytes, Nat.mod_eq_of_lt h]

theorem decodeChunk_header {type count size : Nat} (htype : type < 2 ^ 16) (hcount : count < 2 ^ 32)
    (hsize : size < 2 ^ 32) (hmin : 12 ≤ size) {body : List UInt8} (hbody : body.length = size - 12)
    (rest : List UInt8) : decodeChunk blkSz (chunkHeader type count size ++ body ++ rest) =
      if type = typeRaw ∧ body.length = count * blkSz then some (.raw count body, rest)
      else if type = typeFill ∧ body.length = 4 then some (.fill count body, rest)
      else if type = typeDontCare ∧ body.length = 0 then some (.dontCare count, rest)
      else none := by
  have hfit : ¬(size < 12 ∨ body.length ≠ size - 12) := by omega
  simp only [chunkHeader, decodeChunk, append_assoc, takeLe_append (show type < 256 ^ 2 from htype),
    takeLe_append (show 0 < 256 ^ 2 by decide), takeLe_append (show count < 256 ^ 4 from hcount),
    takeLe_append (show size < 256 ^ 4 from hsize), Option.bind_eq_bind, Option.bind_some,
    take_left' hbody, drop_left' hbody, hfit, if_false]

theorem decodeChunk_encode {c : Chunk} (h : c.Fits blkSz) (rest : List UInt8) :
    decodeChunk blkSz (encodeChunk c ++ rest) = some (c, rest) := by
  cases c with
  | raw n data =>
    obtain ⟨hn, hlen, hsize⟩ := h
    rw [encodeChunk, decodeChunk_header (by decide) hn hsize (by omega) (by omega),
      if_pos ⟨rfl, hlen⟩]
  | fill n word =>
    obtain ⟨hn, hlen⟩ := h
    rw [encodeChunk, decodeChunk_header (by decide) hn (by decide) (by omega) (by omega),
      if_neg fun h => absurd h.1 (by decide), if_pos ⟨rfl, hlen⟩]
  | dontCare n =>
    have hdecode :=
      @decodeChunk_header blkSz typeDontCare n 12 (by decide) h (by decide) (by omega) [] rfl rest
    rw [append_nil] at hdecode
    rw [encodeChunk, hdecode]
    rfl

theorem encodeChunk_ne_nil (c : Chunk) : encodeChunk c ≠ [] := by
  cases c <;> simp [encodeChunk, chunkHeader, leBytes]

theorem decodeChunks_encode (h : ∀ c ∈ cs, c.Fits blkSz) {fuel : Nat}
    (hfuel : cs.length ≤ fuel) : decodeChunks blkSz fuel (cs.flatMap encodeChunk) = some cs := by
  induction cs generalizing fuel with
  | nil => cases fuel <;> rfl
  | cons c cs ih =>
    obtain ⟨hc, hcs⟩ := forall_mem_cons.mp h
    cases fuel with
    | zero => exact absurd hfuel (by simp)
    | succ fuel =>
      obtain ⟨x, bytes, hx⟩ := exists_cons_of_ne_nil (encodeChunk_ne_nil c)
      have hdecode := decodeChunk_encode hc (cs.flatMap encodeChunk)
      have hrest := ih hcs (Nat.le_of_succ_le_succ hfuel)
      rw [flatMap_cons, hx, cons_append, decodeChunks, ← cons_append, ← hx, hdecode]
      simp [hrest]

theorem length_le_encode (cs : List Chunk) : cs.length ≤ (cs.flatMap encodeChunk).length := by
  induction cs with
  | nil => exact le_refl _
  | cons c cs ih =>
    have hpos := length_pos_iff.mpr (encodeChunk_ne_nil c)
    rw [flatMap_cons, length_append, length_cons]
    omega

theorem decode_encode {totalBlks totalChunks : Nat} (hblk : blkSz < 2 ^ 32)
    (htotal : totalBlks < 2 ^ 32) (hchunks : totalChunks < 2 ^ 32) (h : ∀ c ∈ cs, c.Fits blkSz) :
    decode (sparseHeader blkSz totalBlks totalChunks ++ cs.flatMap encodeChunk) =
      some ⟨blkSz, totalBlks, totalChunks, cs⟩ := by
  have hread := decodeChunks_encode h (length_le_encode cs)
  simp only [sparseHeader, decode, append_assoc,
    takeLe_append (show sparseMagic < 256 ^ 4 by decide),
    takeLe_append (show 0 < 256 ^ 2 by decide), takeLe_append (show 1 < 256 ^ 2 by decide),
    takeLe_append (show 28 < 256 ^ 2 by decide), takeLe_append (show 12 < 256 ^ 2 by decide),
    takeLe_append (show blkSz < 256 ^ 4 from hblk),
      takeLe_append (show totalBlks < 256 ^ 4 from htotal),
    takeLe_append (show totalChunks < 256 ^ 4 from hchunks),
      takeLe_append (show 0 < 256 ^ 4 by decide),
    Option.bind_eq_bind, Option.bind_some, hread, ne_eq, not_true_eq_false, or_self, if_false]

end XnuXzs.Simg
