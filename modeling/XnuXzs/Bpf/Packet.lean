import XnuXzs.Bpf.Program

/-!
# Packets and the bytes a load reads

A packet is a flat buffer, or a link header and the segments of an mbuf chain or of a Skywalk
packet. A read outside a segment is a value of the model.
-/

namespace XnuXzs.Bpf

open List Option

/-- `len` valid bytes at an address, and what memory holds from there on. -/
structure Seg where
  len : Nat
  data : Nat → UInt8

/-- The argument `p` of `bpf_filter`: a flat buffer of length `buflen`, or, with `buflen = 0`, a
`struct bpf_packet`, whose chain has a first mbuf. -/
inductive Packet where
  | flat (buf : Seg) (pos : 0 < buf.len) (bound : buf.len < 2 ^ 32)
  | mbuf (hdr first : Seg) (rest : List Seg)
  | pkt (hdr : Seg) (buflets : List Seg)

/-- A byte of a packet: which segment, and how far into it. -/
structure Loc where
  seg : Nat
  off : Nat
  deriving DecidableEq, Repr

namespace Packet

def segs : Packet → List Seg
  | .flat buf _ _ => [buf]
  | .mbuf hdr first rest => hdr :: first :: rest
  | .pkt hdr buflets => hdr :: buflets

def buflen : Packet → UInt32
  | .flat buf _ _ => UInt32.ofNat buf.len
  | .mbuf .. | .pkt .. => 0

/-- The place lies in the valid bytes of its segment. -/
def Holds (p : Packet) (l : Loc) : Prop := ∃ s, p.segs[l.seg]? = some s ∧ l.off < s.len

def byte (p : Packet) (l : Loc) : UInt8 :=
  match p.segs[l.seg]? with
  | some s => s.data l.off
  | none => 0

end Packet

/-- `EXTRACT_LONG`, `EXTRACT_SHORT` and the stitched values: network order. -/
def beValue (bytes : List UInt8) : UInt32 :=
  bytes.foldl (fun v b => (v <<< 8) ||| b.toUInt32) 0

def Packet.value (p : Packet) (ls : List Loc) : UInt32 := beValue (ls.map p.byte)

/-- `n` consecutive bytes from a pointer. -/
def span (l : Loc) (n : Nat) : List Loc := (List.range n).map fun i => ⟨l.seg, l.off + i⟩

/-- The loop of `m_hdr_offset` and `p_hdr_offset` over the segments from number
`j` on. -/
def seekFrom : Nat → List Seg → Nat → Option Loc
  | _, [], _ => none
  | j, s :: rest, k => if k ≥ s.len then seekFrom (j + 1) rest (k - s.len) else some ⟨j, k⟩

/-- `m_hdr_offset` and `p_hdr_offset`. The next segment is the one after the place found; after
the header it is the first of the chain. -/
def hdrOffset (hdr : Seg) (chain : List Seg) (k : Nat) : Option Loc :=
  if k ≥ hdr.len then seekFrom 1 chain (k - hdr.len) else some ⟨0, k⟩

def getWordFromBuffers (cp np : Loc) (numFromCp : Nat) : List Loc :=
  match numFromCp with
  | 1 => span cp 1 ++ span np 3
  | 2 => span cp 2 ++ span np 2
  | _ => span cp 3 ++ span np 1

variable (hdr : Seg) (chain : List Seg) (k : Nat)

/-- The segment a place lies in and the one after it. -/
def segAt (j : Nat) : Option Seg := (hdr :: chain)[j]?

/-- `m_xword` and `p_xword`. -/
def xword : Option (List Loc) := do
  let cp ← hdrOffset hdr chain k
  let s ← segAt hdr chain cp.seg
  if s.len - cp.off ≥ 4 then some (span cp 4)
  else
    let n ← segAt hdr chain (cp.seg + 1)
    if n.len + s.len - cp.off < 4 then none
    else some (getWordFromBuffers cp ⟨cp.seg + 1, 0⟩ (s.len - cp.off))

/-- `m_xhalf`: the byte of the next mbuf is taken without a look at its length. -/
def mXhalf : Option (List Loc) := do
  let cp ← hdrOffset hdr chain k
  let s ← segAt hdr chain cp.seg
  if s.len - cp.off ≥ 2 then some (span cp 2)
  else
    let _ ← segAt hdr chain (cp.seg + 1)
    some (span cp 1 ++ span ⟨cp.seg + 1, 0⟩ 1)

def pXhalf : Option (List Loc) := do
  let cp ← hdrOffset hdr chain k
  let s ← segAt hdr chain cp.seg
  if s.len - cp.off ≥ 2 then some (span cp 2)
  else
    let n ← segAt hdr chain (cp.seg + 1)
    if n.len = 0 then none else some (span cp 1 ++ span ⟨cp.seg + 1, 0⟩ 1)

/-- `m_xbyte` and `p_xbyte`. -/
def xbyte : Option (List Loc) := do
  let cp ← hdrOffset hdr chain k
  some (span cp 1)

/-- `bp_xword`, `bp_xhalf` and `bp_xbyte`, never on a flat buffer; `none` is `merr = 1`. -/
def Packet.bpX (p : Packet) (size : Size) (k : Nat) : Option (List Loc) :=
  match p, size with
  | .flat .., _ => none
  | .mbuf hdr first rest, .w => xword hdr (first :: rest) k
  | .mbuf hdr first rest, .h => mXhalf hdr (first :: rest) k
  | .mbuf hdr first rest, .b => xbyte hdr (first :: rest) k
  | .pkt hdr buflets, .w => xword hdr buflets k
  | .pkt hdr buflets, .h => pXhalf hdr buflets k
  | .pkt hdr buflets, .b => xbyte hdr buflets k

/-- The test of the `BPF_ABS` loads, and for a byte that of `BPF_MSH`. -/
def absBeyond (size : Size) (k buflen : UInt32) : Bool :=
  match size with
  | .w => k > buflen || 4 > buflen - k
  | .h => k > buflen || 2 > buflen - k
  | .b => k ≥ buflen

/-- The test of the `BPF_IND` loads, whose sum `x + k` is a 32-bit one. -/
def indBeyond (size : Size) (x k buflen : UInt32) : Bool :=
  match size with
  | .w => k > buflen || x > buflen - k || 4 > buflen - (x + k)
  | .h => x > buflen || k > buflen - x || 2 > buflen - (x + k)
  | .b => k ≥ buflen || x ≥ buflen - k

/-- The bytes a load reads at `k`, given the outcome of its test; `none` is
`return 0`. -/
def Packet.load (p : Packet) (size : Size) (beyond : Bool) (k : UInt32) : Option (List Loc) :=
  if beyond then
    if p.buflen ≠ 0 then none else p.bpX size k.toNat
  else some (span ⟨0, k.toNat⟩ size.bytes)

def Packet.loadAbs (p : Packet) (size : Size) (k : UInt32) : Option (List Loc) :=
  p.load size (absBeyond size k p.buflen) k

def Packet.loadInd (p : Packet) (size : Size) (x k : UInt32) : Option (List Loc) :=
  p.load size (indBeyond size x k p.buflen) (x + k)

/-- The offset at which segment `j` begins. -/
def startOf (l : List Seg) (j : Nat) : Nat := ((l.take j).map Seg.len).sum

variable {l : List Seg} {s n : Seg} {c : Loc} {t k j : Nat}

theorem startOf_succ (h : l[j]? = some s) : startOf l (j + 1) = startOf l j + s.len := by
  simp [startOf, take_add_one, h]

theorem startOf_cons (s : Seg) (l : List Seg) (j : Nat) :
    startOf (s :: l) (j + 1) = s.len + startOf l j := by
  simp [startOf]

/-- The byte at offset `k` of the header and the segments. -/
def locate (l : List Seg) (k : Nat) : Option Loc := seekFrom 0 l k

theorem hdrOffset_eq (hdr : Seg) (chain : List Seg) (k : Nat) :
    hdrOffset hdr chain k = locate (hdr :: chain) k := rfl

theorem seekFrom_iff (l : List Seg) (j k : Nat) (c : Loc) :
    seekFrom j l k = some c ↔ j ≤ c.seg ∧
      ∃ s, l[c.seg - j]? = some s ∧ c.off < s.len ∧ k = startOf l (c.seg - j) + c.off := by
  induction l generalizing j k with
  | nil => simp [seekFrom]
  | cons a l ih =>
    simp only [seekFrom]
    split
    · rename_i past
      rw [ih]
      constructor
      · rintro ⟨hj, s, hs, hoff, hk⟩
        have index : c.seg - j = c.seg - (j + 1) + 1 := by omega
        rw [index, getElem?_cons_succ, startOf_cons]
        exact ⟨by omega, s, hs, hoff, by omega⟩
      rintro ⟨hj, s, hs, hoff, hk⟩
      by_cases same : c.seg = j
      · -- the place would lie in a segment that the loop has passed
        simp only [same, Nat.sub_self, getElem?_cons_zero, Option.some.injEq] at hs hk
        subst hs
        simp only [startOf, take_zero, map_nil, sum_nil] at hk
        omega
      · have index : c.seg - j = c.seg - (j + 1) + 1 := by omega
        rw [index, getElem?_cons_succ] at hs
        rw [index, startOf_cons] at hk
        exact ⟨by omega, s, hs, hoff, by omega⟩
    · rename_i inside
      constructor
      · intro h
        cases h
        simp only [Nat.sub_self, getElem?_cons_zero, startOf]
        exact ⟨le_refl _, a, rfl, by omega, by simp⟩
      rintro ⟨hj, s, hs, hoff, hk⟩
      by_cases same : c.seg = j
      · subst same
        simp only [Nat.sub_self, startOf, take_zero, map_nil, sum_nil, zero_add] at hk
        rw [hk]
      · have index : c.seg - j = c.seg - (j + 1) + 1 := by omega
        rw [index, startOf_cons] at hk
        omega

theorem locate_iff :
    locate l k = some c ↔
      ∃ s, l[c.seg]? = some s ∧ c.off < s.len ∧ k = startOf l c.seg + c.off := by
  simp [locate, seekFrom_iff]

section

variable (h : locate l k = some c) (hs : l[c.seg]? = some s)
include h hs

theorem locate_inside : c.off < s.len ∧ k = startOf l c.seg + c.off := by
  obtain ⟨s', hs', hoff, hk⟩ := locate_iff.mp h
  obtain rfl : s = s' := Option.some.inj (hs.symm.trans hs')
  exact ⟨hoff, hk⟩

theorem locate_same (ht : c.off + t < s.len) : locate l (k + t) = some ⟨c.seg, c.off + t⟩ := by
  obtain ⟨_, _, _, hk⟩ := locate_iff.mp h
  exact locate_iff.mpr ⟨s, hs, ht, by dsimp only; omega⟩

theorem locate_next {u : Nat}
    (hn : l[c.seg + 1]? = some n) (ht : c.off + t = s.len + u) (hu : u < n.len) :
    locate l (k + t) = some ⟨c.seg + 1, u⟩ := by
  obtain ⟨_, _, _, hk⟩ := locate_iff.mp h
  have := startOf_succ hs
  exact locate_iff.mpr ⟨n, hn, hu, by dsimp only; omega⟩

end

/-- The places are those of the offsets `k`, `k + 1`, ... one by one. -/
def Tracks (l : List Seg) (k : Nat) (ls : List Loc) : Prop :=
  ∀ t < ls.length, ls[t]? = locate l (k + t)

theorem Tracks.holds {p : Packet} {ls : List Loc} (h : Tracks p.segs k ls) {l : Loc}
    (hl : l ∈ ls) : p.Holds l := by
  obtain ⟨t, ht⟩ := mem_iff_getElem?.mp hl
  have inside : t < ls.length := (List.getElem?_eq_some_iff.mp ht).1
  obtain ⟨s, hs, hoff, _⟩ := locate_iff.mp ((h t inside).symm.trans ht)
  exact ⟨s, hs, hoff⟩

@[simp] theorem span_length (c : Loc) (n : Nat) : (span c n).length = n := by
  simp [span]

theorem span_getElem? (c : Loc) {n : Nat} (h : t < n) :
    (span c n)[t]? = some ⟨c.seg, c.off + t⟩ := by
  simp [span, h]

theorem tracks_span {n : Nat} (h : locate l k = some c) (hs : l[c.seg]? = some s)
    (hn : c.off + n ≤ s.len) : Tracks l k (span c n) := by
  intro t ht
  rw [span_length] at ht
  rw [span_getElem? c ht, locate_same h hs (by omega)]

theorem tracks_stitched {a b : Nat} (h : locate l k = some c) (hs : l[c.seg]? = some s)
    (hn : l[c.seg + 1]? = some n) (ha : c.off + a = s.len) (hb : b ≤ n.len) :
    Tracks l k (span c a ++ span ⟨c.seg + 1, 0⟩ b) := by
  intro t ht
  rw [length_append, span_length, span_length] at ht
  by_cases first : t < a
  · rw [getElem?_append_left (by rwa [span_length]), span_getElem? c first,
      locate_same h hs (by omega)]
  have second : t - a < b := by omega
  rw [getElem?_append_right (by rw [span_length]; omega), span_length,
    span_getElem? _ second, locate_next h hs hn (u := t - a) (by omega) (by omega)]
  simp

theorem getWordFromBuffers_eq (cp np : Loc) {m : Nat} (h : 0 < m) (h' : m < 4) :
    getWordFromBuffers cp np m = span cp m ++ span np (4 - m) := by
  have : m = 1 ∨ m = 2 ∨ m = 3 := by omega
  rcases this with rfl | rfl | rfl <;> rfl

variable {hdr : Seg} {chain : List Seg} {ls : List Loc}

theorem xword_tracks (h : xword hdr chain k = some ls) :
    Tracks (hdr :: chain) k ls ∧ ls.length = 4 := by
  simp only [xword, bind_eq_bind, bind_eq_some_iff, hdrOffset_eq, segAt] at h
  obtain ⟨c, hc, s, hs, h⟩ := h
  obtain ⟨inside, -⟩ := locate_inside hc hs
  split at h
  · cases h
    exact ⟨tracks_span hc hs (by omega), span_length _ _⟩
  simp only [bind_eq_some_iff] at h
  obtain ⟨n, hn, h⟩ := h
  split at h
  · cases h
  cases h
  rw [getWordFromBuffers_eq _ _ (by omega) (by omega)]
  refine ⟨tracks_stitched hc hs hn (by omega) (by omega), ?_⟩
  rw [length_append, span_length, span_length]
  omega

theorem pXhalf_tracks (h : pXhalf hdr chain k = some ls) :
    Tracks (hdr :: chain) k ls ∧ ls.length = 2 := by
  simp only [pXhalf, bind_eq_bind, bind_eq_some_iff, hdrOffset_eq, segAt] at h
  obtain ⟨c, hc, s, hs, h⟩ := h
  obtain ⟨inside, -⟩ := locate_inside hc hs
  split at h
  · cases h
    exact ⟨tracks_span hc hs (by omega), span_length _ _⟩
  simp only [bind_eq_some_iff] at h
  obtain ⟨n, hn, h⟩ := h
  split at h
  · cases h
  · cases h
    exact ⟨tracks_stitched hc hs hn (by omega) (by omega), rfl⟩

theorem xbyte_tracks (h : xbyte hdr chain k = some ls) :
    Tracks (hdr :: chain) k ls ∧ ls.length = 1 := by
  simp only [xbyte, bind_eq_bind, bind_eq_some_iff, hdrOffset_eq] at h
  obtain ⟨c, hc, h⟩ := h
  obtain ⟨s, hs, inside, _⟩ := locate_iff.mp hc
  cases h
  exact ⟨tracks_span hc hs (by omega), rfl⟩

/-- Offset `k` is the last byte of a segment that is directly followed by one without bytes. -/
def EmptyAfter (l : List Seg) (k : Nat) : Prop :=
  ∃ j s n, l[j]? = some s ∧ l[j + 1]? = some n ∧ 0 < s.len ∧ k = startOf l j + (s.len - 1) ∧
    n.len = 0

theorem mXhalf_tracks (h : mXhalf hdr chain k = some ls) (full : ¬ EmptyAfter (hdr :: chain) k) :
    Tracks (hdr :: chain) k ls ∧ ls.length = 2 := by
  simp only [mXhalf, bind_eq_bind, bind_eq_some_iff, hdrOffset_eq, segAt] at h
  obtain ⟨c, hc, s, hs, h⟩ := h
  obtain ⟨inside, hstart⟩ := locate_inside hc hs
  split at h
  · cases h
    exact ⟨tracks_span hc hs (by omega), span_length _ _⟩
  simp only [bind_eq_some_iff] at h
  obtain ⟨n, hn, h⟩ := h
  cases h
  have nonempty : n.len ≠ 0 := by
    intro zero
    exact full ⟨c.seg, s, n, hs, hn, by omega, by omega, zero⟩
  exact ⟨tracks_stitched hc hs hn (by omega) (by omega), rfl⟩

/-- At the last byte before an empty mbuf `m_xhalf` reads the mbuf's first byte. -/
theorem mXhalf_strays {s n : Seg} (hs : (hdr :: chain)[j]? = some s)
    (hn : (hdr :: chain)[j + 1]? = some n) (pos : 0 < s.len) :
    mXhalf hdr chain (startOf (hdr :: chain) j + (s.len - 1)) =
      some [⟨j, s.len - 1⟩, ⟨j + 1, 0⟩] := by
  have hc : hdrOffset hdr chain (startOf (hdr :: chain) j + (s.len - 1)) = some ⟨j, s.len - 1⟩ := by
    rw [hdrOffset_eq, locate_iff]
    exact ⟨s, hs, Nat.sub_lt pos one_pos, rfl⟩
  have short : ¬ s.len - (s.len - 1) ≥ 2 := by omega
  simp only [mXhalf, hc, segAt, hs, hn, bind_eq_bind, bind_some, if_neg short]
  rfl

namespace Packet

/-- A half-word load at `k` makes `m_xhalf` leave the chain. -/
def StrayAt : Packet → Nat → Prop
  | .mbuf hdr first rest, k => EmptyAfter (hdr :: first :: rest) k
  | .flat .., _ | .pkt .., _ => False

/-- There is such an offset that a load can name. -/
def Stray (p : Packet) : Prop := ∃ k < 2 ^ 32, p.StrayAt k

theorem bpX_tracks {p : Packet} {size : Size} {ls : List Loc} (h : p.bpX size k = some ls)
    (full : size = .h → ¬ p.StrayAt k) :
    Tracks p.segs k ls ∧ ls.length = size.bytes := by
  cases p with
  | flat => cases size <;> cases h
  | mbuf =>
    cases size with
    | w => exact xword_tracks h
    | h => exact mXhalf_tracks h (full rfl)
    | b => exact xbyte_tracks h
  | pkt =>
    cases size with
    | w => exact xword_tracks h
    | h => exact pXhalf_tracks h
    | b => exact xbyte_tracks h

end Packet

theorem absBeyond_iff (size : Size) (k n : UInt32) :
    absBeyond size k n = true ↔ n.toNat < k.toNat + size.bytes := by
  have := n.toNat_lt
  cases size <;> simp only [absBeyond, Size.bytes, gt_iff_lt, ge_iff_le, Bool.or_eq_true,
    decide_eq_true_eq, UInt32.lt_iff_toNat_lt, UInt32.le_iff_toNat_le, UInt32.toNat_sub,
    UInt32.reduceToNat] <;> omega

theorem indBeyond_iff (size : Size) (x k n : UInt32) :
    indBeyond size x k n = true ↔ n.toNat < x.toNat + k.toNat + size.bytes := by
  have := n.toNat_lt
  cases size <;> simp only [indBeyond, Size.bytes, gt_iff_lt, ge_iff_le, Bool.or_eq_true,
    decide_eq_true_eq, UInt32.lt_iff_toNat_lt, UInt32.le_iff_toNat_le, UInt32.toNat_sub,
    UInt32.toNat_add, UInt32.reduceToNat] <;> omega

theorem Size.bytes_pos (size : Size) : 0 < size.bytes := by
  cases size <;> decide

namespace Packet

@[simp] theorem buflen_flat (buf : Seg) (pos : 0 < buf.len) (bound : buf.len < 2 ^ 32) :
    (Packet.flat buf pos bound).buflen.toNat = buf.len :=
  Nat.mod_eq_of_lt bound

variable {p : Packet} {size : Size}

theorem load_tracks {beyond : Bool} {k : UInt32} (h : p.load size beyond k = some ls)
    (hb : beyond = false → k.toNat + size.bytes ≤ p.buflen.toNat)
    (full : size = .h → ¬ p.StrayAt k.toNat) :
    Tracks p.segs k.toNat ls ∧ ls.length = size.bytes := by
  simp only [load] at h
  split at h
  · split at h
    · cases h
    · exact bpX_tracks h full
  rename_i passed
  cases h
  have inside := hb (Bool.not_eq_true _ ▸ passed)
  have pos := size.bytes_pos
  cases p with
  | flat buf hpos bound =>
    rw [buflen_flat] at inside
    have hc : locate [buf] k.toNat = some ⟨0, k.toNat⟩ :=
      locate_iff.mpr ⟨buf, rfl, lt_of_lt_of_le (Nat.lt_add_of_pos_right pos) inside,
        (zero_add _).symm⟩
    exact ⟨tracks_span hc rfl inside, span_length _ _⟩
  | mbuf | pkt => exact absurd inside (by simp only [buflen, UInt32.toNat_zero]; omega)

theorem loadAbs_tracks {k : UInt32} (h : p.loadAbs size k = some ls)
    (full : size = .h → ¬ p.StrayAt k.toNat) :
    Tracks p.segs k.toNat ls ∧ ls.length = size.bytes := by
  refine load_tracks h (fun passed => ?_) full
  have := (absBeyond_iff size k p.buflen).not.mp (by rw [passed]; exact Bool.false_ne_true)
  omega

theorem loadInd_tracks {x k : UInt32} (h : p.loadInd size x k = some ls)
    (full : size = .h → ¬ p.StrayAt (x + k).toNat) :
    Tracks p.segs (x + k).toNat ls ∧ ls.length = size.bytes := by
  refine load_tracks h (fun passed => ?_) full
  have inside := (indBeyond_iff size x k p.buflen).not.mp (by rw [passed]; exact Bool.false_ne_true)
  have := p.buflen.toNat_lt
  rw [UInt32.toNat_add, Nat.mod_eq_of_lt (by omega)]
  omega

/-- A half-word load whose test fails, at such an offset. -/
theorem load_strays {k : UInt32} (h : p.StrayAt k.toNat) :
    ∃ ls l, p.load .h true k = some ls ∧ l ∈ ls ∧ ¬ p.Holds l := by
  cases p with
  | flat | pkt => exact h.elim
  | mbuf hdr first rest =>
    obtain ⟨j, s, n, hs, hn, pos, hk, empty⟩ := h
    refine ⟨[⟨j, s.len - 1⟩, ⟨j + 1, 0⟩], ⟨j + 1, 0⟩, ?_, by simp, ?_⟩
    · exact (congrArg (mXhalf hdr (first :: rest)) hk).trans (mXhalf_strays hs hn pos)
    · rintro ⟨n', hn', inside⟩
      cases hn.symm.trans hn'
      omega

theorem StrayAt.beyond (h : p.StrayAt k) : p.buflen = 0 := by
  cases p with
  | flat | pkt => exact h.elim
  | mbuf => rfl

end Packet

end XnuXzs.Bpf
