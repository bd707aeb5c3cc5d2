import XnuXzs.Bpf.Filter

/-!
# A chain and its contiguous copy

The same program on an mbuf chain and on a flat buffer. Absolute loads agree. Of an indexed load
the flat path refuses a sum above 32 bits, the chain path lets it wrap.
-/

namespace XnuXzs.Bpf

open List Option Packet

def Seg.bytes (s : Seg) : List UInt8 := (List.range s.len).map s.data

def concat (l : List Seg) : List UInt8 := l.flatMap Seg.bytes

/-- The contiguous buffer with the bytes of the segments. -/
def joined (l : List Seg) : Seg := ⟨(concat l).length, fun i => (concat l).getD i 0⟩

@[simp] theorem Seg.bytes_length (s : Seg) : s.bytes.length = s.len := by
  simp [Seg.bytes]

theorem concat_cons (s : Seg) (l : List Seg) : concat (s :: l) = s.bytes ++ concat l := rfl

theorem concat_joined (l : List Seg) : concat [joined l] = concat l := by
  rw [concat_cons, concat, flatMap_nil, append_nil]
  apply ext_getElem
  · exact Seg.bytes_length _
  · intro i hi hi'
    simp [Seg.bytes, joined, hi']

variable {l : List Seg} {k j : Nat} {p : Packet} {ls : List Loc}

theorem concat_startOf {s : Seg} (hs : l[j]? = some s) {i : Nat} (hi : i < s.len) :
    (concat l)[startOf l j + i]? = some (s.data i) := by
  induction l generalizing j with
  | nil => cases hs
  | cons a l ih =>
    rw [concat_cons]
    cases j with
    | zero =>
      cases hs
      rw [getElem?_append_left (by simpa [startOf] using hi)]
      simp [startOf, Seg.bytes, hi]
    | succ j =>
      have := ih (j := j) hs
      rw [startOf_cons, getElem?_append_right (by rw [Seg.bytes_length]; omega),
        Seg.bytes_length, show a.len + startOf l j + i - a.len = startOf l j + i by omega]
      exact this

theorem concat_length_of_last {s : Seg} (hs : l[j]? = some s) (hn : l[j + 1]? = none) :
    (concat l).length = startOf l j + s.len := by
  have hj : j + 1 = l.length := by
    have := (List.getElem?_eq_some_iff.mp hs).1
    have := getElem?_eq_none_iff.mp hn
    omega
  rw [← startOf_succ hs, hj, startOf, take_length, concat, length_flatMap]
  simp

theorem locate_none (h : locate l k = none) : (concat l).length ≤ k := by
  suffices ∀ j, seekFrom j l k = none → (concat l).length ≤ k from this 0 h
  clear h
  induction l generalizing k with
  | nil => exact fun _ _ => Nat.zero_le _
  | cons a l ih =>
    intro j h
    simp only [seekFrom] at h
    split at h
    · have := ih (j + 1) h
      rw [concat_cons, length_append, Seg.bytes_length]
      omega
    · cases h

theorem locate_byte {c : Loc} (h : locate p.segs k = some c) :
    (concat p.segs)[k]? = some (p.byte c) := by
  obtain ⟨s, hs, hoff, rfl⟩ := locate_iff.mp h
  rw [concat_startOf hs hoff, byte, hs]

theorem Tracks.bytes (h : Tracks p.segs k ls) :
    ls.map p.byte = ((concat p.segs).drop k).take ls.length := by
  apply ext_getElem?
  intro t
  rw [getElem?_map]
  by_cases ht : t < ls.length
  · obtain ⟨c, hc⟩ : ∃ c, ls[t]? = some c := ⟨_, getElem?_eq_getElem ht⟩
    rw [hc, getElem?_take_of_lt ht, getElem?_drop, map_some]
    exact (locate_byte ((h t ht).symm.trans hc)).symm
  · rw [getElem?_eq_none_iff.mpr (Nat.le_of_not_lt ht), map_none, eq_comm,
      getElem?_eq_none_iff, length_take]
    omega

theorem Tracks.inside (h : Tracks p.segs k ls) (pos : 0 < ls.length) :
    k + ls.length ≤ (concat p.segs).length := by
  have ht := Nat.sub_lt pos Nat.one_pos
  have hc := (h _ ht).symm.trans (getElem?_eq_getElem ht)
  have := (List.getElem?_eq_some_iff.mp (locate_byte hc)).1
  omega

/-- A header, possibly empty, and a chain of mbufs with at least four bytes each. -/
structure Chain where
  hdr : Seg
  first : Seg
  rest : List Seg
  four : ∀ s ∈ first :: rest, 4 ≤ s.len
  bound : (concat (hdr :: first :: rest)).length < 2 ^ 32

namespace Chain

variable (c : Chain)

def segs : List Seg := c.hdr :: c.first :: c.rest

def total : Nat := (concat c.segs).length

def wirelen : UInt32 := UInt32.ofNat c.total

def packet : Packet := .mbuf c.hdr c.first c.rest

theorem total_pos : 4 ≤ c.total := by
  have := c.four c.first (mem_cons_self ..)
  simp only [total, segs, concat_cons, length_append, Seg.bytes_length]
  omega

def flat : Packet := .flat (joined c.segs) (lt_of_lt_of_le (by decide) c.total_pos) c.bound

@[simp] theorem packet_segs : c.packet.segs = c.segs := rfl

@[simp] theorem packet_buflen : c.packet.buflen = 0 := rfl

@[simp] theorem flat_buflen : c.flat.buflen.toNat = c.total := Packet.buflen_flat ..

theorem flat_concat : concat c.flat.segs = concat c.segs := concat_joined _

/-- Four bytes in each mbuf leave `m_xhalf` nothing empty to run into. -/
theorem not_stray : ¬ c.packet.StrayAt k := by
  rintro ⟨j, s, n, -, hn, -, -, empty⟩
  have := c.four n (mem_of_getElem? hn)
  omega

theorem next_seg {n : Nat} {l : Loc} {s : Seg} (h : locate c.segs k = some l)
    (hs : c.segs[l.seg]? = some s) (short : s.len - l.off < n) (inside : k + n ≤ c.total) :
    ∃ next, c.segs[l.seg + 1]? = some next ∧ 4 ≤ next.len := by
  obtain ⟨_, _, _, hk⟩ := locate_iff.mp h
  cases hn : c.segs[l.seg + 1]? with
  | none =>
    have := concat_length_of_last hs hn
    rw [total] at inside
    omega
  | some next => exact ⟨next, rfl, c.four next (mem_of_getElem? hn)⟩

theorem bpX_some (size : Size) (inside : k + size.bytes ≤ c.total) :
    ∃ ls, c.packet.bpX size k = some ls := by
  have pos := size.bytes_pos
  cases hl : locate c.segs k with
  | none =>
    have := locate_none hl
    rw [total] at inside
    omega
  | some l =>
    have hoff : hdrOffset c.hdr (c.first :: c.rest) k = some l := hl
    obtain ⟨s, hs, hlt, _⟩ := locate_iff.mp hl
    have hseg : segAt c.hdr (c.first :: c.rest) l.seg = some s := hs
    have next (short : s.len - l.off < size.bytes) :
        ∃ next, segAt c.hdr (c.first :: c.rest) (l.seg + 1) = some next ∧ 4 ≤ next.len :=
      c.next_seg hl hs short inside
    cases size with
    | w =>
      simp only [packet, bpX, xword, hoff, hseg, bind_eq_bind, bind_some]
      split
      · exact ⟨_, rfl⟩
      rename_i short
      obtain ⟨n, hn, four⟩ := next (lt_of_not_ge short)
      rw [hn, bind_some, if_neg (by omega)]
      exact ⟨_, rfl⟩
    | h =>
      simp only [packet, bpX, mXhalf, hoff, hseg, bind_eq_bind, bind_some]
      split
      · exact ⟨_, rfl⟩
      rename_i short
      obtain ⟨n, hn, _⟩ := next (lt_of_not_ge short)
      rw [hn]
      exact ⟨_, rfl⟩
    | b =>
      simp only [packet, bpX, xbyte, hoff, bind_eq_bind, bind_some]
      exact ⟨_, rfl⟩

theorem bpX_none (size : Size) (beyond : c.total < k + size.bytes) :
    c.packet.bpX size k = none := by
  cases h : c.packet.bpX size k with
  | none => rfl
  | some ls =>
    obtain ⟨tracks, len⟩ := bpX_tracks h fun _ => c.not_stray
    have inside := tracks.inside (len ▸ size.bytes_pos)
    rw [packet_segs, ← total] at inside
    omega

end Chain

/-- Both loads fail, or both give the same value. -/
def SameLoad (p q : Packet) (ls ls' : Option (List Loc)) : Prop :=
  ls.map p.value = ls'.map q.value

namespace Chain

variable (c : Chain) {beyond : Bool}

theorem load_chain (size : Size) (h : beyond = true) (k : UInt32) :
    c.packet.load size beyond k = c.packet.bpX size k.toNat := by
  simp [load, h]

theorem load_flat_none (size : Size) (h : beyond = true) (k : UInt32) :
    c.flat.load size beyond k = none := by
  have : c.flat.buflen ≠ 0 := by
    intro zero
    have len := c.flat_buflen
    rw [zero] at len
    have := c.total_pos
    simp only [UInt32.toNat_zero] at len
    omega
  simp [load, h, this]

/-- Inside the packet both paths read the same bytes, wherever the segments are divided. -/
theorem load_same (size : Size) (k : UInt32) (h : beyond = true)
    (inside : k.toNat + size.bytes ≤ c.total) :
    SameLoad c.packet c.flat (c.packet.load size beyond k) (c.flat.load size false k) := by
  obtain ⟨ls, hls⟩ := c.bpX_some size inside
  have hflat : c.flat.load size false k = some (span ⟨0, k.toNat⟩ size.bytes) := rfl
  obtain ⟨tracks, len⟩ := bpX_tracks hls fun _ => c.not_stray
  obtain ⟨tracks', len'⟩ := load_tracks hflat (fun _ => c.flat_buflen ▸ inside) fun _ => id
  have bytes : ls.map c.packet.byte = (span ⟨0, k.toNat⟩ size.bytes).map c.flat.byte := by
    rw [tracks.bytes, tracks'.bytes, c.flat_concat, c.packet_segs, len, len']
  rw [c.load_chain size h, hls, hflat]
  simp [SameLoad, value, bytes]

theorem loadAbs_same (size : Size) (k : UInt32) :
    SameLoad c.packet c.flat (c.packet.loadAbs size k) (c.flat.loadAbs size k) := by
  have chain : absBeyond size k c.packet.buflen = true := by
    have := size.bytes_pos
    rw [absBeyond_iff, packet_buflen, UInt32.toNat_zero]
    omega
  have flat := absBeyond_iff size k c.flat.buflen
  rw [flat_buflen] at flat
  unfold loadAbs
  by_cases beyond : c.total < k.toNat + size.bytes
  · rw [c.load_flat_none size (flat.mpr beyond), c.load_chain size chain,
      c.bpX_none size beyond]
    rfl
  · rw [Bool.eq_false_iff.mpr (fun h => beyond (flat.mp h))]
    exact c.load_same size k chain (Nat.le_of_not_lt beyond)

/-- The sum `x + k` fits, or the chain has nothing at the wrapped offset. -/
def IndexFits (size : Size) (x k : UInt32) : Prop :=
  x.toNat + k.toNat < 2 ^ 32 ∨ c.total < (x + k).toNat + size.bytes

theorem loadInd_same (size : Size) (x k : UInt32) (fits : c.IndexFits size x k) :
    SameLoad c.packet c.flat (c.packet.loadInd size x k) (c.flat.loadInd size x k) := by
  have chain : indBeyond size x k c.packet.buflen = true := by
    have := size.bytes_pos
    rw [indBeyond_iff, packet_buflen, UInt32.toNat_zero]
    omega
  have flat := indBeyond_iff size x k c.flat.buflen
  rw [flat_buflen] at flat
  have sum := UInt32.toNat_add x k
  unfold loadInd
  by_cases beyond : c.total < x.toNat + k.toNat + size.bytes
  · have none : c.packet.bpX size (x + k).toNat = none := by
      apply c.bpX_none size
      cases fits with
      | inl small => rwa [sum, Nat.mod_eq_of_lt small]
      | inr past => exact past
    rw [c.load_flat_none size (flat.mpr beyond), c.load_chain size chain, none]
    rfl
  · have small : x.toNat + k.toNat < 2 ^ 32 := by
      have : c.total < 2 ^ 32 := c.bound
      omega
    rw [Bool.eq_false_iff.mpr (fun h => beyond (flat.mp h))]
    apply c.load_same size (x + k) chain
    rw [sum, Nat.mod_eq_of_lt small]
    exact Nat.le_of_not_lt beyond

end Chain

theorem readThen_same {q : Packet} {ls ls' : Option (List Loc)} (h : SameLoad p q ls ls')
    (f : UInt32 → State) : (readThen p ls f).2 = (readThen q ls' f).2 := by
  cases ls with
  | none =>
    cases ls' with
    | none => rfl
    | some => cases h
  | some ls =>
    cases ls' with
    | none => cases h
    | some ls' =>
      have value := Option.some.inj h
      simp [readThen, value]

namespace Chain

variable (c : Chain) {s : State}

/-- An indexed load in this state does not wrap into the packet. -/
def StepFits (s : State) (p : Insn) : Prop :=
  ∀ size, decode p.code = some (.ldInd size) → c.IndexFits size s.x p.k

/-- No indexed load of the run on the chain wraps into the packet. -/
def RunFits (f : List Insn) : Prop :=
  ∀ s p, Reaches f c.packet c.wirelen s → f[s.pc]? = some p → c.StepFits s p

theorem exec_same (wirelen : UInt32) {p : Insn} (fits : c.StepFits s p) :
    (exec c.packet wirelen s p).2 = (exec c.flat wirelen s p).2 := by
  cases hop : decode p.code with
  | none => simp [exec, hop]
  | some op =>
    simp only [exec, hop]
    cases op with
    | ldAbs size => exact readThen_same (c.loadAbs_same size p.k) _
    | ldInd size => exact readThen_same (c.loadInd_same size s.x p.k (fits size hop)) _
    | ldxMsh => exact readThen_same (c.loadAbs_same .b p.k) _
    | alu op src => cases op <;> cases src <;> rfl
    | _ => rfl

variable {c} {f : List Insn} {maxbuf : UInt32}

theorem step_same (fits : c.RunFits f) (hs : Reaches f c.packet c.wirelen s) :
    (step f c.packet c.wirelen s).2 = (step f c.flat c.wirelen s).2 := by
  cases hp : f[s.pc]? with
  | none => simp [step, hp]
  | some p =>
    rw [step_eq hp, step_eq hp]
    exact c.exec_same c.wirelen (fits s p hs hp)

theorem run_same (fits : c.RunFits f) (n : Nat) (hs : Reaches f c.packet c.wirelen s) :
    (run f c.packet c.wirelen n s).2 = (run f c.flat c.wirelen n s).2 := by
  induction n generalizing s with
  | zero => rfl
  | succ n ih =>
    have same := step_same fits hs
    have onward {s' : State} (h : (step f c.packet c.wirelen s).2 = .next s') :=
      ih (Reaches.next hs h)
    rcases hchain : step f c.packet c.wirelen s with ⟨es, o⟩
    rcases hflat : step f c.flat c.wirelen s with ⟨es', o'⟩
    rw [hchain] at same onward
    rw [hflat] at same
    cases same
    simp only [run, hchain, hflat]
    cases o with
    | next => exact onward rfl
    | ret => rfl
    | stuck => rfl

/-- The two runs return, and return one value. -/
def Agrees (c : Chain) (f : List Insn) : Prop :=
  ∃ v, (bpfFilter (some f) c.packet c.wirelen f.length).2 = some v ∧
    (bpfFilter (some f) c.flat c.wirelen f.length).2 = some v

theorem agrees_of_fits (h : validate maxbuf f = true) (fits : c.RunFits f) : c.Agrees f := by
  obtain ⟨v, hv⟩ : ∃ v, (run f c.packet c.wirelen f.length .init).2 = some v :=
    run_halts h _ _ (validate_length h).1 le_rfl
  exact ⟨v, hv, (run_same fits _ .start).symm.trans hv⟩

theorem stepFits_of_zero (c : Chain) (s : State) {p : Insn} (h : p.k = 0) : c.StepFits s p := by
  intro size _
  left
  rw [h, UInt32.toNat_zero, add_zero]
  exact s.x.toNat_lt

theorem runFits_of_maxbuf (h : validate maxbuf f = true) (small : maxbuf ≤ 1) : c.RunFits f := by
  intro s p _ hp size hop
  have hk : p.k < maxbuf := (accepted_insn h hp).1 _ hop
  refine c.stepFits_of_zero s ?_ size hop
  rw [UInt32.lt_iff_toNat_lt] at hk
  rw [UInt32.le_iff_toNat_le, UInt32.toNat_one] at small
  rw [← UInt32.toNat_inj, UInt32.toNat_zero]
  omega

end Chain

/-- `ldx #0xffffffff; ldb [x + 1]; ret #1`. -/
def wrapToZero : List Insn :=
  [⟨0x01, 0, 0, 0xffffffff⟩, ⟨0x50, 0, 0, 1⟩, ⟨0x06, 0, 0, 1⟩]

theorem wrapToZero_validate {maxbuf : UInt32} (h : 1 < maxbuf) :
    validate maxbuf wrapToZero = true := by
  simp +decide [validate, wrapToZero, validInsn, List.zipIdx, h]

variable {pkt : Packet} {wirelen : UInt32}

theorem wrapToZero_result : (bpfFilter (some wrapToZero) pkt wirelen 3).2 =
    match pkt.loadInd .b 0xffffffff 1 with
    | some _ => some 1
    | none => some 0 := by
  have himm : decode 0x01 = some .ldxImm := by decide
  have hind : decode 0x50 = some (.ldInd .b) := by decide
  have hret : decode 0x06 = some .retK := by decide
  cases h : pkt.loadInd .b 0xffffffff 1 <;>
    simp [bpfFilter, run, step, wrapToZero, State.init, exec, himm, hind, hret, State.goto, h,
      readThen]

namespace Chain

/-- The sum is 0 on the chain, where there is a byte, and too large on the
flat buffer. -/
theorem wrapToZero_differs (c : Chain) : ¬ c.Agrees wrapToZero := by
  rintro ⟨v, hchain, hflat⟩
  obtain ⟨ls, hls⟩ := c.bpX_some .b (k := 0) (le_trans (by decide) c.total_pos)
  have onChain : c.packet.loadInd .b 0xffffffff 1 = some ls := by
    exact hls
  have onFlat : c.flat.loadInd .b 0xffffffff 1 = none := by
    apply c.load_flat_none
    rw [indBeyond_iff, flat_buflen]
    have : c.total < 2 ^ 32 := c.bound
    simp only [UInt32.reduceToNat, Size.bytes]
    omega
  have hc := wrapToZero_result.symm.trans hchain
  have hf := wrapToZero_result.symm.trans hflat
  rw [onChain] at hc
  rw [onFlat] at hf
  cases hc
  cases hf

/-- On every chain, an accepted program gives the value it gives on the
contiguous copy if no indexed load wraps into the packet on the way. That all
accepted programs do so is the case exactly if the check leaves indexed loads
no displacement but zero. -/
theorem filter_flat_agrees (maxbuf : UInt32) (c : Chain) :
    (∀ f, validate maxbuf f = true → c.RunFits f → c.Agrees f) ∧
    ((∀ f, validate maxbuf f = true → c.Agrees f) ↔ maxbuf ≤ 1) := by
  refine ⟨fun f => agrees_of_fits, ?_, ?_⟩
  · intro all
    apply UInt32.not_lt.mp
    intro big
    exact c.wrapToZero_differs (all wrapToZero (wrapToZero_validate big))
  · intro small f accepted
    exact agrees_of_fits accepted (runFits_of_maxbuf accepted small)

def twoMbufs : Chain where
  hdr := ⟨0, fun _ => 0⟩
  first := ⟨4, fun i => UInt8.ofNat (i + 1)⟩
  rest := [⟨4, fun i => UInt8.ofNat (i + 5)⟩]
  four := by decide
  bound := by decide

/-- `ldx #2; ld [x + 0]; ret a` takes a word that crosses the boundary. -/
theorem filter_flat_agrees_crossing :
    twoMbufs.Agrees [⟨0x01, 0, 0, 2⟩, ⟨0x40, 0, 0, 0⟩, ⟨0x16, 0, 0, 0⟩] := by
  apply (filter_flat_agrees 0x80000 twoMbufs).1
  · decide
  intro s p _ hp size hop
  have all : ∀ q ∈ ([⟨0x01, 0, 0, 2⟩, ⟨0x40, 0, 0, 0⟩, ⟨0x16, 0, 0, 0⟩] : List Insn),
      q.k = 0 ∨ (decode q.code).all (· = .ldxImm) := by decide
  cases all p (mem_of_getElem? hp) with
  | inl zero => exact twoMbufs.stepFits_of_zero s zero size hop
  | inr other =>
    rw [hop] at other
    exact absurd other (by simp)

/-- The chain returns 1 and the flat buffer 0. -/
theorem filter_flat_differs : validate 0x80000 wrapToZero = true ∧
    (bpfFilter (some wrapToZero) twoMbufs.packet twoMbufs.wirelen 3).2 = some 1 ∧
    (bpfFilter (some wrapToZero) twoMbufs.flat twoMbufs.wirelen 3).2 = some 0 := by
  decide

end Chain

end XnuXzs.Bpf
