import XnuXzs.IpReass.Model

/-!
# The queue of a datagram

Each queued fragment is the rest of a packet. One that is trimmed up to a byte behind 65535 has
a wrong offset, but then the datagram is not complete, or is too long.
-/

namespace XnuXzs.IpReass

open Lib List

/-- A queued fragment is the rest of one of the packets. -/
structure FragOk (got : List Packet) (f : Frag) : Prop where
  mem : f.src ∈ got
  len_le : f.len ≤ f.src.data.length
  data : f.data = f.src.data.drop (f.src.data.length - f.len)
  off : f.off = f.base % 65536
  more : f.more = f.src.more
  hl : f.hl = f.src.hl
  pos : f.src.data ≠ [] → 0 < f.len

variable {got : List Packet} {f m m' : Frag} {qs : List Frag} {stop : Nat} {fp : Ipq} {l : Limits}
  {seen : Prop}

section

variable (h : FragOk got f)
include h

theorem FragOk.mono {got' : List Packet} (hsub : ∀ m ∈ got, m ∈ got') :
    FragOk got' f := { h with mem := hsub _ h.mem }

theorem FragOk.base_eq : f.base = f.src.start + (f.src.data.length - f.len) := by
  have := h.len_le
  rw [Frag.base]
  omega

theorem FragOk.stop_eq : f.base + f.len = f.src.start + f.src.data.length := by
  have := h.len_le
  rw [h.base_eq]
  omega

theorem FragOk.data_length : f.data.length = f.len := by
  have := h.len_le
  rw [h.data, length_drop]
  omega

theorem FragOk.byte (k : Nat) (hk : f.base ≤ k) :
    f.data[k - f.base]? = f.src.data[k - f.src.start]? := by
  have hbase := h.base_eq
  rw [h.data, getElem?_drop]
  congr 1
  omega

end

theorem Packet.start_lt (m : Packet) : m.start < 65536 := by
  rw [Packet.start]
  omega

/-- No data behind byte 65535. -/
def Packet.Fits (m : Packet) : Prop := m.start + m.data.length ≤ 65536

theorem FragOk.off_eq (h : FragOk got f) (hfit : f.src.Fits) : f.off = f.base := by
  rw [h.off]
  apply Nat.mod_eq_of_lt
  have hstop := h.stop_eq
  have hstart := f.src.start_lt
  rw [Packet.Fits] at hfit
  by_cases hdata : f.src.data = []
  · rw [h.base_eq, hdata]
    simpa using hstart
  · have := h.pos hdata
    omega

theorem toFrag_ok {p : Packet} (h : p.toFrag = some f) :
    FragOk [p] f ∧ f.src = p ∧ f.off = f.base := by
  simp only [Packet.toFrag] at h
  split at h
  · cases h
  cases h
  refine ⟨⟨mem_singleton_self p, le_rfl, ?_, ?_, rfl, rfl, length_pos_iff.mpr⟩, rfl, ?_⟩
  · simp
  · simp only [Frag.base, Packet.start]
    omega
  · simp only [Frag.base, Packet.start]
    omega

theorem FragOk.adj (h : FragOk got f) {i : Nat} (hi : i < f.len) :
    FragOk got (f.adj i) ∧ (f.adj i).base = f.base + i := by
  have hle := h.len_le
  have hbase : (f.adj i).base = f.base + i := by
    simp only [Frag.base, Frag.adj]
    omega
  refine ⟨⟨h.mem, ?_, ?_, ?_, h.more, h.hl, fun _ => ?_⟩, hbase⟩
  · simp only [Frag.adj]
    omega
  · simp only [Frag.adj]
    rw [h.data, drop_drop]
    congr 1
    omega
  · rw [hbase]
    simp only [Frag.adj]
    rw [h.off]
    omega
  · simp only [Frag.adj]
    omega

/-- In front of a fragment that begins behind byte 65535 there is one that reaches it. -/
def Guarded (seen : Prop) : List Frag → Prop
  | [] => True
  | f :: fs => (65536 ≤ f.base → seen) ∧ Guarded (seen ∨ 65536 ≤ f.off + f.len) fs

theorem Guarded.mono {seen' : Prop} (h : Guarded seen qs) (himp : seen → seen') :
    Guarded seen' qs := by
  induction qs generalizing seen seen' with
  | nil => trivial
  | cons q qs ih =>
    obtain ⟨hq, hqs⟩ := h
    exact ⟨himp ∘ hq, ih hqs (Or.imp_left himp)⟩

theorem guarded_append {ps : List Frag} :
    Guarded seen (ps ++ qs) ↔
      Guarded seen ps ∧ Guarded (seen ∨ ∃ p ∈ ps, 65536 ≤ p.off + p.len) qs := by
  induction ps generalizing seen with
  | nil => simp [Guarded]
  | cons p ps ih =>
    simp [Guarded, ih, or_assoc, and_assoc]

theorem Guarded.base_lt (h : Guarded False qs) (hqs : ∀ q ∈ qs, q.off + q.len < 65536) :
    ∀ q ∈ qs, q.base < 65536 := by
  induction qs with
  | nil => exact fun _ hq => nomatch hq
  | cons p ps ih =>
    obtain ⟨hp, hps⟩ := h
    have hlt := hqs p mem_cons_self
    intro q hq
    rcases mem_cons.mp hq with rfl | hq
    · by_contra hge
      exact hp (by omega)
    refine ih (hps.mono ?_) (fun r hr => hqs r (mem_cons_of_mem p hr)) q hq
    rintro (hfalse | hge)
    · exact hfalse
    · omega

theorem trimNext_guarded (hok : ∀ q ∈ qs, FragOk got q) (h : Guarded seen qs) :
    Guarded (seen ∨ 65536 ≤ stop) (trimNext stop qs).1 := by
  induction qs generalizing seen with
  | nil => trivial
  | cons q qs ih =>
    obtain ⟨hq, hqs⟩ := h
    have hqok := hok q mem_cons_self
    have hoff := hqok.off
    rw [trimNext]
    split
    · next hstop =>
      simp only
      split
      · -- the fragment begins where the new one ends
        next hi =>
        obtain ⟨-, hbase⟩ := hqok.adj hi
        refine ⟨fun hge => ?_, hqs.mono ?_⟩
        · by_cases hold : 65536 ≤ q.base
          · exact .inl (hq hold)
          · refine .inr ?_
            omega
        rintro (hseen | hbig)
        · exact .inl (.inl hseen)
        by_cases hwrap : 65536 ≤ stop
        · exact .inl (.inr hwrap)
        · refine .inr ?_
          simp only [Frag.adj]
          omega
      · next hi =>
        refine (ih (fun r hr => hok r (mem_cons_of_mem q hr)) hqs).mono ?_
        rintro ((hseen | hbig) | hwrap)
        · exact .inl hseen
        · refine .inr ?_
          omega
        · exact .inr hwrap
    · refine ⟨fun hge => .inl (hq hge), hqs.mono ?_⟩
      exact Or.imp_left .inl

theorem trimNext_ok (hok : ∀ q ∈ qs, FragOk got q) : ∀ q ∈ (trimNext stop qs).1, FragOk got q := by
  induction qs with
  | nil => exact fun _ hq => nomatch hq
  | cons q qs ih =>
    have hqok := hok q mem_cons_self
    have hqsok : ∀ r ∈ qs, FragOk got r := fun r hr => hok r (mem_cons_of_mem q hr)
    rw [trimNext]
    split
    · simp only
      split
      · next hi =>
        intro r hr
        rcases mem_cons.mp hr with rfl | hr
        · exact (hqok.adj hi).1
        · exact hqsok r hr
      · exact ih hqsok
    · exact hok

theorem trimNext_length (stop : Nat) (qs : List Frag) :
    (trimNext stop qs).1.length + (trimNext stop qs).2 = qs.length := by
  induction qs with
  | nil => rfl
  | cons q qs ih =>
    rw [trimNext]
    split
    · simp only
      split
      · simp
      · simp only [length_cons]
        omega
    · simp

theorem trimNext_ordered (hok : ∀ q ∈ qs, q.off + q.len ≤ 65536)
    (h : Successive Frag.off Frag.len qs) :
    Successive Frag.off Frag.len (trimNext stop qs).1 ∧
      ∀ q ∈ (trimNext stop qs).1, stop ≤ q.off := by
  induction qs with
  | nil => exact ⟨List.Pairwise.nil, fun _ hq => nomatch hq⟩
  | cons q qs ih =>
    obtain ⟨hq, hqs⟩ := pairwise_cons.mp h
    have hqlt := hok q mem_cons_self
    rw [trimNext]
    split
    · next hstop =>
      simp only
      split
      · next hi =>
        have hadj : (q.adj (stop - q.off)).off = stop ∧
            (q.adj (stop - q.off)).off + (q.adj (stop - q.off)).len = q.off + q.len := by
          simp only [Frag.adj]
          omega
        refine ⟨pairwise_cons.mpr ⟨fun r hr => ?_, hqs⟩, fun r hr => ?_⟩
        · rw [hadj.2]
          exact hq r hr
        rcases mem_cons.mp hr with rfl | hr
        · exact hadj.1.ge
        · have := hq r hr
          omega
      · exact ih (fun r hr => hok r (mem_cons_of_mem q hr)) hqs
    · next hstop =>
      refine ⟨h, fun r hr => ?_⟩
      rcases mem_cons.mp hr with rfl | hr
      · omega
      · have := hq r hr
        omega

theorem trimFront_ok {p : Option Frag} (hm : FragOk got m) (hoff : m.off = m.base)
    (h : trimFront p m = some m') :
    FragOk got m' ∧ m'.src = m.src ∧ m.base ≤ m'.base ∧ (∀ q ∈ p, q.off + q.len ≤ m'.base) ∧
      (m'.base = m.base ∨ ∃ q ∈ p, m'.base = q.off + q.len) := by
  cases p with
  | none =>
    cases h
    refine ⟨hm, rfl, le_rfl, ?_, .inl rfl⟩
    exact fun q hq => by cases hq
  | some p =>
    simp only [trimFront] at h
    split at h
    · next hi =>
      split at h
      · cases h
      next hlt =>
      cases h
      obtain ⟨hok, hbase⟩ := hm.adj (i := (p.off + p.len - m.off : Int).toNat) (by omega)
      refine ⟨hok, rfl, by omega, ?_, .inr ⟨p, rfl, by omega⟩⟩
      rintro q ⟨⟩
      omega
    · next hi =>
      cases h
      refine ⟨hm, rfl, le_rfl, ?_, .inl rfl⟩
      rintro q ⟨⟩
      omega

end XnuXzs.IpReass
