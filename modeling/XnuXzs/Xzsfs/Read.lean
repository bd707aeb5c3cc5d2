import XnuXzs.Xzsfs.Mount

/-!
# Reading into a buffer

`xzsfs_core_read` with the caller's buffer. The buffer records every copy made into it,
so that a store beyond the bytes asked for can be seen.
-/

namespace XnuXzs.Xzsfs

open XnuXzs.Lib

/-- The `while` loop, after `done` bytes of `toRead`. -/
def readIntoLoop (rd : BlockRead) (start : UInt64) (toRead done : Nat) (buf : Buf) :
    Except Err Nat × Buf :=
  if done < toRead then
    let pos := (start + UInt64.ofNat done).toNat
    let chunk := min (512 - pos % 512) (toRead - done)
    match rd (pos / 512) with
    | .error e => (.error e, buf)
    | .ok sec =>
      readIntoLoop rd start toRead (done + chunk) (buf.copy done chunk fun i => sec (pos % 512 + i))
  else (.ok done, buf)
termination_by toRead - done
decreasing_by omega

/-- `xzsfs_core_read`; the number is stored in `bytes_read`. -/
def readInto (rd : BlockRead) (node : CoreNode) (offset len : UInt64) (buf : Buf) :
    Except Err Nat × Buf :=
  if node.type ≠ typeReg then (.error .inval, buf)
  else if offset ≥ node.dataLength ∨ len = 0 then (.ok 0, buf)
  else
    let toRead := if offset + len > node.dataLength then node.dataLength - offset else len
    readIntoLoop rd (node.dataOffset + offset) toRead.toNat 0 buf

def wanted (node : CoreNode) (offset len : UInt64) : Nat :=
  min len.toNat (node.dataLength.toNat - offset.toNat)

/-- The bytes asked for are in the buffer, and nothing was stored behind them. An image has no
byte at 2^64. -/
structure ReadsExtent (rd : BlockRead) (node : CoreNode) (offset len : UInt64)
    (before : Nat → UInt8)
    (r : Except Err Nat × Buf) : Prop where
  count : r.1 = .ok (wanted node offset len)
  bytes : ∀ k, k < wanted node offset len → node.dataOffset.toNat + offset.toNat + k < 2 ^ 64 ∧
    imageByte rd (node.dataOffset.toNat + offset.toNat + k) = some (r.2.byte k)
  within : ∀ c ∈ r.2.copies, c.dst + c.len ≤ wanted node offset len
  rest : ∀ k, wanted node offset len ≤ k → r.2.byte k = before k

/-- Neither the end of the request nor its place in the image is beyond 64 bits. -/
def FitsWord (node : CoreNode) (offset len : UInt64) : Prop :=
  offset.toNat < node.dataLength.toNat → len.toNat ≠ 0 →
    offset.toNat + len.toNat < 2 ^ 64 ∧
    node.dataOffset.toNat + offset.toNat + wanted node offset len ≤ 2 ^ 64

section
variable {rd : BlockRead} {start : UInt64} {toRead done : Nat} {buf buf' : Buf}

/-- What the loop leaves in the buffer, if it does not fail. -/
structure Filled (rd : BlockRead) (start : UInt64) (toRead done : Nat) (buf buf' : Buf) : Prop where
  bytes : ∀ k, done ≤ k → k < toRead → imageByte rd (start + UInt64.ofNat k).toNat =
    some (buf'.byte k)
  same : ∀ k, k < done ∨ toRead ≤ k → buf'.byte k = buf.byte k
  within : ∀ c ∈ buf'.copies, c ∈ buf.copies ∨ c.dst + c.len ≤ toRead

theorem place_in_sector {k : Nat} (hk : (start + UInt64.ofNat done).toNat % 512 + k < 512) :
    (start + UInt64.ofNat (done + k)).toNat = (start + UInt64.ofNat done).toNat + k := by
  have hlt := (start + UInt64.ofNat done).toNat_lt
  rw [UInt64.ofNat_add, ← UInt64.add_assoc, UInt64.toNat_add, UInt64.toNat_ofNat']
  omega

theorem filled_copy {sec : Sector} {chunk : Nat}
    (hread : rd ((start + UInt64.ofNat done).toNat / 512) = .ok sec)
    (hchunk : (start + UInt64.ofNat done).toNat % 512 + chunk ≤ 512) (hle : done + chunk ≤ toRead)
    (h : Filled rd start toRead (done + chunk) (buf.copy done chunk fun i =>
      sec ((start + UInt64.ofNat done).toNat % 512 + i)) buf') :
    Filled rd start toRead done buf buf' := by
  constructor
  · intro k hge hlt
    by_cases hnew : k < done + chunk
    · rw [h.same k (.inl hnew), Buf.copy]
      obtain ⟨j, rfl⟩ := Nat.exists_eq_add_of_le hge
      have hplace := @place_in_sector start done j (by omega)
      have hlba : ((start + UInt64.ofNat done).toNat + j) / 512 =
          (start + UInt64.ofNat done).toNat / 512 := by
        omega
      have hoff : ((start + UInt64.ofNat done).toNat + j) % 512 =
          (start + UInt64.ofNat done).toNat % 512 + j := by
        omega
      rw [hplace, imageByte, hlba, hread, hoff]
      simp [hge, hnew]
    · exact h.bytes k (not_lt.mp hnew) hlt
  · intro k hk
    rw [h.same k (by omega), Buf.copy]
    exact if_neg (by omega)
  · intro c hc
    rcases h.within c hc with hold | hin
    · rcases List.mem_cons.mp hold with rfl | hold
      · exact .inr hle
      · exact .inl hold
    · exact .inr hin

theorem readIntoLoop_filled {n : Nat} (hle : done ≤ toRead)
    (h : readIntoLoop rd start toRead done buf = (.ok n, buf')) :
    n = toRead ∧ Filled rd start toRead done buf buf' := by
  induction done, buf using readIntoLoop.induct rd start toRead with
  | case1 done buf hlt pos e herr =>
    rw [readIntoLoop, if_pos hlt] at h
    simp only [show rd ((start + UInt64.ofNat done).toNat / 512) = .error e from herr] at h
    cases h
  | case2 done buf hlt pos chunk sec hread ih =>
    rw [readIntoLoop, if_pos hlt] at h
    simp only [show rd ((start + UInt64.ofNat done).toNat / 512) = .ok sec from hread] at h
    obtain ⟨hn, hfilled⟩ := ih (by omega) h
    exact ⟨hn, filled_copy hread (by omega) (by omega) hfilled⟩
  | case3 done buf hlt =>
    rw [readIntoLoop, if_neg hlt] at h
    obtain ⟨hn, rfl⟩ := Prod.mk.inj h
    have hdone := Except.ok.inj hn
    refine ⟨by omega, fun k hge hk => ?_, fun _ _ => rfl, fun c hc => .inl hc⟩
    omega

theorem readIntoLoop_total (hdisk : ∀ lba, ∃ sec, rd lba = .ok sec) :
    ∃ n after, readIntoLoop rd start toRead done buf = (.ok n, after) := by
  induction done, buf using readIntoLoop.induct rd start toRead with
  | case1 done buf hlt pos e herr =>
    obtain ⟨sec, hread⟩ := hdisk (pos / 512)
    rw [herr] at hread
    cases hread
  | case2 done buf hlt pos chunk sec hread ih =>
    rw [readIntoLoop, if_pos hlt]
    simp only [show rd ((start + UInt64.ofNat done).toNat / 512) = .ok sec from hread]
    exact ih
  | case3 done buf hlt =>
    rw [readIntoLoop, if_neg hlt]
    exact ⟨_, _, rfl⟩

theorem readIntoLoop_list (hle : done ≤ toRead) :
    readLoop rd (start + UInt64.ofNat done).toNat (toRead - done) =
    (readIntoLoop rd start toRead done buf).1.map fun _ =>
      bytesAt (readIntoLoop rd start toRead done buf).2.byte done (toRead - done) := by
  induction done, buf using readIntoLoop.induct rd start toRead with
  | case1 done buf hlt pos e herr =>
    have herr' : rd ((start + UInt64.ofNat done).toNat / 512) = .error e := herr
    rw [readLoop, if_neg (by omega), readIntoLoop, if_pos hlt]
    simp only [herr', Except.map]
  | case2 done buf hlt pos chunk sec hread ih =>
    have hread' : rd ((start + UInt64.ofNat done).toNat / 512) = .ok sec := hread
    have hplace : ((start + UInt64.ofNat done).toNat + chunk) % 2 ^ 64 =
        (start + UInt64.ofNat (done + chunk)).toNat := by
      rw [UInt64.ofNat_add, ← UInt64.add_assoc, UInt64.toNat_add (start + _), UInt64.toNat_ofNat']
      omega
    rw [readLoop, if_neg (by omega), readIntoLoop, if_pos hlt]
    simp only [hread']
    rw [hplace, Nat.sub_sub, ih (by omega)]
    cases hloop : readIntoLoop rd start toRead (done + chunk)
        (buf.copy done chunk fun i => sec (pos % 512 + i)) with
    | mk r buf' =>
      cases r with
      | error => rfl
      | ok n =>
        obtain ⟨-, hfilled⟩ := readIntoLoop_filled (by omega) hloop
        have hfront : bytesAt sec (pos % 512) chunk = bytesAt buf'.byte done chunk := by
          apply bytesAt_congr
          intro c hc
          rw [hfilled.same (done + c) (by omega), Buf.copy]
          simp only [Nat.le_add_right, Nat.add_lt_add_iff_left, hc, and_self, if_true,
            Nat.add_sub_cancel_left]
        have hwhole : bytesAt buf'.byte done (toRead - done) =
            bytesAt sec (pos % 512) chunk ++
              bytesAt buf'.byte (done + chunk) (toRead - (done + chunk)) := by
          rw [hfront, ← bytesAt_append]
          congr 1
          omega
        exact congrArg Except.ok hwhole.symm
  | case3 done buf hlt =>
    have hnone : toRead - done = 0 := by omega
    rw [hnone, readLoop, if_pos rfl, readIntoLoop, if_neg hlt]
    rfl

end

section
variable {rd : BlockRead} {node : CoreNode} {offset len : UInt64} {buf : Buf} {before : Nat → UInt8}

theorem readsExtent_nothing (hnone : wanted node offset len = 0) :
    ReadsExtent rd node offset len before (.ok 0, ⟨before, []⟩) := by
  constructor
  · rw [hnone]
  · intro k hk
    omega
  · intro c hc
    cases hc
  · exact fun _ _ => rfl

theorem readsExtent_iff {n : Nat} {after : Buf} (hn : 0 < n)
    (h : Filled rd (node.dataOffset + offset) n 0 ⟨before, []⟩ after) :
    ReadsExtent rd node offset len before (.ok n, after) ↔
      n = wanted node offset len ∧ node.dataOffset.toNat + offset.toNat +
        wanted node offset len ≤ 2 ^ 64 := by
  constructor
  · intro hread
    have hcount := Except.ok.inj hread.count
    have hlast := (hread.bytes (n - 1) (by omega)).1
    exact ⟨hcount, by omega⟩
  rintro ⟨rfl, hle⟩
  constructor
  · rfl
  · intro k hk
    have hplace : (node.dataOffset + offset + UInt64.ofNat k).toNat =
        node.dataOffset.toNat + offset.toNat + k := by
      rw [UInt64.toNat_add, UInt64.toNat_add, UInt64.toNat_ofNat']
      omega
    have hbyte := h.bytes k (Nat.zero_le k) hk
    rw [hplace] at hbyte
    exact ⟨by omega, hbyte⟩
  · intro c hc
    exact (h.within c hc).resolve_left (List.not_mem_nil)
  · exact fun k hk => h.same k (.inr hk)

/-- The clamp is right exactly when the end of the request does not wrap. -/
theorem clamp_eq_wanted (hoff : offset.toNat < node.dataLength.toNat) :
    (if offset + len > node.dataLength then node.dataLength - offset else len).toNat =
      wanted node offset len ↔ offset.toNat + len.toNat < 2 ^ 64 := by
  have hsub := UInt64.toNat_sub_of_le _ _ (UInt64.le_iff_toNat_le.mpr hoff.le)
  have hlen := node.dataLength.toNat_lt
  have hlen' := len.toNat_lt
  have hwrap : offset + len > node.dataLength ↔
      node.dataLength.toNat < (offset.toNat + len.toNat) % 2 ^ 64 := by
    rw [gt_iff_lt, UInt64.lt_iff_toNat_lt, UInt64.toNat_add]
  rw [wanted]
  split_ifs with hgt
  · rw [hwrap] at hgt
    omega
  · rw [hwrap] at hgt
    omega

section

variable (hreg : node.type = typeReg)
include hreg

theorem readInto_loop (hoff : offset.toNat < node.dataLength.toNat)
    (hpos : len.toNat ≠ 0) : ∃ toRead, 0 < toRead ∧
      readInto rd node offset len buf = readIntoLoop rd (node.dataOffset + offset) toRead 0 buf ∧
      (toRead = wanted node offset len ↔ offset.toNat + len.toNat < 2 ^ 64) := by
  refine ⟨_, ?_, ?_, clamp_eq_wanted hoff⟩
  · split
    · rw [UInt64.toNat_sub_of_le _ _ (UInt64.le_iff_toNat_le.mpr hoff.le)]
      omega
    · omega
  have hsome : ¬(offset ≥ node.dataLength ∨ len = 0) := by
    rw [ge_iff_le, UInt64.le_iff_toNat_le, ← UInt64.toNat_inj]
    rintro (hge | hzero)
    · omega
    · exact hpos hzero
  rw [readInto, if_neg (not_not.mpr hreg), if_neg hsome]

theorem readInto_nothing (hnone : node.dataLength.toNat ≤ offset.toNat ∨ len.toNat = 0) :
    readInto rd node offset len buf = (.ok 0, buf) := by
  have hempty : offset ≥ node.dataLength ∨ len = 0 := by
    rw [ge_iff_le, UInt64.le_iff_toNat_le, ← UInt64.toNat_inj]
    exact hnone
  rw [readInto, if_neg (not_not.mpr hreg), if_pos hempty]

theorem readInto_total (hdisk : ∀ lba, ∃ sec, rd lba = .ok sec) :
    ∃ n after, readInto rd node offset len buf = (.ok n, after) := by
  by_cases hnone : node.dataLength.toNat ≤ offset.toNat ∨ len.toNat = 0
  · exact ⟨_, _, readInto_nothing hreg hnone⟩
  obtain ⟨hoff, hpos⟩ := not_or.mp hnone
  obtain ⟨toRead, -, hloop, -⟩ := @readInto_loop rd node offset len buf hreg (not_le.mp hoff) hpos
  rw [hloop]
  exact readIntoLoop_total hdisk

/-- A read of a regular file in which no block read fails is right, exactly when the
request fits into 64 bits. -/
theorem readInto_iff (before : Nat → UInt8)
    (hreads : ∀ e, (readInto rd node offset len ⟨before, []⟩).1 ≠ .error e) :
    ReadsExtent rd node offset len before (readInto rd node offset len ⟨before, []⟩) ↔
      FitsWord node offset len := by
  by_cases hnone : node.dataLength.toNat ≤ offset.toNat ∨ len.toNat = 0
  · rw [readInto_nothing hreg hnone]
    refine iff_of_true (readsExtent_nothing ?_) fun hlt hpos => ?_
    · rw [wanted]
      omega
    · omega
  · obtain ⟨hoff, hpos⟩ := not_or.mp hnone
    rw [not_le] at hoff
    obtain ⟨toRead, hsome, hstep, hclamp⟩ :=
      @readInto_loop rd node offset len ⟨before, []⟩ hreg hoff hpos
    rw [hstep] at hreads ⊢
    cases hloop : readIntoLoop rd (node.dataOffset + offset) toRead 0 ⟨before, []⟩ with
    | mk r after =>
      cases r with
      | error e => exact absurd (by rw [hloop]) (hreads e)
      | ok n =>
        obtain ⟨rfl, hfilled⟩ := readIntoLoop_filled (Nat.zero_le toRead) hloop
        rw [readsExtent_iff hsome hfilled, hclamp]
        exact ⟨fun h _ _ => h, fun h => h hoff hpos⟩

end

end

def zeroDisk : BlockRead := fun _ => .ok fun _ => 0

/-- The file of a validated image with 100 bytes at 1536. -/
def hundredBytes : CoreNode := nodeOf (rootAndFile 1536 100 1)

theorem readInto_last_byte : hundredBytes.type = typeReg ∧
    ReadsExtent zeroDisk hundredBytes 99 2 (fun _ =>
      1) (readInto zeroDisk hundredBytes 99 2 ⟨fun _ => 1, []⟩) := by
  refine ⟨rfl, (readInto_iff rfl _ fun e he => ?_).mpr fun _ _ => by decide⟩
  obtain ⟨n, after, hok⟩ := @readInto_total zeroDisk hundredBytes 99 2 ⟨fun _ => 1, []⟩ rfl fun _ =>
    ⟨_, rfl⟩
  rw [hok] at he
  cases he

/-- From offset 1 on with the largest length, the sum wraps to 0, so that 2^64 - 1 bytes
are stored where 99 were to be. -/
theorem readInto_wraps : validateSuperblock twoObjects = .ok () ∧
    validateGraph twoObjects (rootAndFile 1536 100) (oneName 0x61) = .ok () ∧
    hundredBytes.type = typeReg ∧ (∀ lba, ∃ sec, zeroDisk lba = .ok sec) ∧
    ∀ before, ¬ReadsExtent zeroDisk hundredBytes 1 (0 - 1) before
      (readInto zeroDisk hundredBytes 1 (0 - 1) ⟨before, []⟩) := by
  refine ⟨by decide, by decide, rfl, fun _ => ⟨_, rfl⟩, fun before hread => ?_⟩
  obtain ⟨toRead, hsome, hstep, hclamp⟩ :=
    @readInto_loop zeroDisk hundredBytes 1 (0 - 1) ⟨before, []⟩ rfl (by decide) (by decide)
  obtain ⟨n, after, hloop⟩ := @readIntoLoop_total zeroDisk (hundredBytes.dataOffset + 1) toRead 0
    ⟨before, []⟩ fun _ => ⟨_, rfl⟩
  obtain ⟨rfl, hfilled⟩ := readIntoLoop_filled (Nat.zero_le toRead) hloop
  rw [hstep, hloop, readsExtent_iff hsome hfilled, hclamp] at hread
  exact absurd hread.1 (by decide)

end XnuXzs.Xzsfs
