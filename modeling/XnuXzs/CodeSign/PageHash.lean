import XnuXzs.CodeSign.Walks

/-!
# Hashes of pages

The search for the hash of a page as a search in the list of scatter elements, that
it stays inside, and when what it returns is the hash of the page.
-/

namespace XnuXzs.CodeSign

open Lib

variable {b : Buffer} {pageShift cd page hashLen csSize limit p : Nat}

def elements (b : Buffer) : Nat → Nat → List Element
  | 0, _ => []
  | fuel + 1, p =>
    if be32 b p = 0 then [] else ⟨be32 b (p + 4), be32 b p⟩ :: elements b fuel (p + sizeofScatter)

def scatterElements (b : Buffer) (cd : Nat) : List Element :=
  elements b (b.size + 1) (cd + field b cd .scatterOffset)

variable {els : List Element} {fuel start upper length : Nat} {r : Csblob}

theorem Scatters.elements_eq (h : Scatters b limit p els) (hfuel : els.length < fuel) :
    elements b fuel p = els := by
  induction els generalizing p fuel with
  | nil =>
    obtain ⟨fuel, rfl⟩ := Nat.exists_eq_add_of_lt hfuel
    exact if_pos h.2
  | cons e els ih =>
    obtain ⟨fuel, rfl⟩ : ∃ n, fuel = n + 1 := ⟨fuel - 1, by omega⟩
    obtain ⟨-, hcount, hbase, hne, hrest⟩ := h
    rw [elements, if_neg (hcount ▸ hne), ih hrest (Nat.lt_of_succ_lt_succ hfuel), hcount, hbase]

theorem Scatters.length_le (h : Scatters b limit p els) : p + els.length < limit := by
  have hsize : sizeofScatter = 24 := rfl
  induction els generalizing p with
  | nil =>
    have := h.1
    simp only [List.length_nil]
    omega
  | cons e els ih =>
    have := ih h.2.2.2.2
    rw [List.length_cons]
    omega

theorem Scatters.count_ne (h : Scatters b limit p els) : ∀ e ∈ els, e.count ≠ 0 := by
  induction els generalizing p with
  | nil => exact nofun
  | cons e els ih =>
    obtain ⟨-, -, -, hne, hrest⟩ := h
    intro x hx
    rcases List.mem_cons.mp hx with rfl | hx
    · exact hne
    · exact ih hrest x hx

/-- The end of an element, in 32 bits. -/
def Element.wrapEnd (e : Element) : Nat := (e.base + e.count) % 2 ^ 32

/-- The element that the search stops at, and the slots of the elements before it. -/
def scatterFind (page : Nat) : List Element → Nat → Nat → Option (Element × Nat)
  | [], _, _ => none
  | e :: els, hashindex, sbase =>
    if 0 < hashindex ∧ e.base ≤ sbase ∨ page < e.base then none
    else if page ≤ e.wrapEnd then some (e, hashindex)
    else scatterFind page els (hashindex + e.count) e.base

/-- The hash for an element whose first slot is `slot`. -/
def slotHash (b : Buffer) (cd page hashLen : Nat) (e : Element) (slot : Nat) : Option Nat :=
  let base := cd + field b cd .hashOffset + slot * hashLen
  if base + e.count * hashLen ≤ b.size ∧ slot ≤ field b cd .nCodeSlots then
    some (base + (page - e.base) * hashLen)
  else none

def plainHash (b : Buffer) (cd page hashLen : Nat) : Option Nat :=
  let base := cd + field b cd .hashOffset
  if base + field b cd .nCodeSlots * hashLen ≤ b.size ∧ page ≤ field b cd .nCodeSlots then
    some (base + page * hashLen)
  else none

theorem validRange_iff {stop : Nat} :
    validRange start stop 0 upper = true ↔ start ≤ stop ∧ stop ≤ upper := by
  simp [validRange]

theorem invalid_iff {size slots n : Nat} :
    (!validRange start (start + size) 0 upper || decide (slots < n)) = true ↔
      ¬ (start + size ≤ upper ∧ n ≤ slots) := by
  rw [Bool.or_eq_true, Bool.not_eq_true', ← Bool.not_eq_true, validRange_iff, decide_eq_true_eq]
  omega

theorem scatterHash_eq (hcd : cd + sizeofCodeDirectory ≤ b.size) (e : Element) (slot : Nat) :
    scatterHash b cd page hashLen e.count e.base slot =
      .ok (slotHash b cd page hashLen e slot) := by
  unfold scatterHash slotHash
  rw [loadField_eq hcd, ok_bind, loadField_eq hcd, ok_bind]
  simp only [invalid_iff, ite_not]
  split <;> rfl

theorem hashesPlain_eq (hcd : cd + sizeofCodeDirectory ≤ b.size) :
    hashesPlain b cd page hashLen = .ok (plainHash b cd page hashLen) := by
  unfold hashesPlain plainHash
  rw [loadField_eq hcd, ok_bind, loadField_eq hcd, ok_bind]
  simp only [invalid_iff, ite_not]
  split <;> rfl

theorem hashesScatter_eq (hcd : cd + sizeofCodeDirectory ≤ b.size) {hashindex sbase : Nat}
    (hlimit : cd + field b cd .length ≤ b.size) (h : Scatters b (cd + field b cd .length) p els)
    (hslots : hashindex + slots els < 2 ^ 32) (hfuel : els.length < fuel) :
    hashesScatter b cd page hashLen fuel p hashindex sbase =
      .ok ((scatterFind page els hashindex sbase).bind fun x =>
        slotHash b cd page hashLen x.1 x.2) := by
  have hsize : sizeofScatter = 24 := rfl
  induction els generalizing fuel p hashindex sbase with
  | nil =>
    obtain ⟨fuel, rfl⟩ := Nat.exists_eq_add_of_lt hfuel
    obtain ⟨hend, hzero⟩ := h
    unfold hashesScatter
    rw [loadField_eq hcd, ok_bind, if_neg (by omega), load32_eq (by omega),
      ok_bind, load32_eq (by omega),
      ok_bind, if_pos (.inl hzero)]
    rfl
  | cons e els ih =>
    obtain ⟨fuel, rfl⟩ : ∃ n, fuel = n + 1 := ⟨fuel - 1, by omega⟩
    obtain ⟨hend, hcount, hbase, hne, hrest⟩ := h
    rw [slots_cons] at hslots
    unfold hashesScatter scatterFind
    rw [loadField_eq hcd, ok_bind, if_neg (by omega), load32_eq (by omega),
      ok_bind, load32_eq (by omega),
      ok_bind, hcount, hbase]
    by_cases hleave : 0 < hashindex ∧ e.base ≤ sbase ∨ page < e.base
    · rw [if_pos (.inr hleave), if_pos hleave]
      rfl
    rw [if_neg (not_or.mpr ⟨hne, hleave⟩), if_neg hleave]
    change (if page ≤ e.wrapEnd then _ else _) = _
    by_cases hstop : page ≤ e.wrapEnd
    · rw [if_pos hstop, if_pos hstop]
      exact scatterHash_eq hcd e hashindex
    · rw [if_neg hstop, if_neg hstop, Nat.mod_eq_of_lt (by omega)]
      exact ih hrest (by omega) (Nat.lt_of_succ_lt_succ hfuel)

def foundHash (b : Buffer) (cd page hashLen : Nat) : Option Nat :=
  if HasScatter b cd then
    (scatterFind page (scatterElements b cd) 0 0).bind fun x => slotHash b cd page hashLen x.1 x.2
  else plainHash b cd page hashLen

theorem DirectoryOk.scatters (h : DirectoryOk b cd length csSize) (hlength : cd + length ≤ b.size)
    (hscatter : HasScatter b cd) :
    Scatters b (cd + length) (cd + field b cd .scatterOffset) (scatterElements b cd) ∧
      slots (scatterElements b cd) < 2 ^ 32 := by
  obtain ⟨els, hels, hslots⟩ := h.scatter hscatter
  have hlt := hels.length_le
  rw [scatterElements, hels.elements_eq (by omega)]
  exact ⟨hels, hslots⟩

theorem DirectoryOk.hashes_eq (h : DirectoryOk b cd (field b cd .length) csSize)
    (hlength : cd + field b cd .length ≤ b.size) :
    hashes b cd page hashLen =
      .ok ((foundHash b cd page hashLen).filter fun hash =>
        validRange hash (hash + hashLen) 0 b.size) := by
  have hcd : cd + sizeofCodeDirectory ≤ b.size := (Nat.add_le_add_left h.header cd).trans hlength
  unfold hashes foundHash hashesFound
  rw [loadField_eq hcd, ok_bind, loadField_eq hcd, ok_bind]
  change (if HasScatter b cd then _ else _) >>= _ = _
  by_cases hscatter : HasScatter b cd
  · obtain ⟨hels, hslots⟩ := h.scatters hlength hscatter
    have hlt := hels.length_le
    rw [if_pos hscatter, if_pos hscatter, hashesScatter_eq hcd hlength hels (by omega) (by omega)]
    rfl
  · rw [if_neg hscatter, if_neg hscatter, hashesPlain_eq hcd]
    rfl

theorem DirectoryOk.hashes_some (h : DirectoryOk b cd (field b cd .length) csSize)
    (hlength : cd + field b cd .length ≤ b.size) {hash : Nat} :
    hashes b cd page hashLen = .ok (some hash) ↔
      foundHash b cd page hashLen = some hash ∧ hash + hashLen ≤ b.size := by
  rw [h.hashes_eq hlength, Except.ok.injEq, Option.filter_eq_some_iff, validRange_iff]
  exact and_congr_right fun _ => ⟨And.right, fun hle => ⟨Nat.le_add_right .., hle⟩⟩

/-- All that is looked up in an accepted signature is inside of it. -/
structure Confined (b : Buffer) (r : Csblob) (csSize : Nat) : Prop where
  special : ∀ slot, ∃ hash, findSpecialSlot b r.cd csSize slot = .ok hash ∧
    ∀ p, hash = some p → 0 ≤ p ∧ p + csSize ≤ b.size
  page : ∀ page, ∃ hash, hashes b r.cd page csSize = .ok hash ∧ ∀ p, hash = some p →
    p + csSize ≤ b.size
  blob : ∀ type magic, ∃ blob, findBlobBytes b type magic = .ok blob ∧
    ∀ p, blob = some p → p + sizeofGenericBlob ≤ b.size ∧ p + be32 b (p + 4) ≤ b.size
  ident : field b r.cd .identOffset ≠ 0 → Terminated b (r.cd + field b r.cd .identOffset) b.size
  team : supportsTeamid ≤ field b r.cd .version → field b r.cd .teamOffset ≠ 0 →
    Terminated b (r.cd + field b r.cd .teamOffset) b.size
  entitlements : findBlobBytes b csslotEntitlements csmagicEmbeddedEntitlements = .ok r.entitlements
  derEntitlements :
    findBlobBytes b csslotDerEntitlements csmagicEmbeddedDerEntitlements = .ok r.derEntitlements

theorem DirectoryOk.findSpecialSlot_inside (h : DirectoryOk b cd length csSize)
    (hlength : cd + length ≤ b.size) (slot : Nat) :
    ∃ hash, findSpecialSlot b cd csSize slot = .ok hash ∧
      ∀ p, hash = some p → 0 ≤ p ∧ p + csSize ≤ b.size := by
  have hcd : cd + sizeofCodeDirectory ≤ b.size := (Nat.add_le_add_left h.header cd).trans hlength
  unfold findSpecialSlot
  rw [loadField_eq hcd, ok_bind]
  split
  · exact ⟨none, rfl, nofun⟩
  rw [loadField_eq hcd, ok_bind]
  refine ⟨_, rfl, fun p hp => ?_⟩
  cases hp
  have hcode := h.code
  have hlow : csSize * slot ≤ field b cd .hashOffset :=
    (Nat.mul_le_mul_left csSize (by omega)).trans h.special
  have hhigh : csSize ≤ csSize * slot := Nat.le_mul_of_pos_right csSize (by omega)
  constructor <;> omega

theorem Accepted.findBlobBytes_inside (h : Accepted b r) (type magic : Nat) :
    ∃ blob, findBlobBytes b type magic = .ok blob ∧
      ∀ p, blob = some p → p + sizeofGenericBlob ≤ b.size ∧ p + be32 b (p + 4) ≤ b.size := by
  have hheader := h.header
  have hgeneric : sizeofGenericBlob = 8 := rfl
  have hsuper : sizeofSuperBlob = 12 := rfl
  unfold findBlobBytes
  rw [load32_eq (by omega), ok_bind]
  by_cases hsignature : be32 b 0 = csmagicEmbeddedSignature
  · obtain ⟨hsb, hindex, hentries, -, -⟩ := h.index hsignature
    rw [if_pos hsignature, load32_eq (by omega), ok_bind]
    obtain ⟨found, hfound, -, hsome⟩ := @findBlobFrom_eq b type magic (be32 b 8) 0
      (by rwa [zero_add]) (by rwa [zero_add])
    refine ⟨found, hfound, fun p hp => ?_⟩
    obtain ⟨m, -, hm, -, rfl, -⟩ := hsome p hp
    have hentry := hentries m (by omega)
    exact ⟨hentry.header, hentry.blob⟩
  · have hle := (h.alone hsignature).1
    rw [if_neg hsignature]
    split
    · rw [load32_eq (by omega), ok_bind, if_neg (by omega)]
      refine ⟨_, rfl, fun p hp => ?_⟩
      cases hp
      exact ⟨by omega, by rwa [zero_add]⟩
    · exact ⟨none, rfl, nofun⟩

theorem Accepted.findBlobBytes_reported (h : Accepted b r) {type magic : Nat}
    {reported : Option Nat} (htype : type ≠ csslotCodedirectory)
    (hreported : be32 b 0 = csmagicEmbeddedSignature → Reported b type magic (be32 b 8) reported)
    (halone : be32 b 0 ≠ csmagicEmbeddedSignature → reported = none) :
    findBlobBytes b type magic = .ok reported := by
  have hheader := h.header
  have hgeneric : sizeofGenericBlob = 8 := rfl
  have hsuper : sizeofSuperBlob = 12 := rfl
  unfold findBlobBytes
  rw [load32_eq (by omega), ok_bind]
  by_cases hsignature : be32 b 0 = csmagicEmbeddedSignature
  · obtain ⟨hsb, hindex, hentries, -, -⟩ := h.index hsignature
    rw [if_pos hsignature, load32_eq (by omega), ok_bind]
    exact findBlobFrom_reported hindex hentries (hreported hsignature)
  · rw [if_neg hsignature, if_neg fun hcd => htype hcd.1, halone hsignature]

/-- Validation comes to its end and loads nothing outside of the buffer. If it accepts
the signature, everything that is looked up in it afterwards is inside too. -/
theorem signature_confined (pageShift : Nat) (b : Buffer) :
    Yields Rejects (validateCsblob pageShift b) fun r => ∃ csSize,
      findMd (b.byte (r.cd + hashTypeOffset)).toNat = some csSize ∧ Confined b r csSize := by
  refine validateCsblob_yields.mono fun r h => ?_
  obtain ⟨hlength, csSize, hok⟩ := h.directory
  refine ⟨csSize, hok.hashType, hok.findSpecialSlot_inside hlength, fun page => ?_,
    h.findBlobBytes_inside, fun hne => ?_, fun hversion hne => ?_, ?_, ?_⟩
  · refine ⟨_, hok.hashes_eq hlength, fun p hp => ?_⟩
    exact (validRange_iff.mp (Option.filter_eq_some_iff.mp hp).2).2
  · obtain ⟨q, hle, hlt, hnul⟩ := hok.ident hne
    exact ⟨q, hle, hlt.trans_le hlength, hnul⟩
  · obtain ⟨q, hle, hlt, hnul⟩ := hok.team hversion hne
    exact ⟨q, hle, hlt.trans_le hlength, hnul⟩
  · exact h.findBlobBytes_reported (by decide) (fun hs => (h.index hs).2.2.2.1) fun hs =>
      (h.alone hs).2.1
  · exact h.findBlobBytes_reported (by decide) (fun hs => (h.index hs).2.2.2.2) fun hs =>
      (h.alone hs).2.2

end XnuXzs.CodeSign
