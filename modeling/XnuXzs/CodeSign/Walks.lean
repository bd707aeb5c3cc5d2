import XnuXzs.CodeSign.Validated

/-!
# Walks over an accepted signature

The index that validation has gone through is gone through again to find a blob, and
the code directory that it has reported is asked for hashes. All of it stays inside
the buffer.
-/

namespace XnuXzs.CodeSign

open Lib

variable {b : Buffer} {pageShift cd length csSize type magic n left subBlob subLength : Nat}
  {reported : Option Nat} {found : Found}

def indexType (b : Buffer) (n : Nat) : Nat := be32 b (indexAddress n)

def indexOffset (b : Buffer) (n : Nat) : Nat := be32 b (indexAddress n + 4)

structure EntryOk (b : Buffer) (length n : Nat) : Prop where
  header : indexOffset b n + sizeofGenericBlob ≤ length
  blob : indexOffset b n + be32 b (indexOffset b n + 4) ≤ length

variable (b) in
/-- What is reported for a slot is the one blob that the slot has among the first `n`
entries. -/
structure Reported (type magic n : Nat) (reported : Option Nat) : Prop where
  absent : reported = none → ∀ m < n, indexType b m ≠ type
  present : ∀ p, reported = some p → ∃ m < n, indexType b m = type ∧ indexOffset b m = p ∧
    be32 b p = magic ∧ ∀ k < n, indexType b k = type → k = m

theorem Reported.skip (h : Reported b type magic n reported) (hn : indexType b n ≠ type) :
    Reported b type magic (n + 1) reported := by
  refine ⟨fun hnone m hm => ?_, fun p hp => ?_⟩
  · rcases Nat.lt_succ_iff_lt_or_eq.mp hm with hlt | rfl
    · exact h.absent hnone m hlt
    · exact hn
  obtain ⟨m, hm, htype, hoffset, hmagic, honly⟩ := h.present p hp
  refine ⟨m, Nat.lt_succ_of_lt hm, htype, hoffset, hmagic, fun k hk hkt => ?_⟩
  rcases Nat.lt_succ_iff_lt_or_eq.mp hk with hlt | rfl
  · exact honly k hlt hkt
  · exact absurd hkt hn

theorem Reported.add (h : Reported b type magic n none) (hn : indexType b n = type)
    (hmagic : be32 b (indexOffset b n) = magic) :
    Reported b type magic (n + 1) (some (indexOffset b n)) := by
  refine ⟨nofun, fun p hp => ?_⟩
  cases hp
  refine ⟨n, Nat.lt_succ_self n, hn, rfl, hmagic, fun k hk hkt => ?_⟩
  rcases Nat.lt_succ_iff_lt_or_eq.mp hk with hlt | rfl
  · exact absurd hkt (h.absent rfl k hlt)
  · rfl

theorem indexAddress_fits {size : Nat} (hindex : indexAddress (n + (left + 1)) ≤ size) :
    indexAddress n + sizeofBlobIndex ≤ size := by
  have hsize : sizeofBlobIndex = 8 := rfl
  unfold indexAddress at hindex ⊢
  rw [hsize] at hindex ⊢
  omega

theorem validateBlob_yields {blob : Nat} (hfits : blob + length ≤ b.size) :
    Yields Rejects (validateBlob b blob length) fun blobLength =>
      blobLength = be32 b (blob + 4) ∧ sizeofGenericBlob ≤ length ∧ be32 b (blob + 4) ≤ length := by
  have hsize : sizeofGenericBlob = 8 := rfl
  refine yields_reject.bind fun _ hheader => ?_
  apply (yields_load32 (by omega)).bind
  rintro blobLength rfl
  refine yields_reject.bind fun _ hle => ?_
  exact ⟨rfl, by omega, by omega⟩

theorem foundOnce_yields {before : Option Nat} (hfits : subBlob + 4 ≤ b.size) :
    Yields Rejects (foundOnce b magic subBlob before) fun found =>
      before = none ∧ be32 b subBlob = magic ∧ found = some subBlob := by
  apply (yields_load32 hfits).bind
  rintro subMagic rfl
  refine yields_reject.bind fun _ hmagic => ?_
  refine yields_reject.bind fun _ hbefore => ?_
  exact ⟨not_not.mp hbefore, not_not.mp hmagic, rfl⟩

structure Checked (b : Buffer) (type subBlob subLength : Nat) (found found' : Found) : Prop where
  cd : found'.cd = found.cd ∨
    found'.cd = some subBlob ∧ ∃ csSize, DirectoryOk b subBlob subLength csSize
  entitlements : type ≠ csslotEntitlements ∧ found'.entitlements = found.entitlements ∨
    type = csslotEntitlements ∧ found.entitlements = none ∧
      be32 b subBlob = csmagicEmbeddedEntitlements ∧ found'.entitlements = some subBlob
  derEntitlements : type ≠ csslotDerEntitlements ∧ found'.derEntitlements = found.derEntitlements ∨
    type = csslotDerEntitlements ∧ found.derEntitlements = none ∧
      be32 b subBlob = csmagicEmbeddedDerEntitlements ∧ found'.derEntitlements = some subBlob

theorem foundDirectory_yields (hfits : subBlob + subLength ≤ b.size) :
    Yields Rejects (foundDirectory pageShift b subBlob subLength found) fun found' =>
      (found'.cd = found.cd ∨ found'.cd = some subBlob ∧
        ∃ csSize, DirectoryOk b subBlob subLength csSize) ∧
      found'.entitlements = found.entitlements ∧
        found'.derEntitlements = found.derEntitlements := by
  apply (validateCodedirectory_yields hfits).bind
  rintro _ ⟨csSize, hok⟩
  have hheader := hok.header
  have hsize : sizeofCodeDirectory = 112 := rfl
  have htype : hashTypeOffset = 37 := rfl
  refine (yields_load8 (by omega)).bind fun hashType _ => ?_
  split
  · exact ⟨.inr ⟨rfl, csSize, hok⟩, rfl, rfl⟩
  · refine yields_reject.bind fun _ _ => ?_
    exact ⟨.inl rfl, rfl, rfl⟩

theorem isDirectory_ne (h : isDirectory type = true) :
    type ≠ csslotEntitlements ∧ type ≠ csslotDerEntitlements := by
  constructor
  · rintro rfl
    exact absurd h (by decide)
  · rintro rfl
    exact absurd h (by decide)

theorem checkBlob_yields (hfits : subBlob + subLength ≤ b.size) (hheader : subBlob + 4 ≤ b.size) :
    Yields Rejects (checkBlob pageShift b type subBlob subLength found)
      (Checked b type subBlob subLength found) := by
  -- a constraint is looked at in one slot and kept nowhere else
  have hother : ∀ {magic : Nat} {before : Option Nat} {f : Option Nat → Found}
      (_ : ∀ e, Checked b type subBlob subLength found (f e)),
      Yields Rejects ((foundOnce b magic subBlob before) >>= fun e => .ok (f e))
        (Checked b type subBlob subLength found) := fun hf =>
    (foundOnce_yields hheader).bind fun e _ => hf e
  unfold checkBlob
  split
  · rename_i hdir
    obtain ⟨hent, hder⟩ := isDirectory_ne hdir
    apply (foundDirectory_yields hfits).mono
    rintro found' ⟨hcd, he, hd⟩
    exact ⟨hcd, .inl ⟨hent, he⟩, .inl ⟨hder, hd⟩⟩
  split
  · rename_i hent
    apply (foundOnce_yields hheader).bind
    rintro _ ⟨hnone, hmagic, rfl⟩
    exact ⟨.inl rfl, .inr ⟨hent, hnone, hmagic, rfl⟩, .inl ⟨by rw [hent]; decide, rfl⟩⟩
  rename_i hent
  split
  · rename_i hder
    apply (foundOnce_yields hheader).bind
    rintro _ ⟨hnone, hmagic, rfl⟩
    exact ⟨.inl rfl, .inl ⟨hent, rfl⟩, .inr ⟨hder, hnone, hmagic, rfl⟩⟩
  rename_i hder
  have hsame : ∀ found' : Found, found'.cd = found.cd → found'.entitlements = found.entitlements →
      found'.derEntitlements = found.derEntitlements →
        Checked b type subBlob subLength found found' :=
    fun _ hcd he hd => ⟨.inl hcd, .inl ⟨hent, he⟩, .inl ⟨hder, hd⟩⟩
  split
  · exact hother fun e => hsame _ rfl rfl rfl
  split
  · exact hother fun e => hsame _ rfl rfl rfl
  split
  · exact hother fun e => hsame _ rfl rfl rfl
  split
  · exact hother fun e => hsame _ rfl rfl rfl
  exact hsame found rfl rfl rfl

/-- What is known of the first `n` entries. -/
structure FoundInv (b : Buffer) (length n : Nat) (found : Found) : Prop where
  entries : ∀ m < n, EntryOk b length m
  cd : ∀ p, found.cd = some p → p + be32 b (p + 4) ≤ length ∧
    ∃ csSize, DirectoryOk b p (be32 b (p + 4)) csSize
  entitlements : Reported b csslotEntitlements csmagicEmbeddedEntitlements n found.entitlements
  derEntitlements : Reported b csslotDerEntitlements csmagicEmbeddedDerEntitlements
    n found.derEntitlements

theorem checkIndex_yields (hlength : length ≤ b.size)
    (hindex : indexAddress n + sizeofBlobIndex ≤ length) (hinv : FoundInv b length n found) :
    Yields Rejects (checkIndex pageShift b length n found) (FoundInv b length (n + 1)) := by
  have hsize : sizeofBlobIndex = 8 := rfl
  have hblob : sizeofGenericBlob = 8 := rfl
  refine (yields_load32 (by omega)).bind fun type htype => ?_
  obtain rfl : type = indexType b n := htype
  refine (yields_load32 (by omega)).bind fun offset hload => ?_
  obtain rfl : offset = indexOffset b n := hload
  refine yields_reject.bind fun _ hoffset => ?_
  apply (validateBlob_yields (by omega)).bind
  rintro subLength ⟨rfl, hheader, hle⟩
  refine (checkBlob_yields (by omega) (by omega)).mono fun found' hchecked => ?_
  refine ⟨fun m hm => ?_, fun p hp => ?_, ?_, ?_⟩
  · rcases Nat.lt_succ_iff_lt_or_eq.mp hm with hlt | rfl
    · exact hinv.entries m hlt
    · exact ⟨by omega, by omega⟩
  · rcases hchecked.cd with hsame | ⟨hnew, hok⟩
    · exact hinv.cd p (hsame ▸ hp)
    · obtain rfl := Option.some.inj (hnew.symm.trans hp)
      exact ⟨by omega, hok⟩
  · rcases hchecked.entitlements with ⟨hne, hsame⟩ | ⟨htype, hnone, hmagic, hnew⟩
    · rw [hsame]
      exact hinv.entitlements.skip hne
    · rw [hnew]
      exact (hnone ▸ hinv.entitlements).add htype hmagic
  · rcases hchecked.derEntitlements with ⟨hne, hsame⟩ | ⟨htype, hnone, hmagic, hnew⟩
    · rw [hsame]
      exact hinv.derEntitlements.skip hne
    · rw [hnew]
      exact (hnone ▸ hinv.derEntitlements).add htype hmagic

theorem checkIndexes_yields (hlength : length ≤ b.size)
    (hindex : indexAddress (n + left) ≤ length) (hinv : FoundInv b length n found) :
    Yields Rejects (checkIndexes pageShift b length left n found)
      (FoundInv b length (n + left)) := by
  induction left generalizing n found with
  | zero => exact hinv
  | succ left ih =>
    refine (checkIndex_yields hlength (indexAddress_fits hindex) hinv).bind fun found' hinv' => ?_
    have hrest := ih (n := n + 1) (by rwa [add_right_comm, add_assoc]) hinv'
    rwa [add_right_comm, add_assoc] at hrest

/-- What is known of a signature when it has been accepted. -/
structure Accepted (b : Buffer) (r : Csblob) : Prop where
  header : sizeofGenericBlob ≤ b.size
  directory : r.cd + be32 b (r.cd + 4) ≤ b.size ∧
    ∃ csSize, DirectoryOk b r.cd (be32 b (r.cd + 4)) csSize
  index : be32 b 0 = csmagicEmbeddedSignature →
    sizeofSuperBlob ≤ b.size ∧ indexAddress (be32 b 8) ≤ b.size ∧
      (∀ m < be32 b 8, EntryOk b b.size m) ∧
      Reported b csslotEntitlements csmagicEmbeddedEntitlements (be32 b 8) r.entitlements ∧
      Reported b csslotDerEntitlements csmagicEmbeddedDerEntitlements (be32 b 8) r.derEntitlements
  alone : be32 b 0 ≠ csmagicEmbeddedSignature → be32 b 4 ≤ b.size ∧ r.entitlements = none ∧
    r.derEntitlements = none

theorem validateCsblob_yields : Yields Rejects (validateCsblob pageShift b) (Accepted b) := by
  have hsuper : sizeofSuperBlob = 12 := rfl
  have hgeneric : sizeofGenericBlob = 8 := rfl
  apply (validateBlob_yields (by omega)).bind
  rintro length ⟨rfl, hheader, hle⟩
  rw [zero_add] at hle ⊢
  apply (yields_load32 (by omega)).bind
  rintro magic rfl
  split
  · rename_i hsignature
    refine yields_reject.bind fun _ hlength => ?_
    apply (yields_load32 (by omega)).bind
    rintro count rfl
    refine yields_reject.bind fun _ hcount => ?_
    have hindex : indexAddress (be32 b 8) ≤ be32 b 4 := by
      have hmul := Nat.mul_le_of_le_div _ _ _ (Nat.le_of_not_lt hcount)
      unfold indexAddress
      omega
    have hstart : FoundInv b (be32 b 4) 0 .nothing :=
      ⟨by simp, by simp [Found.nothing], ⟨by simp, by simp [Found.nothing]⟩,
        ⟨by simp, by simp [Found.nothing]⟩⟩
    refine (checkIndexes_yields hle (by rwa [zero_add]) hstart).bind fun found hinv => ?_
    rw [zero_add] at hinv
    cases hcd : found.cd with
    | none => rfl
    | some cd =>
      obtain ⟨hfits, hok⟩ := hinv.cd cd hcd
      refine ⟨hheader, ⟨hfits.trans hle, hok⟩, fun _ => ⟨by omega, hindex.trans hle, fun m hm => ?_,
        hinv.entitlements, hinv.derEntitlements⟩, absurd hsignature⟩
      have hentry := hinv.entries m hm
      exact ⟨hentry.header.trans hle, hentry.blob.trans hle⟩
  · rename_i hsignature
    split
    · refine (validateCodedirectory_yields (by omega)).bind fun _ hok => ?_
      refine ⟨hheader, ⟨?_, ?_⟩, fun h => absurd h hsignature, fun _ => ⟨hle, rfl, rfl⟩⟩
      · rwa [zero_add, zero_add]
      · rwa [zero_add]
    · rfl

variable (b) in
/-- An entry of the index that is looked for. -/
def Matches (type magic m : Nat) : Prop :=
  indexType b m = type ∧ be32 b (indexOffset b m) = magic

theorem findBlobFrom_eq {type magic left n : Nat} (hindex : indexAddress (n + left) ≤ b.size)
    (hentries : ∀ m < n + left, EntryOk b b.size m) :
    ∃ found, findBlobFrom b type magic left n = .ok found ∧
      (found = none → ∀ m, n ≤ m → m < n + left → ¬ Matches b type magic m) ∧
      ∀ p, found = some p → ∃ m, n ≤ m ∧ m < n + left ∧ Matches b type magic m ∧
        indexOffset b m = p ∧
        ∀ k, n ≤ k → k < m → ¬ Matches b type magic k := by
  have hindexSize : sizeofBlobIndex = 8 := rfl
  have hgeneric : sizeofGenericBlob = 8 := rfl
  induction left generalizing n with
  | zero => exact ⟨none, rfl, fun _ m hle hlt => by omega, nofun⟩
  | succ left ih =>
    have haddress := indexAddress_fits hindex
    obtain ⟨hheader, hblob⟩ := hentries n (by omega)
    obtain ⟨found, hrest, hnone, hsome⟩ := @ih (n + 1) (by rwa [add_right_comm])
      fun m hm => hentries m (by omega)
    have htype : load32 b (indexAddress n) = .ok (indexType b n) := load32_eq (by omega)
    have hoffset : load32 b (indexAddress n + 4) = .ok (indexOffset b n) := load32_eq (by omega)
    have hbound : ¬ (u64 ((b.size : Int) - sizeofGenericBlob)).toNat < indexOffset b n := by
      have hcast : (b.size : Int) - sizeofGenericBlob = ((b.size - 8 : Nat) : Int) := by omega
      rw [hcast, u64_toNat (by have := b.size_lt; omega)]
      omega
    unfold findBlobFrom
    rw [htype, ok_bind]
    by_cases hmatch : Matches b type magic n
    · obtain ⟨hmt, hmm⟩ := hmatch
      refine ⟨some (indexOffset b n), ?_, nofun, fun p hp => ?_⟩
      · rw [if_neg (not_not.mpr hmt), hoffset, ok_bind, if_neg hbound,
          load32_eq (by omega), ok_bind,
          if_neg (not_not.mpr hmm), load32_eq (by omega), ok_bind, if_neg (by omega)]
      · cases hp
        exact ⟨n, le_rfl, by omega, ⟨hmt, hmm⟩, rfl, fun k hle hlt => by omega⟩
    · refine ⟨found, ?_, fun hfound m hle hlt => ?_, fun p hp => ?_⟩
      · by_cases hmt : indexType b n = type
        · rw [if_neg (not_not.mpr hmt), hoffset, ok_bind, if_neg hbound,
            load32_eq (by omega), ok_bind,
            if_pos fun hmm => hmatch ⟨hmt, hmm⟩]
          exact hrest
        · rw [if_pos hmt]
          exact hrest
      · rcases eq_or_lt_of_le hle with rfl | hlt'
        · exact hmatch
        · exact hnone hfound m hlt' (by omega)
      · obtain ⟨m, hle, hlt, hm, hp, hfirst⟩ := hsome p hp
        refine ⟨m, by omega, by omega, hm, hp, fun k hk hkm => ?_⟩
        rcases eq_or_lt_of_le hk with rfl | hlt'
        · exact hmatch
        · exact hfirst k hlt' hkm

theorem findBlobFrom_reported {count : Nat} (hindex : indexAddress count ≤ b.size)
    (hentries : ∀ m < count, EntryOk b b.size m)
    (hreported : Reported b type magic count reported) :
    findBlobFrom b type magic count 0 = .ok reported := by
  obtain ⟨found, hfound, hnone, hsome⟩ := @findBlobFrom_eq b type magic count 0
    (by rwa [zero_add]) (by rwa [zero_add])
  rw [hfound]
  congr 1
  cases found with
  | none =>
    cases reported with
    | none => rfl
    | some p =>
      obtain ⟨m, hm, htype, hoffset, hmagic, -⟩ := hreported.present p rfl
      exact absurd ⟨htype, hoffset ▸ hmagic⟩ (hnone rfl m (Nat.zero_le m) (by omega))
  | some p =>
    obtain ⟨m, -, hm, ⟨htype, -⟩, hoffset, -⟩ := hsome p rfl
    cases reported with
    | none => exact absurd htype (hreported.absent rfl m (by omega))
    | some q =>
      obtain ⟨m', -, -, hoffset', -, honly⟩ := hreported.present q rfl
      rw [← hoffset, ← hoffset', honly m (by omega) htype]

end XnuXzs.CodeSign
