import XnuXzs.CodeSign.Blob

/-!
# What validation has checked

Validation never loads outside of the buffer, whatever the buffer is, and what it
accepts has its slots, scatter list and strings inside.
-/

namespace XnuXzs.CodeSign

open Lib

variable {b : Buffer} {pageShift cd length p : Nat}

theorem be32_lt (b : Buffer) (p : Nat) : be32 b p < 2 ^ 32 := by
  have hlt := leValue_lt (bytesAt b.byte p 4).reverse
  rwa [List.length_reverse, bytesAt_length] at hlt

theorem load32_eq (hp : p + 4 ≤ b.size) : load32 b p = .ok (be32 b p) := if_pos hp

theorem load8_eq (hp : p + 1 ≤ b.size) : load8 b p = .ok (b.byte p).toNat := if_pos hp

def field (b : Buffer) (cd : Nat) (f : Field) : Nat := be32 b (cd + f.offset)

theorem loadField_eq (hcd : cd + sizeofCodeDirectory ≤ b.size) (f : Field) :
    loadField b cd f = .ok (field b cd f) := by
  apply load32_eq
  have hsize : sizeofCodeDirectory = 112 := rfl
  cases f <;> dsimp only [Field.offset] <;> omega

/-- An error of a validator that is expected. -/
abbrev Rejects (e : Stop) : Prop := e = .rejected

theorem yields_load32 (hp : p + 4 ≤ b.size) : Yields Rejects (load32 b p) (· = be32 b p) :=
  yields_eq (load32_eq hp)

theorem yields_load8 (hp : p + 1 ≤ b.size) : Yields Rejects (load8 b p) (· = (b.byte p).toNat) :=
  yields_eq (load8_eq hp)

theorem yields_field (hcd : cd + sizeofCodeDirectory ≤ b.size) (f : Field) :
    Yields Rejects (loadField b cd f) (· = field b cd f) :=
  yields_eq (loadField_eq hcd f)

theorem yields_reject {bad : Prop} [Decidable bad] :
    Yields Rejects (rejectIf Stop.rejected bad) fun _ => ¬ bad :=
  yields_rejectIf (show Rejects .rejected from rfl)

/-- An element of a scatter list: pages from `base` on. -/
structure Element where
  base : Nat
  count : Nat
  deriving DecidableEq

/-- The elements at an address, up to the one whose count is 0. -/
def Scatters (b : Buffer) (limit : Nat) : Nat → List Element → Prop
  | p, [] => p + sizeofScatter ≤ limit ∧ be32 b p = 0
  | p, e :: els => p + sizeofScatter ≤ limit ∧ be32 b p = e.count ∧ be32 b (p + 4) = e.base ∧
      e.count ≠ 0 ∧ Scatters b limit (p + sizeofScatter) els

/-- The number of slots that the elements use. -/
def slots (els : List Element) : Nat := (els.map Element.count).sum

theorem slots_cons (e : Element) (els : List Element) :
    slots (e :: els) = e.count + slots els := rfl

theorem validateScatter_yields {limit fuel scatter nPages : Nat} (hlimit : limit ≤ b.size)
    (hle : scatter ≤ limit) (hfuel : limit < scatter + fuel) (hpages : nPages < 2 ^ 32) :
    Yields Rejects (validateScatter b limit fuel scatter nPages) fun _ =>
      ∃ els, Scatters b limit scatter els ∧ nPages + slots els < 2 ^ 32 := by
  have hsize : sizeofScatter = 24 := rfl
  induction fuel generalizing scatter nPages with
  | zero => omega
  | succ fuel ih =>
    unfold validateScatter
    refine yields_reject.bind fun _ hend => ?_
    have hend := Nat.le_of_not_lt hend
    apply (yields_load32 (by omega)).bind
    rintro scount rfl
    split
    · rename_i hzero
      exact ⟨[], ⟨hend, hzero⟩, hpages⟩
    rename_i hzero
    refine yields_reject.bind fun _ hwrap => ?_
    have hcount := be32_lt b scatter
    -- the sum does not wrap, since it is not less than before
    have hsum : nPages + be32 b scatter < 2 ^ 32 := by
      by_contra hge
      omega
    rw [Nat.mod_eq_of_lt hsum]
    apply (ih hend (by omega) hsum).mono
    rintro _ ⟨els, hels, htotal⟩
    refine ⟨⟨be32 b (scatter + 4), be32 b scatter⟩ :: els, ⟨hend, rfl, rfl, hzero, hels⟩, ?_⟩
    rw [slots_cons]
    dsimp only
    omega

theorem memchr_yields {n : Nat} (hn : p + n ≤ b.size) :
    Yields Rejects (memchr b p n) fun nul => ∀ q, nul = some q →
      p ≤ q ∧ q < p + n ∧ b.byte q = 0 := by
  induction n generalizing p with
  | zero => exact nofun
  | succ n ih =>
    unfold memchr
    apply (yields_load8 (by omega)).bind
    rintro c rfl
    split
    · rename_i hzero
      rintro q hq
      cases hq
      exact ⟨le_rfl, by omega, UInt8.toNat_inj.mp hzero⟩
    refine (ih (by omega)).mono fun nul hnul q hq => ?_
    obtain ⟨hle, hlt, hbyte⟩ := hnul q hq
    exact ⟨by omega, by omega, hbyte⟩

variable (b) in
/-- There is a NUL between the two addresses. -/
def Terminated (start stop : Nat) : Prop := ∃ q, start ≤ q ∧ q < stop ∧ b.byte q = 0

theorem validateString_yields {offset : Nat} (hcd : cd + length ≤ b.size)
    (hoffset : offset ≤ length) :
    Yields Rejects (validateString b cd length offset) fun _ =>
      Terminated b (cd + offset) (cd + length) := by
  unfold validateString
  refine (memchr_yields (by omega)).bind fun nul hnul => ?_
  refine yields_reject.mono fun _ hsome => ?_
  obtain ⟨q, rfl⟩ := Option.ne_none_iff_exists'.mp hsome
  obtain ⟨hle, hlt, hbyte⟩ := hnul q rfl
  exact ⟨q, hle, by omega, hbyte⟩

variable (b cd) in
def HasScatter : Prop := supportsScatter ≤ field b cd .version ∧ field b cd .scatterOffset ≠ 0

instance : Decidable (HasScatter b cd) := inferInstanceAs (Decidable (_ ∧ _))

structure DirectoryOk (b : Buffer) (cd length csSize : Nat) : Prop where
  header : sizeofCodeDirectory ≤ length
  hashType : findMd (b.byte (cd + hashTypeOffset)).toNat = some csSize
  special : csSize * field b cd .nSpecialSlots ≤ field b cd .hashOffset
  code : field b cd .hashOffset + field b cd .nCodeSlots * csSize ≤ length
  scatter : HasScatter b cd → ∃ els, Scatters b (cd + length) (cd + field b cd .scatterOffset) els ∧
    slots els < 2 ^ 32
  ident : field b cd .identOffset ≠ 0 → Terminated b (cd + field b cd .identOffset) (cd + length)
  team : supportsTeamid ≤ field b cd .version → field b cd .teamOffset ≠ 0 →
    Terminated b (cd + field b cd .teamOffset) (cd + length)

theorem findMd_pos {type csSize : Nat} (h : findMd type = some csSize) : 0 < csSize := by
  unfold findMd at h
  split at h <;> simp_all <;> omega

section

variable (hcd : cd + length ≤ b.size)
include hcd

theorem validateScatters_yields {version scatterOffset : Nat} :
    Yields Rejects (validateScatters b cd length version scatterOffset) fun _ =>
      supportsScatter ≤ version ∧ scatterOffset ≠ 0 →
        ∃ els, Scatters b (cd + length) (cd + scatterOffset) els ∧ slots els < 2 ^ 32 := by
  unfold validateScatters
  split
  · refine yields_reject.bind fun _ hle => ?_
    apply (validateScatter_yields hcd (by omega) (by omega) (by omega)).mono
    rintro _ ⟨els, hels, hslots⟩ -
    exact ⟨els, hels, by omega⟩
  · exact fun h => absurd h ‹_›

theorem validateIdent_yields {identOffset : Nat} :
    Yields Rejects (validateIdent b cd length identOffset) fun _ =>
      identOffset ≠ 0 → Terminated b (cd + identOffset) (cd + length) := by
  unfold validateIdent
  refine yields_reject.bind fun _ hle => ?_
  split
  · exact (validateString_yields hcd (Nat.le_of_not_lt hle)).mono fun _ hnul _ => hnul
  · exact fun h => absurd h ‹_›

theorem validateTeam_yields {version teamOffset : Nat} :
    Yields Rejects (validateTeam b cd length version teamOffset) fun _ =>
      supportsTeamid ≤ version ∧ teamOffset ≠ 0 → Terminated b (cd + teamOffset) (cd + length) := by
  unfold validateTeam
  split
  · refine yields_reject.bind fun _ hle => ?_
    exact (validateString_yields hcd (Nat.le_of_not_lt hle)).mono fun _ hnul _ => hnul
  · exact fun h => absurd h ‹_›

theorem validateCodedirectory_yields :
    Yields Rejects (validateCodedirectory pageShift b cd length) fun _ =>
      ∃ csSize, DirectoryOk b cd length csSize := by
  unfold validateCodedirectory
  refine yields_reject.bind fun _ hheader => ?_
  have hheader := Nat.le_of_not_lt hheader
  have hfits : cd + sizeofCodeDirectory ≤ b.size := by omega
  have hbyte : ∀ {o}, o < 112 → cd + o + 1 ≤ b.size := by
    intro o ho
    have hsize : sizeofCodeDirectory = 112 := rfl
    omega
  refine (yields_field hfits .magic).bind fun magic _ => ?_
  refine yields_reject.bind fun _ _ => ?_
  refine (yields_load8 (hbyte (by decide))).bind fun pageSize _ => ?_
  refine yields_reject.bind fun _ _ => ?_
  apply (yields_load8 (hbyte (by decide))).bind
  rintro hashType rfl
  cases hmd : findMd (b.byte (cd + hashTypeOffset)).toNat with
  | none => rfl
  | some csSize =>
    refine (yields_load8 (hbyte (by decide))).bind fun hashSize _ => ?_
    refine yields_reject.bind fun _ _ => ?_
    apply (yields_field hfits .hashOffset).bind
    rintro hashOffset rfl
    refine yields_reject.bind fun _ hoffset => ?_
    apply (yields_field hfits .nSpecialSlots).bind
    rintro nSpecialSlots rfl
    refine yields_reject.bind fun _ hspecial => ?_
    apply (yields_field hfits .nCodeSlots).bind
    rintro nCodeSlots rfl
    refine yields_reject.bind fun _ hcode => ?_
    apply (yields_field hfits .version).bind
    rintro version rfl
    apply (yields_field hfits .scatterOffset).bind
    rintro scatterOffset rfl
    refine (validateScatters_yields hcd).bind fun _ hscatter => ?_
    apply (yields_field hfits .identOffset).bind
    rintro identOffset rfl
    refine (validateIdent_yields hcd).bind fun _ hident => ?_
    apply (yields_field hfits .teamOffset).bind
    rintro teamOffset rfl
    refine (validateTeam_yields hcd).bind fun _ hteam => ?_
    refine (yields_load8 (hbyte (by decide))).bind fun linkageHashType _ => ?_
    refine (yields_field hfits .linkageOffset).bind fun linkageOffset _ => ?_
    refine (yields_field hfits .linkageSize).bind fun linkageSize _ => ?_
    refine yields_reject.mono fun _ _ => ⟨csSize, hheader, hmd, ?_, ?_, hscatter, hident,
      fun hversion hne => hteam ⟨hversion, hne⟩⟩
    · exact Nat.mul_le_of_le_div _ _ _ (Nat.le_of_not_lt hspecial) |> (mul_comm csSize _ ▸ ·)
    · have hmul := Nat.mul_le_of_le_div _ _ _ (Nat.le_of_not_lt hcode)
      omega

end

end XnuXzs.CodeSign
