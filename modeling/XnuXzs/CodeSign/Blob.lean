import XnuXzs.Lib.Guard
import XnuXzs.Lib.Machine
import XnuXzs.Lib.Memory

/-!
# Code signatures

A signature is a super blob with an index of other blobs, or a code directory alone. It is
checked once and then read. A load outside of the buffer is an outcome of its own.
-/

namespace XnuXzs.CodeSign

open Lib

inductive Stop where
  /-- `EBADEXEC` -/
  | rejected
  /-- A load outside of the buffer. -/
  | outside
  /-- A loop has not come to its end. -/
  | running
  deriving DecidableEq

/-- A buffer whose size is a `size_t`. -/
structure Buffer where
  size : Nat
  byte : Nat → UInt8
  size_lt : size < 2 ^ 64

def be32 (b : Buffer) (p : Nat) : Nat := leValue (bytesAt b.byte p 4).reverse

def load8 (b : Buffer) (p : Nat) : Except Stop Nat :=
  if p + 1 ≤ b.size then .ok (b.byte p).toNat else .error .outside

/-- `ntohl` of a field -/
def load32 (b : Buffer) (p : Nat) : Except Stop Nat :=
  if p + 4 ≤ b.size then .ok (be32 b p) else .error .outside

def memchr (b : Buffer) : Nat → Nat → Except Stop (Option Nat)
  | _, 0 => .ok none
  | p, n + 1 => do
    let c ← load8 b p
    if c = 0 then .ok (some p) else memchr b (p + 1) n

def csmagicCodedirectory : Nat := 0xfade0c02
def csmagicEmbeddedSignature : Nat := 0xfade0cc0
def csmagicEmbeddedEntitlements : Nat := 0xfade7171
def csmagicEmbeddedDerEntitlements : Nat := 0xfade7172
def csmagicEmbeddedLaunchConstraint : Nat := 0xfade8181

def csslotCodedirectory : Nat := 0
def csslotEntitlements : Nat := 5
def csslotDerEntitlements : Nat := 7
def csslotLaunchConstraintSelf : Nat := 8
def csslotLaunchConstraintParent : Nat := 9
def csslotLaunchConstraintResponsible : Nat := 10
def csslotLibraryConstraint : Nat := 11
def csslotAlternateCodedirectories : Nat := 0x1000
def csslotAlternateCodedirectoryLimit : Nat := csslotAlternateCodedirectories + 5

def supportsScatter : Nat := 0x20100
def supportsTeamid : Nat := 0x20200
def supportsLinkage : Nat := 0x20600

def sizeofCodeDirectory : Nat := 112
def sizeofGenericBlob : Nat := 8
def sizeofSuperBlob : Nat := 12
def sizeofBlobIndex : Nat := 8
def sizeofScatter : Nat := 24

/-- The offsets of the fields of a `CS_CodeDirectory`. -/
inductive Field where
  | magic | length | version | hashOffset | identOffset | nSpecialSlots | nCodeSlots
  | scatterOffset | teamOffset | linkageOffset | linkageSize

def Field.offset : Field → Nat
  | .magic => 0 | .length => 4 | .version => 8 | .hashOffset => 16 | .identOffset => 20
  | .nSpecialSlots => 24 | .nCodeSlots => 28 | .scatterOffset => 44 | .teamOffset => 48
  | .linkageOffset => 100 | .linkageSize => 104

def hashSizeOffset : Nat := 36
def hashTypeOffset : Nat := 37
def pageSizeOffset : Nat := 39
def linkageHashTypeOffset : Nat := 96

def loadField (b : Buffer) (cd : Nat) (f : Field) : Except Stop Nat := load32 b (cd + f.offset)

/-- `cs_find_md`: the size of the hashes of a type. -/
def findMd : Nat → Option Nat
  | 1 => some 20
  | 2 => some 32
  | 3 => some 20
  | 4 => some 48
  | _ => none

/-- `hash_rank`, from `hashPriorities`. -/
def hashRank : Nat → Nat
  | 1 => 1
  | 3 => 2
  | 2 => 3
  | 4 => 4
  | _ => 0

/-- The loop over the scatter elements, up to one whose count is 0. -/
def validateScatter (b : Buffer) (limit : Nat) : Nat → Nat → Nat → Except Stop Unit
  | 0, _, _ => .error .running
  | fuel + 1, scatter, nPages => do
    rejectIf .rejected (limit < scatter + sizeofScatter)
    let scount ← load32 b scatter
    if scount = 0 then .ok ()
    else do
      rejectIf .rejected ((nPages + scount) % 2 ^ 32 < nPages)
      validateScatter b limit fuel (scatter + sizeofScatter) ((nPages + scount) % 2 ^ 32)

/-- A string at the offset ends before the end of the code directory. -/
def validateString (b : Buffer) (cd length offset : Nat) : Except Stop Unit := do
  let nul ← memchr b (cd + offset) (length - offset)
  rejectIf .rejected (nul = none)

def validateScatters (b : Buffer) (cd length version scatterOffset : Nat) : Except Stop Unit :=
  if supportsScatter ≤ version ∧ scatterOffset ≠ 0 then do
    rejectIf .rejected (length < scatterOffset)
    validateScatter b (cd + length) (length + 1) (cd + scatterOffset) 0
  else .ok ()

def validateIdent (b : Buffer) (cd length identOffset : Nat) : Except Stop Unit := do
  rejectIf .rejected (length < identOffset)
  if identOffset ≠ 0 then validateString b cd length identOffset else .ok ()

def validateTeam (b : Buffer) (cd length version teamOffset : Nat) : Except Stop Unit :=
  if supportsTeamid ≤ version ∧ teamOffset ≠ 0 then do
    rejectIf .rejected (length < teamOffset)
    validateString b cd length teamOffset
  else .ok ()

/-- `cs_validate_codedirectory` of `length` bytes. -/
def validateCodedirectory (pageShift : Nat) (b : Buffer) (cd length : Nat) : Except Stop Unit := do
  rejectIf .rejected (length < sizeofCodeDirectory)
  let magic ← loadField b cd .magic
  rejectIf .rejected (magic ≠ csmagicCodedirectory)
  let pageSize ← load8 b (cd + pageSizeOffset)
  rejectIf .rejected (pageSize ≠ 12 ∧ pageSize ≠ pageShift)
  let hashType ← load8 b (cd + hashTypeOffset)
  match findMd hashType with
  | none => .error .rejected
  | some csSize => do
    let hashSize ← load8 b (cd + hashSizeOffset)
    rejectIf .rejected (hashSize ≠ csSize)
    let hashOffset ← loadField b cd .hashOffset
    rejectIf .rejected (length < hashOffset)
    let nSpecialSlots ← loadField b cd .nSpecialSlots
    rejectIf .rejected (hashOffset / csSize < nSpecialSlots)
    let nCodeSlots ← loadField b cd .nCodeSlots
    rejectIf .rejected ((length - hashOffset) / csSize < nCodeSlots)
    let version ← loadField b cd .version
    let scatterOffset ← loadField b cd .scatterOffset
    validateScatters b cd length version scatterOffset
    let identOffset ← loadField b cd .identOffset
    validateIdent b cd length identOffset
    let teamOffset ← loadField b cd .teamOffset
    validateTeam b cd length version teamOffset
    let linkageHashType ← load8 b (cd + linkageHashTypeOffset)
    let linkageOffset ← loadField b cd .linkageOffset
    let linkageSize ← loadField b cd .linkageSize
    rejectIf .rejected (supportsLinkage ≤ version ∧ linkageHashType ≠ 0 ∧
      cd + length < cd + linkageOffset + linkageSize)

/-- `cs_validate_blob`, and the length of the blob. -/
def validateBlob (b : Buffer) (blob length : Nat) : Except Stop Nat := do
  rejectIf .rejected (length < sizeofGenericBlob)
  let blobLength ← load32 b (blob + 4)
  rejectIf .rejected (length < blobLength)
  .ok blobLength

/-- What has been found in the index so far. -/
structure Found where
  cd : Option Nat
  rank : Nat
  entitlements : Option Nat
  derEntitlements : Option Nat
  selfConstraint : Option Nat
  parentConstraint : Option Nat
  responsibleConstraint : Option Nat
  libraryConstraint : Option Nat

def Found.nothing : Found := ⟨none, 0, none, none, none, none, none, none⟩

/-- A blob of a slot that may be there once. -/
def foundOnce (b : Buffer) (magic subBlob : Nat) (before : Option Nat) :
    Except Stop (Option Nat) := do
  let subMagic ← load32 b subBlob
  rejectIf .rejected (subMagic ≠ magic)
  rejectIf .rejected (before ≠ none)
  .ok (some subBlob)

/-- A code directory takes the place of one of a lower rank; of one rank there may
be one only. -/
def foundDirectory (pageShift : Nat) (b : Buffer) (subBlob subLength : Nat) (found : Found) :
    Except Stop Found := do
  validateCodedirectory pageShift b subBlob subLength
  let hashType ← load8 b (subBlob + hashTypeOffset)
  if found.cd = none ∨ found.rank < hashRank hashType then
    .ok { found with cd := some subBlob, rank := hashRank hashType }
  else do
    rejectIf .rejected (hashRank hashType = found.rank)
    .ok found

def isDirectory (type : Nat) : Bool :=
  type = csslotCodedirectory ||
    csslotAlternateCodedirectories ≤ type && type < csslotAlternateCodedirectoryLimit

/-- The body of the loop over the index, for a blob of the type. -/
def checkBlob (pageShift : Nat) (b : Buffer) (type subBlob subLength : Nat) (found : Found) :
    Except Stop Found :=
  if isDirectory type then foundDirectory pageShift b subBlob subLength found
  else if type = csslotEntitlements then do
    let e ← foundOnce b csmagicEmbeddedEntitlements subBlob found.entitlements
    .ok { found with entitlements := e }
  else if type = csslotDerEntitlements then do
    let e ← foundOnce b csmagicEmbeddedDerEntitlements subBlob found.derEntitlements
    .ok { found with derEntitlements := e }
  else if type = csslotLaunchConstraintSelf then do
    let e ← foundOnce b csmagicEmbeddedLaunchConstraint subBlob found.selfConstraint
    .ok { found with selfConstraint := e }
  else if type = csslotLaunchConstraintParent then do
    let e ← foundOnce b csmagicEmbeddedLaunchConstraint subBlob found.parentConstraint
    .ok { found with parentConstraint := e }
  else if type = csslotLaunchConstraintResponsible then do
    let e ← foundOnce b csmagicEmbeddedLaunchConstraint subBlob found.responsibleConstraint
    .ok { found with responsibleConstraint := e }
  else if type = csslotLibraryConstraint then do
    let e ← foundOnce b csmagicEmbeddedLaunchConstraint subBlob found.libraryConstraint
    .ok { found with libraryConstraint := e }
  else .ok found

def indexAddress (n : Nat) : Nat := sizeofSuperBlob + n * sizeofBlobIndex

def checkIndex (pageShift : Nat) (b : Buffer) (length n : Nat) (found : Found) :
    Except Stop Found := do
  let type ← load32 b (indexAddress n)
  let offset ← load32 b (indexAddress n + 4)
  rejectIf .rejected (length < offset)
  let subLength ← validateBlob b offset (length - offset)
  checkBlob pageShift b type offset subLength found

def checkIndexes (pageShift : Nat) (b : Buffer) (length : Nat) :
    Nat → Nat → Found → Except Stop Found
  | 0, _, found => .ok found
  | left + 1, n, found => do
    let found ← checkIndex pageShift b length n found
    checkIndexes pageShift b length left (n + 1) found

structure Csblob where
  cd : Nat
  entitlements : Option Nat
  derEntitlements : Option Nat

def validateCsblob (pageShift : Nat) (b : Buffer) : Except Stop Csblob := do
  let length ← validateBlob b 0 b.size
  let magic ← load32 b 0
  if magic = csmagicEmbeddedSignature then do
    rejectIf .rejected (length < sizeofSuperBlob)
    let count ← load32 b 8
    rejectIf .rejected ((length - sizeofSuperBlob) / sizeofBlobIndex < count)
    let found ← checkIndexes pageShift b length count 0 .nothing
    match found.cd with
    | none => .error .rejected
    | some cd => .ok ⟨cd, found.entitlements, found.derEntitlements⟩
  else if magic = csmagicCodedirectory then do
    validateCodedirectory pageShift b 0 length
    .ok ⟨0, none, none⟩
  else .error .rejected

/-- The loop of `csblob_find_blob_bytes`. -/
def findBlobFrom (b : Buffer) (type magic : Nat) : Nat → Nat → Except Stop (Option Nat)
  | 0, _ => .ok none
  | left + 1, n => do
    let indexType ← load32 b (indexAddress n)
    if indexType ≠ type then findBlobFrom b type magic left (n + 1)
    else do
      let offset ← load32 b (indexAddress n + 4)
      if (u64 ((b.size : Int) - sizeofGenericBlob)).toNat < offset then .ok none
      else do
        let blobMagic ← load32 b offset
        if blobMagic ≠ magic then findBlobFrom b type magic left (n + 1)
        else do
          let blobLength ← load32 b (offset + 4)
          if b.size < offset + blobLength then findBlobFrom b type magic left (n + 1)
          else .ok (some offset)

def findBlobBytes (b : Buffer) (type magic : Nat) : Except Stop (Option Nat) := do
  let bufferMagic ← load32 b 0
  if bufferMagic = csmagicEmbeddedSignature then do
    let count ← load32 b 8
    findBlobFrom b type magic count 0
  else if type = csslotCodedirectory ∧ bufferMagic = csmagicCodedirectory ∧
      magic = csmagicCodedirectory then do
    let blobLength ← load32 b 4
    if b.size < blobLength then .ok none else .ok (some 0)
  else .ok none

/-- `find_special_slot`: the hashes of the special slots lie before the hash offset. -/
def findSpecialSlot (b : Buffer) (cd slotsize slot : Nat) : Except Stop (Option Int) := do
  let nSpecialSlots ← loadField b cd .nSpecialSlots
  if nSpecialSlots < slot ∨ slot = 0 then .ok none
  else do
    let hashOffset ← loadField b cd .hashOffset
    .ok (some (cd + hashOffset - slotsize * slot))

def validRange (start stop lower upper : Nat) : Bool :=
  !(upper < lower || stop < start) && !(start < lower || upper < stop)

/-- The hash of a page that the search has found an element for. -/
def scatterHash (b : Buffer) (cd page hashLen scount newBase hashindex : Nat) :
    Except Stop (Option Nat) := do
  let hashOffset ← loadField b cd .hashOffset
  let nCodeSlots ← loadField b cd .nCodeSlots
  let base := cd + hashOffset + hashindex * hashLen
  let top := base + scount * hashLen
  if !validRange base top 0 b.size || nCodeSlots < hashindex then .ok none
  else .ok (some (base + (page - newBase) * hashLen))

/-- The loop of `hashes` over the scatter elements. -/
def hashesScatter (b : Buffer) (cd page hashLen : Nat) :
    Nat → Nat → Nat → Nat → Except Stop (Option Nat)
  | 0, _, _, _ => .error .running
  | fuel + 1, scatter, hashindex, sbase => do
    let length ← loadField b cd .length
    if cd + length < scatter then .ok none
    else do
      let scount ← load32 b scatter
      let newBase ← load32 b (scatter + 4)
      if scount = 0 ∨ 0 < hashindex ∧ newBase ≤ sbase ∨ page < newBase then .ok none
      else if page ≤ (newBase + scount) % 2 ^ 32 then
        scatterHash b cd page hashLen scount newBase hashindex
      else
        let next := scatter + sizeofScatter
        hashesScatter b cd page hashLen fuel next ((hashindex + scount) % 2 ^ 32) newBase

/-- The hash of a page without a scatter list. Release kernels do not assert that the page is
less than the number of slots. -/
def hashesPlain (b : Buffer) (cd page hashLen : Nat) : Except Stop (Option Nat) := do
  let nCodeSlots ← loadField b cd .nCodeSlots
  let hashOffset ← loadField b cd .hashOffset
  let base := cd + hashOffset
  let top := base + nCodeSlots * hashLen
  if !validRange base top 0 b.size || nCodeSlots < page then .ok none
  else .ok (some (base + page * hashLen))

/-- `hashes` up to the last check. -/
def hashesFound (b : Buffer) (cd page hashLen version scatterOffset : Nat) :
    Except Stop (Option Nat) :=
  if supportsScatter ≤ version ∧ scatterOffset ≠ 0 then
    hashesScatter b cd page hashLen (b.size + 1) (cd + scatterOffset) 0 0
  else hashesPlain b cd page hashLen

/-- `hashes`, with the bounds of the buffer. -/
def hashes (b : Buffer) (cd page hashLen : Nat) : Except Stop (Option Nat) := do
  let version ← loadField b cd .version
  let scatterOffset ← loadField b cd .scatterOffset
  let hash ← hashesFound b cd page hashLen version scatterOffset
  .ok (hash.filter fun h => validRange h (h + hashLen) 0 b.size)

end XnuXzs.CodeSign
