import XnuXzs.Emmc.Gpt
import XnuXzs.Lib.Guard

/-!
# The block driver

`xzs_bdev_strategy` with its read and write paths. What a call does to the card is the log of
its transfers; the controller answers with any return codes.
-/

namespace XnuXzs.Emmc

open XnuXzs.Lib List

/-- A transfer handed to the controller: CMD17 or CMD18 for `count` sectors, or
CMD24. -/
inductive Access where
  | read (lba count : Nat)
  | write (lba : Nat)
  deriving DecidableEq, Repr

/-- The return codes of the PIO routines, by transfer number. -/
abbrev Controller := Nat → Int

/-- The driver's globals beside the slice map. `sector_count` is a 32-bit register of the card. -/
structure Ctl where
  initialized : Bool
  sectorCount : UInt32
  userdataRw : Bool
  fastMultiblock : Bool

/-- `struct buf` as the driver reads it, with what `buf_map` will answer. -/
structure Request where
  minor : Nat
  isRead : Bool
  blkno : Int
  count : UInt32
  mapErr : Nat
  mapNull : Bool
  blkno_range : -2 ^ 63 ≤ blkno ∧ blkno < 2 ^ 63

/-- A completed request, with the transfers made for it, newest first. -/
structure Done where
  error : Nat
  resid : Nat
  log : List Access

def eio : Nat := 5
def enxio : Nat := 6
def efault : Nat := 14
def einval : Nat := 22
def erofs : Nat := 30

variable (map : Option SliceMap) (ctl : Ctl) (hw : Controller)

/-- A step that returns a code and extends the log. -/
abbrev Step := List Access → Int × List Access

/-- `for (retry = 0; retry < n; retry++)`, up to the first success. -/
def retry (step : Step) : Nat → Int → Step
  | 0, rc, log => (rc, log)
  | n + 1, _, log => if (step log).1 = 0 then step log else retry step n (step log).1 (step log).2

def issue (a : Access) : Step := fun log => (hw log.length, a :: log)

/-- `xzs_emmc_read_sector_sync` and the geometry test of the PIO routine. -/
def readSectorSync (lba : Nat) : Step := fun log =>
  if ctl.initialized = false then (-1, log)
  else if lba ≥ ctl.sectorCount.toNat then (-3, log)
  else if lba > 0xffffffff then (-4, log)
  else if ctl.sectorCount.toNat = 0 ∨ lba ≥ ctl.sectorCount.toNat then (-2, log)
  else issue hw (.read lba 1) log

/-- `xzs_emmc_read_multiblock_pio`; the caller's cast has cut the LBA. -/
def readMultiblockPio (lba count : Nat) : Step := fun log =>
  if count = 0 ∨ count > 128 then (-1, log) else issue hw (.read lba count) log

/-- The `while` loop of `xzs_emmc_read_blocks_sync`. Rounds move `i`, so `count` are enough. -/
def readLoop (start count : Nat) : Nat → Nat → Step
  | 0, _, log => (0, log)
  | fuel + 1, i, log =>
    if i ≥ count then (0, log)
    else
      let rem := count - i
      let chunk := if rem > 128 then 128 else rem
      let multi := readMultiblockPio hw ((start + i) % 2 ^ 32) chunk log
      let tried := ctl.fastMultiblock = true ∧ rem > 1
      if tried ∧ multi.1 = 0 then readLoop start count fuel (i + chunk) multi.2
      else
        let r := retry (readSectorSync ctl hw (start + i)) 3 (-1) (if tried then multi.2 else log)
        if r.1 ≠ 0 then r else readLoop start count fuel (i + 1) r.2

def readBlocksSync (start count : Nat) : Step := fun log =>
  if ctl.initialized = false then (-1, log)
  else if count = 0 then (-3, log)
  else if start ≥ ctl.sectorCount.toNat then (-4, log)
  else if count - 1 > 2 ^ 64 - 1 - start then (-5, log)
  else if start + count - 1 ≥ ctl.sectorCount.toNat then (-6, log)
  else if count > (2 ^ 64 - 1) / 512 then (-7, log)
  else readLoop ctl hw start count count 0 log

/-- `xzs_emmc_write_sector_pio`: the fence around slot 53, then CMD24. -/
def writeSectorPio (lba : Nat) : Step := fun log =>
  match map with
  | none => (-1, log)
  | some map =>
    let ud := map.entries 53
    if ctl.userdataRw = false then (-1, log)
    else if ud.startLba = 0 ∨ lba < ud.startLba.toNat ∨ lba > ud.endLba.toNat then (-2, log)
    else issue hw (.write lba) log

/-- The loop of `xzs_emmc_write_blocks_sync`, `n` sectors from sector `i` on. -/
def writeLoop (start : Nat) : Nat → Nat → Step
  | 0, _, log => (0, log)
  | n + 1, i, log =>
    let r := retry (writeSectorPio map ctl hw ((start + i) % 2 ^ 32)) 3 (-1) log
    if r.1 ≠ 0 then r else writeLoop start n (i + 1) r.2

def writeBlocksSync (start count : Nat) : Step := fun log =>
  if ctl.initialized = false ∨ count = 0 then (-1, log) else writeLoop map ctl hw start count 0 log

def userdataName : List UInt8 := [0x75, 0x73, 0x65, 0x72, 0x64, 0x61, 0x74, 0x61]

def isUserdataMinor (map : Option SliceMap) (m : Nat) : Bool :=
  match map with
  | none => false
  | some map => 0 < m && m ≤ map.usedCount && map.minorToSlot m == 53 &&
    (map.slice m).nameCanonical == userdataName

/-- `m > 0 && (!map_initialized || m > used_count)`. -/
def noSlice (map : Option SliceMap) (m : Nat) : Bool :=
  0 < m && match map with
    | none => true
    | some map => map.usedCount < m

/-- `max_sectors` and `target_start_lba` of a request. -/
def target (map : Option SliceMap) (ctl : Ctl) (bp : Request) : Nat × Nat :=
  if bp.minor = 0 then (ctl.sectorCount.toNat, bp.blkno.toNat)
  else match map with
    | none => (0, 0)
    | some map => ((map.slice bp.minor).sectorCount.toNat,
        ((map.slice bp.minor).startLba.toNat + bp.blkno.toNat) % 2 ^ 64)

/-- The checks of `xzs_bdev_strategy` before the transfer, in its order. -/
def strategyChecks (map : Option SliceMap) (ctl : Ctl) (bp : Request) : Except Nat Unit := do
  let sectors := bp.count.toNat / 512
  let blk := bp.blkno.toNat
  rejectIf enxio (bp.minor > 55)
  rejectIf enxio (noSlice map bp.minor = true)
  rejectIf erofs (bp.isRead = false ∧
    (ctl.userdataRw = false ∨ isUserdataMinor map bp.minor = false))
  rejectIf eio (ctl.initialized = false)
  rejectIf einval (bp.count.toNat = 0 ∨ bp.count.toNat % 512 ≠ 0)
  rejectIf einval (bp.blkno < 0)
  rejectIf einval (blk ≥ (target map ctl bp).1)
  rejectIf einval (sectors - 1 > 2 ^ 64 - 1 - blk)
  rejectIf einval ((blk + sectors) % 2 ^ 64 > (target map ctl bp).1)
  rejectIf einval (((target map ctl bp).2 + sectors) % 2 ^ 64 > ctl.sectorCount.toNat)
  rejectIf bp.mapErr (bp.mapErr ≠ 0)
  rejectIf efault (bp.mapNull = true)

/-- The transfer of a request that passed the checks. -/
def transfer (map : Option SliceMap) (ctl : Ctl) (hw : Controller) (bp : Request) :
    Int × List Access :=
  if bp.isRead then readBlocksSync ctl hw (target map ctl bp).2 (bp.count.toNat / 512) []
  else writeBlocksSync map ctl hw (target map ctl bp).2 (bp.count.toNat / 512) []

/-- `xzs_bdev_strategy`. Every refusal leaves the whole count as residual. -/
def strategy (map : Option SliceMap) (ctl : Ctl) (hw : Controller) (bp : Request) : Done :=
  match strategyChecks map ctl bp with
  | .error e => ⟨e, bp.count.toNat, []⟩
  | .ok () =>
    let r := transfer map ctl hw bp
    if r.1 = 0 then ⟨0, 0, r.2⟩ else ⟨eio, bp.count.toNat, r.2⟩

def Access.sectors : Access → Set Nat
  | .read lba count => Set.Ico lba (lba + count)
  | .write lba => {lba}

/-- The sectors read or written by the transfers of a log. -/
def touched (log : List Access) : Set Nat := {s | ∃ a ∈ log, s ∈ a.sectors}

def written (log : List Access) : Set Nat := {s | Access.write s ∈ log}

def ReadsIn (lo hi : Nat) : Access → Prop
  | .read lba count => lo ≤ lba ∧ lba + count ≤ hi
  | .write _ => False

def WritesTo (target : Set Nat) : Access → Prop
  | .read .. => False
  | .write lba => lba ∈ target

/-- From `log` to `r` only transfers that satisfy `P` were added, and if `r` returns 0 they
touch all of `goal`. -/
def Adds (P : Access → Prop) (goal : Set Nat) (log : List Access) (r : Int × List Access) : Prop :=
  ∃ new, r.2 = new ++ log ∧ (∀ a ∈ new, P a) ∧ (r.1 = 0 → goal ⊆ touched new)

theorem touched_append (a b : List Access) : touched (a ++ b) = touched a ∪ touched b := by
  ext s
  simp [touched, or_and_right, exists_or]

variable {P Q : Access → Prop} {goal goal' : Set Nat} {log : List Access} {r r' : Int × List Access}
  {rc : Int}

theorem Adds.fail (h : rc ≠ 0) : Adds P goal log (rc, log) :=
  ⟨[], rfl, by simp, fun h0 => absurd h0 h⟩

theorem Adds.nothing (rc : Int) : Adds P ∅ log (rc, log) :=
  ⟨[], rfl, by simp, fun _ => Set.empty_subset _⟩

theorem Adds.weaken (h : Adds P goal log r) (hP : ∀ a, P a → Q a) (hg : goal' ⊆ goal) :
    Adds Q goal' log r := by
  obtain ⟨new, hlog, hnew, hgoal⟩ := h
  exact ⟨new, hlog, fun a ha => hP a (hnew a ha), fun h0 => hg.trans (hgoal h0)⟩

theorem Adds.seq (h : Adds P goal log r) (h0 : r.1 = 0) (h' : Adds P goal' r.2 r') :
    Adds P (goal ∪ goal') log r' := by
  obtain ⟨new, hlog, hnew, hgoal⟩ := h
  obtain ⟨new', hlog', hnew', hgoal'⟩ := h'
  refine ⟨new' ++ new, by rw [hlog', hlog, append_assoc], ?_, ?_⟩
  · intro a ha
    rcases mem_append.mp ha with ha | ha
    · exact hnew' a ha
    · exact hnew a ha
  intro hz
  rw [touched_append]
  exact Set.union_subset (Set.subset_union_of_subset_right (hgoal h0) _)
    (Set.subset_union_of_subset_left (hgoal' hz) _)

theorem Adds.after (h : Adds P goal log r) (h' : Adds P goal' r.2 r') : Adds P goal' log r' := by
  have hnone : Adds P ∅ log (0, r.2) := by
    obtain ⟨new, hlog, hnew, -⟩ := h
    exact ⟨new, hlog, hnew, fun _ => Set.empty_subset _⟩
  exact (hnone.seq rfl h').weaken (fun _ ha => ha) Set.subset_union_right

theorem Adds.check {c : Prop} [Decidable c] (hrc : rc ≠ 0) (h : ¬ c → Adds P goal log r) :
    Adds P goal log (if c then (rc, log) else r) := by
  split
  · exact Adds.fail hrc
  · exact h ‹_›

theorem Adds.orStop {rest : Step} (h : Adds P goal log r) (h' : Adds P goal' r.2 (rest r.2)) :
    Adds P (goal ∪ goal') log (if r.1 ≠ 0 then r else rest r.2) := by
  by_cases hrc : r.1 = 0
  · rw [if_neg (not_not.mpr hrc)]
    exact h.seq hrc h'
  · rw [if_pos hrc]
    obtain ⟨new, hlog, hnew, -⟩ := h
    exact ⟨new, hlog, hnew, fun h0 => absurd h0 hrc⟩

theorem issue_adds {hw : Controller} {a : Access} (ha : P a) (hg : goal ⊆ a.sectors) :
    Adds P goal log (issue hw a log) := by
  refine ⟨[a], rfl, ?_, fun _ s hs => ⟨a, mem_singleton_self a, hg hs⟩⟩
  intro b hb
  rw [mem_singleton.mp hb]
  exact ha

theorem retry_adds {step : Step} (h : ∀ log, Adds P goal log (step log)) (n : Nat)
    (hrc : rc ≠ 0) : Adds P goal log (retry step n rc log) := by
  induction n generalizing rc log with
  | zero => exact Adds.fail hrc
  | succ n ih =>
    by_cases h0 : (step log).1 = 0
    · simp only [retry, h0, if_true]
      exact h log
    · simp only [retry, h0, if_false]
      exact (h log).after (ih h0)

variable {ctl : Ctl} {hw : Controller} {lo hi start : Nat}

theorem readSectorSync_adds (lba : Nat) :
    Adds (ReadsIn lba (lba + 1)) {lba} log (readSectorSync ctl hw lba log) := by
  iterate 4 apply Adds.check (by decide) fun _ => ?_
  apply issue_adds ⟨le_rfl, le_rfl⟩
  rintro s rfl
  exact ⟨le_rfl, Nat.lt_succ_self _⟩

theorem readMultiblockPio_adds (lba count : Nat) :
    Adds (ReadsIn lba (lba + count)) (Set.Ico lba (lba + count)) log
      (readMultiblockPio hw lba count log) :=
  .check (by decide) fun _ => issue_adds ⟨le_rfl, le_rfl⟩ le_rfl

theorem ReadsIn.weaken {lo' hi' : Nat} (hlo : lo' ≤ lo) (hhi : hi ≤ hi') (a : Access)
    (h : ReadsIn lo hi a) : ReadsIn lo' hi' a := by
  cases a with
  | read => exact ⟨hlo.trans h.1, h.2.trans hhi⟩
  | write => exact h

theorem Adds.readOn {mid : Nat} {r r' : Int × List Access} (hlo : lo ≤ mid) (hhi : mid ≤ hi)
    (first : Adds (ReadsIn lo mid) (Set.Ico lo mid) log r) (hok : r.1 = 0)
    (rest : Adds (ReadsIn mid hi) (Set.Ico mid hi) r.2 r') :
    Adds (ReadsIn lo hi) (Set.Ico lo hi) log r' := by
  have hfirst := first.weaken (ReadsIn.weaken le_rfl hhi) le_rfl
  have hrest := rest.weaken (ReadsIn.weaken hlo le_rfl) le_rfl
  apply (hfirst.seq hok hrest).weaken (fun _ h => h)
  rw [Set.Ico_union_Ico_eq_Ico hlo hhi]

theorem readSector_adds {lo hi : Nat} (hlt : lo < hi) {rest : Step}
    (hrest : ∀ log, Adds (ReadsIn (lo + 1) hi) (Set.Ico (lo + 1) hi) log (rest log))
    (log : List Access) :
    Adds (ReadsIn lo hi) (Set.Ico lo hi) log
      (if (retry (readSectorSync ctl hw lo) 3 (-1) log).1 ≠ 0 then
        retry (readSectorSync ctl hw lo) 3 (-1) log
      else rest (retry (readSectorSync ctl hw lo) 3 (-1) log).2) := by
  have hone : Adds (ReadsIn lo (lo + 1)) {lo} log (retry (readSectorSync ctl hw lo) 3 (-1) log) :=
    retry_adds (fun _ => readSectorSync_adds lo) 3 (by decide)
  have hone' := hone.weaken (ReadsIn.weaken le_rfl hlt) le_rfl
  have hrest' := (hrest (retry (readSectorSync ctl hw lo) 3 (-1) log).2).weaken
    (ReadsIn.weaken (Nat.le_succ lo) le_rfl) le_rfl
  apply (hone'.orStop hrest').weaken (fun _ h => h)
  intro s hs
  simp only [Set.mem_union, Set.mem_singleton_iff, Set.mem_Ico] at hs ⊢
  omega

theorem readLoop_adds {count : Nat} (hend : start + count ≤ 2 ^ 32) (fuel i : Nat)
    (hfuel : count ≤ i + fuel) :
    Adds (ReadsIn (start + i) (start + count)) (Set.Ico (start + i) (start + count)) log
      (readLoop ctl hw start count fuel i log) := by
  induction fuel generalizing i log with
  | zero =>
    rw [Set.Ico_eq_empty (by omega)]
    exact Adds.nothing 0
  | succ fuel ih =>
    simp only [readLoop]
    split
    · rw [Set.Ico_eq_empty (by omega)]
      exact Adds.nothing 0
    have hmod : (start + i) % 2 ^ 32 = start + i := Nat.mod_eq_of_lt (by omega)
    have hchunk : i + (if count - i > 128 then 128 else count - i) ≤ count ∧
        0 < (if count - i > 128 then 128 else count - i) := by
      split <;> omega
    obtain ⟨chunk, hc⟩ : ∃ c, c = if count - i > 128 then 128 else count - i := ⟨_, rfl⟩
    rw [hmod, ← hc]
    rw [← hc] at hchunk
    have hrest (n : Nat) (hn : 0 < n) (log : List Access) :
        Adds (ReadsIn (start + i + n) (start + count)) (Set.Ico (start + i + n) (start + count)) log
          (readLoop ctl hw start count fuel (i + n) log) := by
      rw [add_assoc]
      exact ih (i + n) (by omega)
    have hsingle := @readSector_adds ctl hw _ _ (show start + i < start + count by omega) _
      (hrest 1 one_pos)
    have hmulti : Adds (ReadsIn (start + i) (start + i + chunk))
        (Set.Ico (start + i) (start + i + chunk)) log
          (readMultiblockPio hw (start + i) chunk log) :=
      readMultiblockPio_adds (start + i) chunk
    split
    · rename_i h
      exact hmulti.readOn (by omega) (by omega) h.2 (hrest chunk hchunk.2 _)
    · split
      · exact (hmulti.weaken (ReadsIn.weaken le_rfl (by omega)) le_rfl).after (hsingle _)
      · exact hsingle _

theorem readBlocksSync_log (start count : Nat) :
    Adds (ReadsIn start (start + count)) (Set.Ico start (start + count)) log
      (readBlocksSync ctl hw start count log) := by
  have hlt := ctl.sectorCount.toNat_lt
  iterate 6 apply Adds.check (by decide) fun _ => ?_
  exact readLoop_adds (by omega) count 0 (by omega)

variable {map : SliceMap}

/-- The fence: nothing outside slot 53 is written. -/
theorem writeSectorPio_adds (lba : Nat) :
    Adds (WritesTo ({lba} ∩ (map.entries 53).range)) {lba} log
      (writeSectorPio (some map) ctl hw lba log) := by
  apply Adds.check (by decide) fun _ => Adds.check (by decide) fun hfence => ?_
  simp only [not_or, not_lt] at hfence
  exact issue_adds ⟨rfl, hfence.2.1, hfence.2.2⟩ le_rfl

theorem WritesTo.weaken {S T : Set Nat} (h : S ⊆ T) (a : Access) (ha : WritesTo S a) :
    WritesTo T a := by
  cases a with
  | read => exact ha
  | write => exact h ha

theorem writeLoop_adds (n i : Nat) (hend : start + i + n ≤ 2 ^ 32) :
    Adds (WritesTo (Set.Ico (start + i) (start + i + n) ∩ (map.entries 53).range))
      (Set.Ico (start + i) (start + i + n)) log
      (writeLoop (some map) ctl hw start n i log) := by
  induction n generalizing i log with
  | zero =>
    rw [add_zero, Set.Ico_self]
    exact Adds.nothing 0
  | succ n ih =>
    have hmod : (start + i) % 2 ^ 32 = start + i := Nat.mod_eq_of_lt (by omega)
    have hhead : {start + i} ⊆ Set.Ico (start + i) (start + i + (n + 1)) := by
      rintro s rfl
      exact ⟨le_refl _, by omega⟩
    have htail : Set.Ico (start + (i + 1)) (start + (i + 1) + n) ⊆
        Set.Ico (start + i) (start + i + (n + 1)) := by
      rintro s ⟨hlo, hhi⟩
      exact ⟨by omega, by omega⟩
    simp only [writeLoop, hmod]
    have hone : Adds (WritesTo (Set.Ico (start + i) (start + i + (n + 1)) ∩
        (map.entries 53).range)) {start + i} log
        (retry (writeSectorPio (some map) ctl hw (start + i)) 3 (-1) log) :=
      (retry_adds (fun _ => writeSectorPio_adds (start + i)) 3 (by decide)).weaken
        (WritesTo.weaken (Set.inter_subset_inter_left _ hhead)) le_rfl
    apply (hone.orStop ((ih (i + 1) (by omega)).weaken
      (WritesTo.weaken (Set.inter_subset_inter_left _ htail)) le_rfl)).weaken (fun _ h => h)
    rintro s ⟨hlo, hhi⟩
    by_cases hs : s = start + i
    · exact .inl hs
    · exact .inr ⟨by omega, by omega⟩

theorem writeBlocksSync_log (start count : Nat) (hend : start + count ≤ 2 ^ 32) :
    Adds (WritesTo (Set.Ico start (start + count) ∩ (map.entries 53).range))
      (Set.Ico start (start + count)) log
      (writeBlocksSync (some map) ctl hw start count log) :=
  .check (by decide) fun _ => writeLoop_adds count 0 hend

/-- What holds of a request that gets as far as a transfer. -/
structure Passed (map : Option SliceMap) (ctl : Ctl) (bp : Request) : Prop where
  minor : bp.minor ≤ 55
  slice : noSlice map bp.minor = false
  writable : bp.isRead = false → isUserdataMinor map bp.minor = true
  aligned : bp.count.toNat % 512 = 0
  inside : bp.blkno.toNat + bp.count.toNat / 512 ≤ (target map ctl bp).1
  on_card : ((target map ctl bp).2 + bp.count.toNat / 512) % 2 ^ 64 ≤ ctl.sectorCount.toNat

variable {bp : Request}

theorem strategyChecks_ok {map : Option SliceMap}
    (h : strategyChecks map ctl bp = .ok ()) : Passed map ctl bp := by
  simp only [strategyChecks, seq_ok, rejectIf_ok, not_or, not_and, not_lt, gt_iff_lt,
    ge_iff_le, not_le, Bool.not_eq_true, Bool.not_eq_false, ne_eq, not_not] at h
  obtain ⟨hminor, hslice, hwrite, -, ⟨-, hal⟩, -, -, -, hin, hcard, -, -⟩ := h
  have hblk := bp.blkno_range.2
  have hcount := bp.count.toNat_lt
  refine ⟨hminor, hslice, fun hw => (hwrite hw).2, hal, ?_, hcard⟩
  rwa [Nat.mod_eq_of_lt (by omega)] at hin

theorem strategyChecks_error {map : Option SliceMap} {e : Nat}
    (h : strategyChecks map ctl bp = .error e) : e ≠ 0 := by
  simp only [strategyChecks, seq_error, rejectIf_error] at h
  rcases h with ⟨-, rfl⟩
    | ⟨-, ⟨-, rfl⟩ | ⟨-, ⟨-, rfl⟩ | ⟨-, ⟨-, rfl⟩ | ⟨-, ⟨-, rfl⟩ | ⟨-, ⟨-, rfl⟩ |
    ⟨-, ⟨-, rfl⟩ | ⟨-,
      ⟨-, rfl⟩ | ⟨-, ⟨-, rfl⟩ | ⟨-, ⟨-, rfl⟩ | ⟨-, ⟨hne, rfl⟩ | ⟨-, -, rfl⟩⟩⟩⟩⟩⟩⟩⟩⟩⟩⟩
  all_goals first | decide | exact hne

/-- A request is refused with an error and no transfer, or its transfer decides. -/
theorem strategy_cases (map : Option SliceMap) (ctl : Ctl) (hw : Controller) (bp : Request) :
    (∃ e, e ≠ 0 ∧ strategy map ctl hw bp = ⟨e, bp.count.toNat, []⟩) ∨
    Passed map ctl bp ∧ strategy map ctl hw bp =
      if (transfer map ctl hw bp).1 = 0 then ⟨0, 0, (transfer map ctl hw bp).2⟩
      else ⟨eio, bp.count.toNat, (transfer map ctl hw bp).2⟩ := by
  unfold strategy
  cases h : strategyChecks map ctl bp with
  | error e => exact .inl ⟨e, strategyChecks_error h, rfl⟩
  | ok => exact .inr ⟨strategyChecks_ok h, rfl⟩

/-- What a transfer of the sectors `[lo, hi)` did, `allowed` being the sectors it
may write. -/
structure Transferred (lo hi : Nat) (allowed : Set Nat) (r : Int × List Access) : Prop where
  within : touched r.2 ⊆ Set.Ico lo hi
  complete : r.1 = 0 → touched r.2 = Set.Ico lo hi
  writes : written r.2 ⊆ allowed

theorem transferred_of_adds {P : Access → Prop} {allowed : Set Nat}
    (h : Adds P (Set.Ico lo hi) [] r) (hin : ∀ a, P a → a.sectors ⊆ Set.Ico lo hi)
    (hw : ∀ s, P (.write s) → s ∈ allowed) :
    Transferred lo hi allowed r := by
  obtain ⟨new, hlog, hnew, hgoal⟩ := h
  rw [append_nil] at hlog
  have hsub : touched r.2 ⊆ Set.Ico lo hi := by
    rw [hlog]
    rintro s ⟨a, ha, hs⟩
    exact hin a (hnew a ha) hs
  refine ⟨hsub, fun h0 => Set.Subset.antisymm hsub ?_, ?_⟩
  · rw [hlog]
    exact hgoal h0
  · intro s hs
    exact hw s (hnew _ (hlog ▸ hs))

theorem read_transferred (ctl : Ctl) (hw : Controller) (start count : Nat) :
    Transferred start (start + count) ∅ (readBlocksSync ctl hw start count []) := by
  apply transferred_of_adds (readBlocksSync_log start count)
  · intro a ha
    cases a with
    | read => exact fun s hs => ⟨ha.1.trans hs.1, hs.2.trans_le ha.2⟩
    | write => exact absurd ha (by simp [ReadsIn])
  · intro s hs
    exact absurd hs (by simp [ReadsIn])

theorem write_transferred (map : SliceMap) (ctl : Ctl) (hw : Controller) (start count : Nat)
    (hend : start + count ≤ 2 ^ 32) :
    Transferred start (start + count) (map.entries 53).range
      (writeBlocksSync (some map) ctl hw start count []) := by
  apply transferred_of_adds (writeBlocksSync_log start count hend)
  · intro a ha
    cases a with
    | read => exact absurd ha (by simp [WritesTo])
    | write lba =>
      rintro s rfl
      exact ha.1
  · intro s hs
    exact hs.2

/-- A request to a slice minor stays inside its partition. -/
structure SliceIsolated (map : SliceMap) (bp : Request) (r : Done) : Prop where
  within : touched r.log ⊆ (map.slice bp.minor).range
  apart : ∀ j, 0 < j → j ≤ 55 → j ≠ bp.minor → Disjoint (touched r.log) (map.slice j).range
  off_gpt : touched r.log ⊆ Set.Icc 34 61071326
  complete : r.error = 0 → touched r.log =
    Set.Ico ((map.slice bp.minor).startLba.toNat + bp.blkno.toNat)
      ((map.slice bp.minor).startLba.toNat + bp.blkno.toNat + bp.count.toNat / 512)
  writes : ∀ s ∈ written r.log, map.minorToSlot bp.minor = 53 ∧
    (map.slice bp.minor).nameCanonical = userdataName ∧ s ∈ (map.entries 53).range
  failed : r.error ≠ 0 → r.resid = bp.count.toNat

/-- A request to the whole-disk minor reads inside the card and writes nothing. -/
structure WholeDiskRead (ctl : Ctl) (bp : Request) (r : Done) : Prop where
  within : touched r.log ⊆ Set.Ico 0 ctl.sectorCount.toNat
  complete : r.error = 0 →
    touched r.log = Set.Ico bp.blkno.toNat (bp.blkno.toNat + bp.count.toNat / 512)
  writes : written r.log = ∅
  failed : r.error ≠ 0 → r.resid = bp.count.toNat

theorem touched_nil : touched [] = ∅ := by
  simp [touched]

theorem written_nil : written [] = ∅ := by
  simp [written]

theorem isUserdataMinor_slot {m : Nat} (h : isUserdataMinor (some map) m = true) :
    map.minorToSlot m = 53 ∧ (map.slice m).nameCanonical = userdataName := by
  simp only [isUserdataMinor, Bool.and_eq_true, beq_iff_eq] at h
  exact ⟨h.1.2, h.2⟩

theorem finish_failed {d : Done}
    (h : d = if r.1 = 0 then ⟨0, 0, r.2⟩ else ⟨eio, bp.count.toNat, r.2⟩) :
    d.log = r.2 ∧ (d.error = 0 ↔ r.1 = 0) ∧ (d.error ≠ 0 → d.resid = bp.count.toNat) := by
  by_cases h0 : r.1 = 0
  · rw [if_pos h0] at h
    subst h
    exact ⟨rfl, ⟨fun _ => h0, fun _ => rfl⟩, absurd rfl⟩
  · rw [if_neg h0] at h
    subst h
    exact ⟨rfl, ⟨fun h5 => absurd h5 (show ¬ eio = 0 by decide), fun hr =>
      absurd hr h0⟩, fun _ => rfl⟩

theorem target_slice (hv : map.Valid) (h0 : 0 < bp.minor) (hp : Passed (some map) ctl bp) :
    (target (some map) ctl bp).2 = (map.slice bp.minor).startLba.toNat + bp.blkno.toNat ∧
    (map.slice bp.minor).startLba.toNat + bp.blkno.toNat + bp.count.toNat / 512 ≤
      (map.slice bp.minor).endLba.toNat + 1 := by
  obtain ⟨hord, -, hlast, -, hlen⟩ := hv.extents bp.minor h0 hp.minor
  have hhi : d4Params.lastUsableLba.toNat = 61071326 := rfl
  have hin := hp.inside
  simp only [target, ne_of_gt h0, if_false] at hin ⊢
  exact ⟨Nat.mod_eq_of_lt (by omega), by omega⟩

theorem slice_transferred (hv : map.Valid) (hw : Controller)
    (h0 : 0 < bp.minor) (hp : Passed (some map) ctl bp) :
    Transferred ((map.slice bp.minor).startLba.toNat + bp.blkno.toNat)
      ((map.slice bp.minor).startLba.toNat + bp.blkno.toNat + bp.count.toNat / 512)
      {s | bp.isRead = false ∧ s ∈ (map.entries 53).range} (transfer (some map) ctl hw bp) := by
  obtain ⟨hstart, hroom⟩ := target_slice hv h0 hp
  have hhi : d4Params.lastUsableLba.toNat = 61071326 := rfl
  have hlast := (hv.extents bp.minor h0 hp.minor).last
  unfold transfer
  rw [hstart]
  cases hr : bp.isRead with
  | true =>
    obtain ⟨hin, hall, hno⟩ := read_transferred ctl hw
      ((map.slice bp.minor).startLba.toNat + bp.blkno.toNat) (bp.count.toNat / 512)
    exact ⟨hin, hall, hno.trans (Set.empty_subset _)⟩
  | false =>
    obtain ⟨hin, hall, hud⟩ := write_transferred map ctl hw
      ((map.slice bp.minor).startLba.toNat + bp.blkno.toNat) (bp.count.toNat / 512) (by omega)
    exact ⟨hin, hall, fun s hs => ⟨rfl, hud hs⟩⟩

theorem slice_isolated (hv : map.Valid) (ctl : Ctl) (hw : Controller)
    (bp : Request) (h0 : 0 < bp.minor) (h55 : bp.minor ≤ 55) :
    SliceIsolated map bp (strategy (some map) ctl hw bp) := by
  obtain ⟨hord, hfirst, hlast, -, -⟩ := hv.extents bp.minor h0 h55
  have hlo : d4Params.firstUsableLba.toNat = 34 := rfl
  have hhi : d4Params.lastUsableLba.toNat = 61071326 := rfl
  have hwithin : touched (strategy (some map) ctl hw bp).log ⊆ (map.slice bp.minor).range →
      (∀ j, 0 < j → j ≤ 55 → j ≠ bp.minor →
        Disjoint (touched (strategy (some map) ctl hw bp).log) (map.slice j).range) ∧
      touched (strategy (some map) ctl hw bp).log ⊆ Set.Icc 34 61071326 := by
    intro hsub
    refine ⟨fun j hj0 hj hne => ?_, fun s hs => ?_⟩
    · rcases lt_or_gt_of_ne hne with hlt | hgt
      · exact ((hv.apart j bp.minor hj0 hlt h55).symm).mono_left hsub
      · exact (hv.apart bp.minor j h0 hgt hj).mono_left hsub
    · have := hsub hs
      exact ⟨by have := this.1; omega, by have := this.2; omega⟩
  rcases strategy_cases (some map) ctl hw bp with ⟨e, hne, hd⟩ | ⟨hp, hd⟩
  · -- refused: nothing was touched
    have hnone : touched (strategy (some map) ctl hw bp).log ⊆ (map.slice bp.minor).range := by
      rw [hd, touched_nil]
      exact Set.empty_subset _
    refine ⟨hnone, (hwithin hnone).1, (hwithin hnone).2, ?_, ?_, ?_⟩
    · rw [hd]
      exact fun h => absurd h hne
    · rw [hd, written_nil]
      exact fun s hs => absurd hs (Set.notMem_empty s)
    · rw [hd]
      exact fun _ => rfl
  · obtain ⟨hlog, herr, hres⟩ := finish_failed hd
    obtain ⟨hin, hall, hwr⟩ := slice_transferred hv hw h0 hp
    obtain ⟨-, hroom⟩ := target_slice hv h0 hp
    have hsub : touched (strategy (some map) ctl hw bp).log ⊆ (map.slice bp.minor).range := by
      rw [hlog]
      intro s hs
      have := hin hs
      exact ⟨by have := this.1; omega, by have := this.2; omega⟩
    refine ⟨hsub, (hwithin hsub).1, (hwithin hsub).2, ?_, ?_, hres⟩
    · rw [hlog, herr]
      exact hall
    rw [hlog]
    intro s hs
    obtain ⟨hnr, hud⟩ := hwr hs
    obtain ⟨hslot, hname⟩ := isUserdataMinor_slot (hp.writable hnr)
    exact ⟨hslot, hname, hud⟩

theorem wholeDisk_read (ctl : Ctl) (hw : Controller) (bp : Request)
    (h0 : bp.minor = 0) : WholeDiskRead ctl bp (strategy (some map) ctl hw bp) := by
  rcases strategy_cases (some map) ctl hw bp with ⟨e, hne, hd⟩ | ⟨hp, hd⟩
  · rw [hd]
    refine ⟨?_, fun h => absurd h hne, written_nil, fun _ => rfl⟩
    exact touched_nil ▸ Set.empty_subset _
  obtain ⟨hlog, herr, hres⟩ := finish_failed hd
  have hread : bp.isRead = true := by
    by_contra hw
    have := hp.writable (Bool.eq_false_of_not_eq_true hw)
    simp [isUserdataMinor, h0] at this
  have hin := hp.inside
  have htarget : target (some map) ctl bp = (ctl.sectorCount.toNat, bp.blkno.toNat) := by
    rw [target, if_pos h0]
  have htransfer : transfer (some map) ctl hw bp =
      readBlocksSync ctl hw bp.blkno.toNat (bp.count.toNat / 512) [] := by
    rw [transfer, if_pos hread, htarget]
  obtain ⟨hsub, hall, hno⟩ := read_transferred ctl hw bp.blkno.toNat (bp.count.toNat / 512)
  rw [htransfer] at hlog herr
  rw [htarget] at hin
  refine ⟨?_, ?_, ?_, hres⟩
  · rw [hlog]
    intro s hs
    exact ⟨Nat.zero_le s, (hsub hs).2.trans_le hin⟩
  · rw [hlog, herr]
    exact hall
  · rw [hlog]
    exact Set.subset_empty_iff.mp hno

/-- **Every minor keeps to its sectors.** For every published entry array, every state of driver and
controller, and every request: a slice minor reads and writes only inside its own partition, on
success exactly the sectors asked for, and writes only on the userdata slot; the whole-disk minor
only reads; any other minor is refused; and a request that fails has the whole count as its
residual. -/
theorem strategy_isolated {array : Nat → UInt8} {entries : Nat → GptEntry} {map : SliceMap}
    (h : publishSlices array entries = some map) (ctl : Ctl) (hw : Controller) (bp : Request) :
    (0 < bp.minor → bp.minor ≤ 55 → SliceIsolated map bp (strategy (some map) ctl hw bp)) ∧
    (bp.minor = 0 → WholeDiskRead ctl bp (strategy (some map) ctl hw bp)) ∧
    (55 < bp.minor → strategy (some map) ctl hw bp = ⟨enxio, bp.count.toNat, []⟩) := by
  refine ⟨slice_isolated (publishSlices_valid h) ctl hw bp, wholeDisk_read ctl hw bp, ?_⟩
  intro h55
  have hcheck : strategyChecks (some map) ctl bp = .error enxio := by
    rw [strategyChecks, seq_error, rejectIf_error]
    exact .inl ⟨h55, rfl⟩
  rw [strategy, hcheck]

/-- One sector in each of the slots 0..54, slot 53 being called "userdata". -/
def sampleArray (p : Nat) : UInt8 :=
  let slot := p / 128
  let off := p % 128
  if slot < 55 then
    if off = 0 then 1
    else if off = 16 then UInt8.ofNat (slot + 1)
    else if off = 32 ∨ off = 40 then UInt8.ofNat (34 + slot)
    else if slot = 53 ∧ 56 ≤ off ∧ off % 2 = 0 then userdataName.getD ((off - 56) / 2) 0
    else 0
  else 0

def blankEntry : GptEntry := ⟨0, false, [], [], 0, 0, 0, 0, 0, [], []⟩

theorem sampleArray_published : (publishSlices sampleArray fun _ => blankEntry).isSome = true := by
  decide +kernel

/-- The geometry the probe insists on, with writes enabled. -/
def readyCtl : Ctl := ⟨true, 61071360, true, false⟩

def oneSector (minor : Nat) (isRead : Bool) (blkno : UInt8) : Request :=
  ⟨minor, isRead, blkno.toNat, 512, 0, false, by have := blkno.toNat_lt; omega⟩

theorem strategy_isolated_sample :
    ∃ map, publishSlices sampleArray (fun _ => blankEntry) = some map ∧
    SliceIsolated map (oneSector 54 false 0)
      (strategy (some map) readyCtl (fun _ => 0) (oneSector 54 false 0)) := by
  obtain ⟨map, h⟩ := Option.isSome_iff_exists.mp sampleArray_published
  exact ⟨map, h, (strategy_isolated h readyCtl (fun _ => 0) (oneSector 54 false 0)).1
    (by decide) (by decide)⟩

/-- The whole-disk minor reads LBA 1, the GPT header, which is in no partition. -/
theorem wholeDisk_reads_gpt : ∃ map, publishSlices sampleArray (fun _ => blankEntry) = some map ∧
    (strategy (some map) readyCtl (fun _ => 0) (oneSector 0 true 1)).error = 0 ∧
    1 ∈ touched (strategy (some map) readyCtl (fun _ => 0) (oneSector 0 true 1)).log ∧
    ∀ minor, 0 < minor → minor ≤ 55 → 1 ∉ (map.slice minor).range := by
  obtain ⟨map, h⟩ := Option.isSome_iff_exists.mp sampleArray_published
  have hrun : strategy (some map) readyCtl (fun _ => 0) (oneSector 0 true 1) =
      ⟨0, 0, [.read 1 1]⟩ := rfl
  refine ⟨map, h, ?_, ?_, ?_⟩
  · rw [hrun]
  · rw [hrun]
    exact ⟨.read 1 1, mem_cons_self, le_refl 1, Nat.lt_succ_self 1⟩
  · intro minor h0 h55 hin
    have hfirst := ((publishSlices_valid h).extents minor h0 h55).first
    exact absurd (hfirst.trans hin.1) (by decide)

end XnuXzs.Emmc
