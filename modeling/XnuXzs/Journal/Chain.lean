import XnuXzs.Journal.Replay

/-!
# The chain of block lists

Each block list on the disk says where the next one starts. Whether a round of the replay goes
on depends on its place in the chain and on whether `add_block` takes the blocks.
-/

namespace XnuXzs.Journal

open Lib

/-- What the next round depends on: its place, the last sequence number, whether blocks are
checked. -/
structure Place where
  offset : Int
  lastSequenceNum : UInt32
  checking : Bool
  deriving DecidableEq, Repr

def Replay.place (s : Replay) : Place := ⟨s.start, s.lastSequenceNum, s.checkBlockChecksums⟩

def blockListAt (d : Disk) (offset : Int) : Option (BlockList × Int) :=
  match readJournalData d offset d.blhdrSize with
  | .done data behind => some (readBlockList d data, behind)
  | _ => none

def nextOffset (d : Disk) (offset : Int) : Int :=
  match blockListAt d offset with
  | some (h, _) => advanceStart d h offset
  | none => offset

def Place.next (d : Disk) (p : Place) : Place :=
  match blockListAt d p.offset with
  | some (h, _) => ⟨advanceStart d h p.offset, h.sequenceNum, p.checking || h.checkChecksums⟩
  | none => p

/-- Every block of a list that is checked has the right checksum. -/
def blocksPass (d : Disk) (h : BlockList) (q : Pass) : Nat → Nat → Int → Bool
  | 0, _, _ => true
  | n + 1, i, offset =>
    ((h.binfo i).bnum == -1 || (q.check d (h.binfo i) offset).2 == .pass) &&
      blocksPass d h q n (i + 1) (nextBlock d offset (h.binfo i).bsize)

/-- The entries of a list are in order and its blocks pass. -/
def listPasses (d : Disk) (p : Place) (h : BlockList) (behind : Int) : Bool :=
  match (scanBlocks h (h.numBlocks - 1) 1 0).2 with
  | none => false
  | some maxBsize => blocksPass d h (passFor h p.checking maxBsize) (h.numBlocks - 1) 1 behind

/-- A header with the right checksum that the replay goes on from. -/
def headerPasses (d : Disk) (jnlEnd : Int) (p : Place) (h : BlockList) : Bool :=
  h.computed == h.checksum && !outOfSequence p.lastSequenceNum h.sequenceNum &&
    !(decide (p.offset = jnlEnd) && h.sequenceNum == 0) && !badLooking d h

/-- The block list at a place is read, passes its checks and so do its blocks. -/
def accepts (d : Disk) (jnlEnd : Int) (p : Place) : Bool :=
  match blockListAt d p.offset with
  | none => false
  | some (h, behind) => headerPasses d jnlEnd p h && listPasses d p h behind

/-- The calls of `add_block` for a list whose blocks pass. -/
def listCalls (d : Disk) (h : BlockList) : Nat → Nat → Int → List Call
  | 0, _, _ => []
  | n + 1, i, offset =>
    let b := h.binfo i
    let rest := listCalls d h n (i + 1) (nextBlock d offset b.bsize)
    if b.bnum = -1 then rest
    else ⟨b.bnum, u64 b.bsize, u64 offset, i32 b.cksum.toNat⟩ :: rest

def Place.calls (d : Disk) (p : Place) : List Call :=
  match blockListAt d p.offset with
  | some (h, behind) => listCalls d h (h.numBlocks - 1) 1 behind
  | none => []

variable {q : Pass} {n i : Nat} {offset : Int} {h : BlockList} {d : Disk} {t : Table}

theorem addFault_injective :
    Function.Injective (Except.mapError Stop.addFault : Except Fault Table →
      Except Stop Table) := by
  rintro (f | t) (f' | t') heq <;> cases heq <;> rfl

theorem addList_of_pass (hpass : blocksPass d h q n i offset = true) (t : Table) :
    (addList d h q n i offset t).2 =
      (addBlocks d.geometry t (listCalls d h n i offset)).mapError .addFault := by
  induction n generalizing i offset t with
  | zero => rfl
  | succ n ih =>
    simp only [blocksPass, Bool.and_eq_true, Bool.or_eq_true, beq_iff_eq] at hpass
    obtain ⟨hblock, hrest⟩ := hpass
    simp only [addList, listCalls]
    by_cases hkilled : (h.binfo i).bnum = -1
    · simp only [hkilled, if_true, accessing]
      exact ih hrest t
    have hverdict := hblock.resolve_left hkilled
    simp only [hkilled, if_false, accessing, hverdict, addBlocks, List.foldlM_cons]
    cases addBlock d.geometry t _ with
    | error f => rfl
    | ok t' => exact ih hrest t'

theorem blocksPass_of_addList {t' : Table} (hok : (addList d h q n i offset t).2 = .ok t') :
    blocksPass d h q n i offset = true := by
  induction n generalizing i offset t with
  | zero => rfl
  | succ n ih =>
    simp only [addList] at hok
    simp only [blocksPass, Bool.and_eq_true, Bool.or_eq_true, beq_iff_eq]
    by_cases hkilled : (h.binfo i).bnum = -1
    · simp only [hkilled, if_true, accessing] at hok
      exact ⟨.inl hkilled, ih hok⟩
    simp only [hkilled, if_false, accessing] at hok
    cases hverdict : (q.check d (h.binfo i) offset).2 with
    | panic | bad => simp [hverdict] at hok
    | pass =>
      simp only [hverdict] at hok
      cases hadd : addBlock d.geometry t ⟨(h.binfo i).bnum, u64 (h.binfo i).bsize, u64 offset,
          i32 (h.binfo i).cksum.toNat⟩ with
      | error => simp [hadd] at hok
      | ok u =>
        simp only [hadd] at hok
        exact ⟨.inr rfl, ih hok⟩

/-- A round that leaves the pass as it is and remembers at most its own offset. -/
structure SamePass (s s' : Replay) : Prop where
  retryCount : s'.retryCount = s.retryCount
  txnStartOffset : s'.txnStartOffset = s.txnStartOffset ∨ s'.txnStartOffset = s.start

structure Advances (d : Disk) (s s' : Replay) : Prop extends SamePass s s' where
  place : s'.place = s.place.next d
  table : addBlocks d.geometry s.table (s.place.calls d) = .ok s'.table
  jnlEnd : s'.jnlEnd = s.jnlEnd
  checkPastJnlEnd : s'.checkPastJnlEnd = s.checkPastJnlEnd

inductive BodySpec (d : Disk) (s : Replay) : Outcome → Prop
  | advanced {s' : Replay} : accepts d s.jnlEnd s.place = true → Advances d s s' →
      BodySpec d s (.next s')
  | stopped {s' : Replay} : accepts d s.jnlEnd s.place = false → s'.checkPastJnlEnd = false →
      s'.start = s'.jnlEnd → BodySpec d s (.next s')
  | badTxn {s' : Replay} : accepts d s.jnlEnd s.place = false → SamePass s s' →
      BodySpec d s (.badTxn s')
  | badReplay : accepts d s.jnlEnd s.place = false → BodySpec d s .badReplay
  | panic : accepts d s.jnlEnd s.place = false → BodySpec d s .panic
  | addFault {f : Fault} : (accepts d s.jnlEnd s.place = true →
      addBlocks d.geometry s.table (s.place.calls d) = .error f) → BodySpec d s (.addFault f)

theorem not_pass_of_stop {e : Stop} (hstop : (addList d h q n i offset t).2 = .error e)
    (hfault : ∀ f, e ≠ .addFault f) :
    blocksPass d h q n i offset = false := by
  rw [Bool.eq_false_iff]
  intro hpass
  rw [addList_of_pass hpass] at hstop
  cases hadd : addBlocks d.geometry t (listCalls d h n i offset) with
  | ok t' => simp [hadd, Except.mapError] at hstop
  | error f =>
    rw [hadd] at hstop
    cases hstop
    exact hfault f rfl

theorem txnStart_cases (h : BlockList) (s : Replay) :
    (if h.firstHeader then s.start else s.txnStartOffset) = s.txnStartOffset ∨
      (if h.firstHeader then s.start else s.txnStartOffset) = s.start := by
  split
  · exact .inr rfl
  · exact .inl rfl

theorem headerPasses_iff {jnlEnd : Int} {p : Place} :
    headerPasses d jnlEnd p h = true ↔
      h.computed = h.checksum ∧ ¬ outOfSequence p.lastSequenceNum h.sequenceNum = true ∧
        ¬ (p.offset = jnlEnd ∧ h.sequenceNum = 0) ∧ ¬ badLooking d h = true := by
  simp only [headerPasses, Bool.and_eq_true, Bool.not_eq_true', Bool.and_eq_false_iff,
    decide_eq_false_iff_not, beq_eq_false_iff_ne, beq_iff_eq, Bool.not_eq_true, and_assoc,
    not_and_or, ne_eq]

variable {s : Replay} {behind : Int}

theorem accepts_eq (hlist : blockListAt d s.start = some (h, behind)) (jnlEnd : Int) :
    accepts d jnlEnd s.place =
    (headerPasses d jnlEnd s.place h && listPasses d s.place h behind) := by
  have hplace : blockListAt d s.place.offset = some (h, behind) := hlist
  rw [accepts, hplace]

theorem next_eq (hlist : blockListAt d s.start = some (h, behind)) : s.place.next d =
    ⟨advanceStart d h s.start, h.sequenceNum, s.checkBlockChecksums || h.checkChecksums⟩ := by
  have hplace : blockListAt d s.place.offset = some (h, behind) := hlist
  rw [Place.next, hplace]
  rfl

theorem calls_eq (hlist : blockListAt d s.start = some (h, behind)) :
    s.place.calls d = listCalls d h (h.numBlocks - 1) 1 behind := by
  have hplace : blockListAt d s.place.offset = some (h, behind) := hlist
  rw [Place.calls, hplace]

theorem badHeader_spec (hlist : blockListAt d s.start = some (h, behind)) (orig : Int)
    (hsum : h.computed ≠ h.checksum) :
    BodySpec d s (badHeader orig s) := by
  have hrejects : accepts d s.jnlEnd s.place = false := by
    simp [accepts_eq hlist, headerPasses, hsum]
  unfold badHeader
  split_ifs with hpast hstart
  · exact .stopped hrejects rfl rfl
  · exact .badReplay hrejects
  · exact .badTxn hrejects ⟨rfl, .inl rfl⟩

theorem processList_spec (hlist : blockListAt d s.start = some (h, behind))
    (hheader : headerPasses d s.jnlEnd s.place h = true) :
    BodySpec d s (processList d { s with lastSequenceNum := h.sequenceNum } h behind).2 := by
  have haccepts : accepts d s.jnlEnd s.place = listPasses d s.place h behind := by
    rw [accepts_eq hlist, hheader, Bool.true_and]
  rcases hscan : scanBlocks h (h.numBlocks - 1) 1 0 with ⟨scanned, _ | maxBsize⟩
  · have hrejects : accepts d s.jnlEnd s.place = false := by
      rw [haccepts, listPasses, hscan]
    simp only [processList, hscan]
    exact .badTxn hrejects ⟨rfl, .inl rfl⟩
  have hpasses : accepts d s.jnlEnd s.place =
      blocksPass d h (passFor h s.checkBlockChecksums maxBsize) (h.numBlocks - 1) 1 behind := by
    rw [haccepts, listPasses, hscan]
    rfl
  simp only [processList, hscan, accessing]
  rcases hadd : addList d h (passFor h s.checkBlockChecksums maxBsize) (h.numBlocks - 1) 1 behind
    s.table with ⟨added, (t | _ | f) | t⟩
  · exact .badTxn (hpasses.trans (not_pass_of_stop (congrArg Prod.snd hadd) (by simp)))
      ⟨rfl, txnStart_cases h s⟩
  · exact .panic (hpasses.trans (not_pass_of_stop (congrArg Prod.snd hadd) (by simp)))
  · refine .addFault fun hall => ?_
    have hcalls := (addList_of_pass (hpasses.symm.trans hall) s.table).symm.trans
      (congrArg Prod.snd hadd)
    rw [calls_eq hlist]
    exact addFault_injective hcalls
  have hall := blocksPass_of_addList (congrArg Prod.snd hadd)
  have hcalls := (addList_of_pass hall s.table).symm.trans (congrArg Prod.snd hadd)
  refine .advanced (hpasses.trans hall) ⟨⟨rfl, txnStart_cases h s⟩, ?_, ?_, rfl, rfl⟩
  · rw [next_eq hlist]
    rfl
  · rw [calls_eq hlist]
    exact addFault_injective hcalls

theorem checkHeader_of_passes (hheader : headerPasses d s.jnlEnd s.place h = true) :
    checkHeader d s h behind =
      processList d { s with lastSequenceNum := h.sequenceNum } h behind := by
  obtain ⟨_, hseq, hend, hbad⟩ := headerPasses_iff.mp hheader
  have hgoes : ¬ (s.start ≥ s.jnlEnd ∧ s.start ≤ s.jnlEnd ∧ h.sequenceNum = 0) := by
    rintro ⟨hge, hle, hzero⟩
    exact hend ⟨le_antisymm hle hge, hzero⟩
  exact (if_neg hseq).trans ((if_neg hgoes).trans (if_neg hbad))

theorem checkHeader_of_fails (hlist : blockListAt d s.start = some (h, behind))
    (hsum : h.computed = h.checksum) (hheader : headerPasses d s.jnlEnd s.place h = false) :
    (checkHeader d s h behind).1 = [] ∧ BodySpec d s (checkHeader d s h behind).2 := by
  have hrejects : accepts d s.jnlEnd s.place = false := by
    rw [accepts_eq hlist, hheader, Bool.false_and]
  simp only [checkHeader]
  split_ifs with hseq hpast hend hbad
  · exact ⟨rfl, .stopped hrejects rfl rfl⟩
  · exact ⟨rfl, .badTxn hrejects ⟨rfl, .inr rfl⟩⟩
  · exact ⟨rfl, .stopped hrejects rfl rfl⟩
  · exact ⟨rfl, .badTxn hrejects ⟨rfl, .inl rfl⟩⟩
  have hstart : ¬ (s.start = s.jnlEnd ∧ h.sequenceNum = 0) := fun ⟨heq, hzero⟩ =>
    hend ⟨heq.ge, heq.le, hzero⟩
  have hpasses := (headerPasses_iff (p := s.place)).mpr ⟨hsum, hseq, hstart, hbad⟩
  cases hpasses.symm.trans hheader

theorem body_spec (d : Disk) (orig : Int) (s : Replay) : BodySpec d s (body d orig s).2 := by
  unfold body
  cases hread : readJournalData d s.start d.blhdrSize with
  | panic =>
    refine .panic ?_
    simp [accepts, Replay.place, blockListAt, hread]
  | failed =>
    refine .badTxn ?_ ⟨rfl, .inl rfl⟩
    simp [accepts, Replay.place, blockListAt, hread]
  | done data behind =>
    have hlist : blockListAt d s.start = some (readBlockList d data, behind) := by
      rw [blockListAt, hread]
    simp only [accessing]
    split_ifs with hsum
    · exact badHeader_spec hlist orig hsum
    cases hheader : headerPasses d s.jnlEnd s.place (readBlockList d data) with
    | false => exact (checkHeader_of_fails hlist (not_not.mp hsum) hheader).2
    | true =>
      rw [checkHeader_of_passes hheader]
      exact processList_spec hlist hheader

end XnuXzs.Journal
