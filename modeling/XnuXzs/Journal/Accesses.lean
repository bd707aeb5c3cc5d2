import XnuXzs.Journal.Chain

/-!
# What the replay touches

The replay compares the number of entries of a block list with the size of the journal, not with
the bytes it has read. Here is what keeps it inside its buffers.
-/

namespace XnuXzs.Journal

open Lib List

/-- An entry is among those read; a size is positive and at most that of its buffer. -/
def Access.Ok (d : Disk) : Access → Prop
  | .entry i => (i : Int) < entriesRead d
  | .read size buffer => 0 < size ∧ ∃ b, buffer = some b ∧ size ≤ b
  | .add size maxBsize => 0 < size ∧ size ≤ maxBsize

variable {i n : Nat} {size maxBsize : Int} {d : Disk} {h : BlockList} {s : Replay}

@[simp] theorem Access.ok_entry :
    (Access.entry i).Ok d ↔ (i : Int) < entriesRead d := Iff.rfl

@[simp] theorem Access.ok_read {buffer : Option Int} :
    (Access.read size buffer).Ok d ↔ 0 < size ∧ ∃ b, buffer = some b ∧ size ≤ b := Iff.rfl

@[simp] theorem Access.ok_add :
    (Access.add size maxBsize).Ok d ↔ 0 < size ∧ size ≤ maxBsize := Iff.rfl

/-- A block number that makes the first pass give up. -/
def BlockInfo.Bogus (b : BlockInfo) : Prop := b.bnum < 0 ∧ b.bnum ≠ -1

instance (b : BlockInfo) : Decidable b.Bogus := inferInstanceAs (Decidable (_ ∧ _))

/-- Up to the first bogus one, the entries of a list are among those read. -/
def EntriesFit (d : Disk) (h : BlockList) (n i : Nat) : Prop :=
  ∀ j < n, (∀ k < j, ¬ (h.binfo (i + k)).Bogus) → ((i + j : Nat) : Int) < entriesRead d

/-- Up to the first bad one, the blocks have a size, and a buffer if they are checked. -/
def BlocksFit (d : Disk) (h : BlockList) (q : Pass) : Nat → Nat → Int → Prop
  | 0, _, _ => True
  | n + 1, i, offset =>
    let rest := BlocksFit d h q n (i + 1) (nextBlock d offset (h.binfo i).bsize)
    if (h.binfo i).bnum = -1 then rest
    else
      (0 < (h.binfo i).bsize ∧ (q.checkBlockChecksums = true → q.blockPtr.isSome)) ∧
        ((q.check d (h.binfo i) offset).2 = .pass → rest)

/-- A list with a good header stays inside the buffers. -/
def ListFits (d : Disk) (checking : Bool) (h : BlockList) (behind : Int) : Prop :=
  EntriesFit d h (h.numBlocks - 1) 1 ∧
    ∀ maxBsize ∈ (scanBlocks h (h.numBlocks - 1) 1 0).2,
      BlocksFit d h (passFor h checking maxBsize) (h.numBlocks - 1) 1 behind

/-- The block list that the next round reads, if its checksum is right, has a first entry, and
stays inside the buffers if its header is good. -/
def Fits (d : Disk) (jnlEnd : Int) (p : Place) : Prop :=
  ∀ l ∈ blockListAt d p.offset, l.1.computed = l.1.checksum →
    0 < entriesRead d ∧ (headerPasses d jnlEnd p l.1 = true → ListFits d p.checking l.1 l.2)

instance decidableBlocksFit (d : Disk) (h : BlockList) (q : Pass) :
    ∀ n i offset, Decidable (BlocksFit d h q n i offset)
  | 0, _, _ => inferInstanceAs (Decidable True)
  | n + 1, i, offset =>
    have := decidableBlocksFit d h q n (i + 1) (nextBlock d offset (h.binfo i).bsize)
    inferInstanceAs (Decidable (ite ((h.binfo i).bnum = -1) (BlocksFit d h q n (i + 1) _)
      ((0 < (h.binfo i).bsize ∧ (q.checkBlockChecksums = true → q.blockPtr.isSome)) ∧
        ((q.check d (h.binfo i) offset).2 = .pass → BlocksFit d h q n (i + 1) _))))

instance (d : Disk) (jnlEnd : Int) (p : Place) : Decidable (Fits d jnlEnd p) :=
  have (checking : Bool) (h : BlockList) (behind : Int) :
      Decidable (ListFits d checking h behind) :=
    have : Decidable (EntriesFit d h (h.numBlocks - 1) 1) := Nat.decidableBallLT _ _
    inferInstanceAs (Decidable (_ ∧ _))
  inferInstanceAs (Decidable (∀ l ∈ blockListAt d p.offset, _))

theorem entriesFit_succ :
    EntriesFit d h (n + 1) i ↔
      (i : Int) < entriesRead d ∧ (¬ (h.binfo i).Bogus → EntriesFit d h n (i + 1)) := by
  constructor
  · intro hfit
    refine ⟨hfit 0 (Nat.succ_pos n) fun k hk => absurd hk (Nat.not_lt_zero k), ?_⟩
    intro hgood j hj hbefore
    rw [add_right_comm]
    apply hfit (j + 1) (Nat.succ_lt_succ hj)
    intro k hk
    cases k with
    | zero => exact hgood
    | succ k =>
      rw [← add_assoc, add_right_comm]
      exact hbefore k (Nat.lt_of_succ_lt_succ hk)
  · rintro ⟨hi, hrest⟩ j hj hbefore
    cases j with
    | zero => exact hi
    | succ j =>
      have hgood := hbefore 0 (Nat.succ_pos j)
      rw [← add_assoc, add_right_comm]
      apply hrest hgood j (Nat.lt_of_succ_lt_succ hj)
      intro k hk
      rw [add_right_comm]
      exact hbefore (k + 1) (Nat.succ_lt_succ hk)

theorem scanBlocks_ok_iff (m : Int) :
    (∀ a ∈ (scanBlocks h n i m).1, a.Ok d) ↔ EntriesFit d h n i := by
  induction n generalizing i m with
  | zero =>
    apply iff_of_true (by simp [scanBlocks])
    intro j hj
    omega
  | succ n ih =>
    rw [entriesFit_succ, scanBlocks]
    by_cases hbogus : (h.binfo i).Bogus
    · have hb : (h.binfo i).bnum < 0 ∧ (h.binfo i).bnum ≠ -1 := hbogus
      simp [hb, hbogus]
    · have hb : ¬ ((h.binfo i).bnum < 0 ∧ (h.binfo i).bnum ≠ -1) := hbogus
      simp only [if_neg hb, accessing, singleton_append, forall_mem_cons, ih, hbogus,
        not_false_eq_true, forall_const, Access.ok_entry]

/-- A first pass that gets through saw no bogus number, and its result bounds the sizes. -/
theorem scanBlocks_some {m : Int} (hscan : (scanBlocks h n i m).2 = some maxBsize) :
    m ≤ maxBsize ∧ ∀ j, i ≤ j → j < i + n →
      ¬ (h.binfo j).Bogus ∧ u64 (h.binfo j).bsize ≤ maxBsize := by
  induction n generalizing i m with
  | zero =>
    cases hscan
    exact ⟨le_rfl, fun j hij hj => by omega⟩
  | succ n ih =>
    rw [scanBlocks] at hscan
    by_cases hb : (h.binfo i).bnum < 0 ∧ (h.binfo i).bnum ≠ -1
    · rw [if_pos hb] at hscan
      cases hscan
    rw [if_neg hb] at hscan
    obtain ⟨hmax, hrest⟩ := ih hscan
    refine ⟨(le_max_left ..).trans hmax, ?_⟩
    intro j hij hj
    rcases eq_or_lt_of_le hij with rfl | hlt
    · exact ⟨hb, (le_max_right ..).trans hmax⟩
    · exact hrest j hlt (by omega)

/-- What holds of a pass over a list that the first pass got through. -/
structure Scanned (d : Disk) (h : BlockList) (q : Pass) (n i : Nat) : Prop where
  entries : ∀ j, i ≤ j → j < i + n → (j : Int) < entriesRead d
  sizes : ∀ j, i ≤ j → j < i + n → 0 < (h.binfo j).bsize → (h.binfo j).bsize ≤ q.maxBsize
  buffer : ∀ b, q.blockPtr = some b → b = q.maxBsize

variable {q : Pass} {offset : Int}

theorem Scanned.tail (hs : Scanned d h q (n + 1) i) : Scanned d h q n (i + 1) where
  entries := fun j hij hj => hs.entries j (by omega) (by omega)
  sizes := fun j hij hj => hs.sizes j (by omega) (by omega)
  buffer := hs.buffer

theorem check_ok (hs : Scanned d h q (n + 1) i) (offset : Int) (hsize : 0 < (h.binfo i).bsize)
    (hbuffer : q.checkBlockChecksums = true → q.blockPtr.isSome) :
    ∀ a ∈ (q.check d (h.binfo i) offset).1, a.Ok d := by
  unfold Pass.check
  split_ifs with hcheck
  · obtain ⟨b, hb⟩ := Option.isSome_iff_exists.mp (hbuffer hcheck)
    have hle := hs.sizes i le_rfl (by omega) hsize
    simp only [mem_singleton, forall_eq, Access.ok_read]
    exact ⟨hsize, b, hb, by rwa [hs.buffer b hb]⟩
  · simp

/-- A block whose test stays inside has a size and a buffer; without a test, the table is given
the size. -/
theorem check_fits {b : BlockInfo} (hok : ∀ a ∈ (q.check d b offset).1, a.Ok d)
    (hadd : (q.check d b offset).2 = .pass → 0 < b.bsize) :
    0 < b.bsize ∧ (q.checkBlockChecksums = true → q.blockPtr.isSome) := by
  unfold Pass.check at hok hadd
  split_ifs at hok hadd with hcheck
  · simp only [mem_singleton, forall_eq, Access.ok_read] at hok
    obtain ⟨hsize, c, hc, _⟩ := hok
    exact ⟨hsize, fun _ => by simp [hc]⟩
  · exact ⟨hadd rfl, fun h => absurd h hcheck⟩

theorem addList_ok (hs : Scanned d h q n i) (t : Table) (hfit : BlocksFit d h q n i offset) :
    ∀ a ∈ (addList d h q n i offset t).1, a.Ok d := by
  induction n generalizing i offset t with
  | zero => simp [addList]
  | succ n ih =>
    have hentry := hs.entries i le_rfl (by omega)
    simp only [BlocksFit] at hfit
    simp only [addList, accessing]
    by_cases hkilled : (h.binfo i).bnum = -1
    · rw [if_pos hkilled] at hfit
      rw [if_pos hkilled]
      exact forall_mem_cons.mpr ⟨hentry, ih hs.tail t hfit⟩
    rw [if_neg hkilled] at hfit
    rw [if_neg hkilled]
    obtain ⟨⟨hsize, hbuffer⟩, hrest⟩ := hfit
    refine forall_mem_append.mpr
      ⟨forall_mem_cons.mpr ⟨hentry, check_ok hs offset hsize hbuffer⟩, ?_⟩
    cases hverdict : (q.check d (h.binfo i) offset).2 with
    | panic | bad => simp
    | pass =>
      refine forall_mem_cons.mpr ⟨⟨hsize, hs.sizes i le_rfl (by omega) hsize⟩, ?_⟩
      cases addBlock d.geometry t _ with
      | error => simp
      | ok u => exact ih hs.tail u (hrest hverdict)

theorem blocksFit_of_ok {t : Table} (hok : ∀ a ∈ (addList d h q n i offset t).1, a.Ok d)
    (hfault : ∀ f, (addList d h q n i offset t).2 ≠ .error (.addFault f)) :
    BlocksFit d h q n i offset := by
  induction n generalizing i offset t with
  | zero => trivial
  | succ n ih =>
    simp only [addList, accessing] at hok hfault
    simp only [BlocksFit]
    by_cases hkilled : (h.binfo i).bnum = -1
    · rw [if_pos hkilled] at hok hfault ⊢
      exact ih (forall_mem_cons.mp hok).2 hfault
    rw [if_neg hkilled] at hok hfault ⊢
    obtain ⟨hhead, hrest⟩ := forall_mem_append.mp hok
    refine ⟨check_fits (forall_mem_cons.mp hhead).2 ?_, ?_⟩
    · intro hunchecked
      rw [hunchecked] at hrest
      exact (forall_mem_cons.mp hrest).1.1
    intro hpass
    simp only [hpass] at hrest hfault
    have hrest := (forall_mem_cons.mp hrest).2
    cases hadd : addBlock d.geometry t ⟨(h.binfo i).bnum, u64 (h.binfo i).bsize, u64 offset,
        i32 (h.binfo i).cksum.toNat⟩ with
    | error => simp [hadd] at hfault
    | ok u =>
      simp only [hadd] at hrest hfault
      exact ih hrest hfault

theorem readBlockList_bsize (d : Disk) (data : List UInt8) (j : Nat) :
    ((readBlockList d data).binfo j).bsize < 2 ^ 31 := by
  change i32 _ < 2 ^ 31
  unfold i32
  omega

theorem blockListAt_bsize {offset behind : Int}
    (hlist : blockListAt d offset = some (h, behind)) (j : Nat) : (h.binfo j).bsize < 2 ^ 31 := by
  unfold blockListAt at hlist
  split at hlist
  · cases hlist
    exact readBlockList_bsize d _ j
  · cases hlist

theorem hfsMallocData_some {b : Int} (h : hfsMallocData size = some b) : b = size := by
  unfold hfsMallocData at h
  split_ifs at h
  exact (Option.some.inj h).symm

theorem scanned_of_fit (checking : Bool)
    (hint : ∀ j, (h.binfo j).bsize < 2 ^ 31) (hscan : (scanBlocks h n 1 0).2 = some maxBsize)
    (hfit : EntriesFit d h n 1) : Scanned d h (passFor h checking maxBsize) n 1 := by
  obtain ⟨_, hgood⟩ := scanBlocks_some hscan
  refine ⟨?_, ?_, ?_⟩
  · intro j hij hj
    have hj' := hfit (j - 1) (by omega) fun k hk => (hgood (1 + k) (by omega) (by omega)).1
    rwa [Nat.add_sub_of_le hij] at hj'
  · intro j hij hj hpos
    have hle := (hgood j hij hj).2
    have hlt := hint j
    rwa [u64_eq hpos.le (by omega)] at hle
  intro b hb
  simp only [passFor] at hb
  split_ifs at hb
  exact hfsMallocData_some hb

variable {behind : Int}

theorem processList_accesses_none (hscan : (scanBlocks h (h.numBlocks - 1) 1 0).2 = none) :
    (processList d s h behind).1 = (scanBlocks h (h.numBlocks - 1) 1 0).1 := by
  rcases hs : scanBlocks h (h.numBlocks - 1) 1 0 with ⟨scanned, r⟩
  rw [hs] at hscan
  cases hscan
  rw [processList, hs]

theorem processList_some {maxBsize : Int}
    (hscan : (scanBlocks h (h.numBlocks - 1) 1 0).2 = some maxBsize) :
    let added := addList d h (passFor h s.checkBlockChecksums maxBsize) (h.numBlocks - 1) 1 behind
      s.table
    (processList d s h behind).1 = (scanBlocks h (h.numBlocks - 1) 1 0).1 ++ added.1 ∧
      ∀ f, added.2 = .error (.addFault f) → (processList d s h behind).2 = .addFault f := by
  rcases hs : scanBlocks h (h.numBlocks - 1) 1 0 with ⟨scanned, r⟩
  rw [hs] at hscan
  cases hscan
  simp only [processList, hs, accessing]
  rcases addList d h (passFor h s.checkBlockChecksums maxBsize) (h.numBlocks - 1) 1 behind
    s.table with ⟨added, (t | _ | f) | t⟩ <;> simp

theorem processList_ok (hint : ∀ j, (h.binfo j).bsize < 2 ^ 31)
    (hfit : ListFits d s.checkBlockChecksums h behind) :
    ∀ a ∈ (processList d s h behind).1, a.Ok d := by
  obtain ⟨hentries, hblocks⟩ := hfit
  have hscanned := (scanBlocks_ok_iff 0).mpr hentries
  cases hscan : (scanBlocks h (h.numBlocks - 1) 1 0).2 with
  | none => rwa [processList_accesses_none hscan]
  | some maxBsize =>
    rw [(processList_some hscan).1]
    exact forall_mem_append.mpr ⟨hscanned,
      addList_ok (scanned_of_fit _ hint hscan hentries) _ (hblocks maxBsize hscan)⟩

theorem listFits_of_ok (hok : ∀ a ∈ (processList d s h behind).1, a.Ok d)
    (hfault : ∀ f, (processList d s h behind).2 ≠ .addFault f) :
    ListFits d s.checkBlockChecksums h behind := by
  cases hscan : (scanBlocks h (h.numBlocks - 1) 1 0).2 with
  | none =>
    rw [processList_accesses_none hscan] at hok
    refine ⟨(scanBlocks_ok_iff 0).mp hok, ?_⟩
    intro m hm
    cases hscan.symm.trans hm
  | some maxBsize =>
    obtain ⟨haccesses, hadd⟩ := @processList_some d h s behind maxBsize hscan
    rw [haccesses] at hok
    obtain ⟨hscanned, hadded⟩ := forall_mem_append.mp hok
    refine ⟨(scanBlocks_ok_iff 0).mp hscanned, ?_⟩
    intro m hm
    cases hscan.symm.trans hm
    exact blocksFit_of_ok hadded fun f hf => hfault f (hadd f hf)

theorem swapAccesses_ok (d : Disk) (h : BlockList) : ∀ a ∈ swapAccesses d h, a.Ok d := by
  intro a ha
  unfold swapAccesses at ha
  split_ifs at ha with hswap
  · obtain ⟨i, hi, rfl⟩ := mem_map.mp ha
    rw [mem_range] at hi
    simp only [swapsEntries, Bool.and_eq_true, decide_eq_true_eq, journalMaxBlocks_eq] at hswap
    rw [Access.ok_entry]
    omega
  · cases ha

/-- A round that reads a header with the right checksum touches what it swaps, the first entry
and what the list behind it makes it touch. -/
theorem body_of_list {behind : Int} (orig : Int)
    (hlist : blockListAt d s.start = some (h, behind)) (hsum : h.computed = h.checksum) :
    body d orig s = accessing (swapAccesses d h)
      (accessing [.entry 0] (checkHeader d s h behind)) := by
  unfold blockListAt at hlist
  split at hlist
  · rename_i data behind' hread
    cases hlist
    rw [body, hread]
    simp [hsum]
  · cases hlist

theorem body_ok (orig : Int) (hfits : Fits d s.jnlEnd s.place) :
    ∀ a ∈ (body d orig s).1, a.Ok d := by
  cases hread : readJournalData d s.start d.blhdrSize with
  | panic | failed => simp [body, hread]
  | done data behind =>
    have hlist : blockListAt d s.start = some (readBlockList d data, behind) := by
      rw [blockListAt, hread]
    by_cases hsum : (readBlockList d data).computed = (readBlockList d data).checksum
    · obtain ⟨hfirst, hpasses⟩ := hfits _ hlist hsum
      rw [body_of_list orig hlist hsum]
      refine forall_mem_append.mpr ⟨swapAccesses_ok d _, forall_mem_cons.mpr ⟨hfirst, ?_⟩⟩
      cases hheader : headerPasses d s.jnlEnd s.place (readBlockList d data) with
      | false => simp [(checkHeader_of_fails hlist hsum hheader).1]
      | true =>
        rw [checkHeader_of_passes hheader]
        exact processList_ok (blockListAt_bsize hlist) (hpasses hheader)
    · rw [body, hread]
      simp only [accessing, if_pos hsum, append_nil]
      exact swapAccesses_ok d _

theorem fits_of_ok {orig : Int} (hok : ∀ a ∈ (body d orig s).1, a.Ok d)
    (hfault : ∀ f, (body d orig s).2 ≠ .addFault f) : Fits d s.jnlEnd s.place := by
  rintro ⟨h, behind⟩ hlist hsum
  rw [body_of_list orig hlist hsum] at hok hfault
  obtain ⟨hfirst, hrest⟩ := forall_mem_cons.mp (forall_mem_append.mp hok).2
  refine ⟨hfirst, ?_⟩
  intro hheader
  rw [checkHeader_of_passes hheader] at hrest hfault
  exact listFits_of_ok (s := { s with lastSequenceNum := h.sequenceNum }) hrest hfault

/-- Whatever the replay touches in any number of rounds is inside its buffers. -/
def Disk.AccessesOk (d : Disk) : Prop := ∀ n, ∀ a ∈ (d.replay n).1, a.Ok d

/-- Every block list that a round reads fits. -/
def Disk.ListsFit (d : Disk) : Prop :=
  ∀ n s, (d.replay n).2 = .inr s → s.checkPastJnlEnd = true ∨ s.start ≠ s.jnlEnd →
    Fits d s.jnlEnd s.place

theorem accessesOk_of_fit (hfit : d.ListsFit) : d.AccessesOk := by
  intro n
  induction n with
  | zero => simp [Disk.replay]
  | succ n ih =>
    cases hn : (d.replay n).2 with
    | inl => rwa [replay_of_left hn]
    | inr s =>
      rw [replay_of_running hn]
      refine forall_mem_append.mpr ⟨ih, ?_⟩
      unfold round
      split_ifs with hgoes
      · exact body_ok _ (hfit n s hn hgoes)
      · simp

theorem fit_of_accessesOk (hfault : ∀ n f, (d.replay n).2 ≠ .inl (.addFault f))
    (hok : d.AccessesOk) : d.ListsFit := by
  intro n s hn hgoes
  have hround : round d d.origJnlStart s =
      ((body d d.origJnlStart s).1, (body d d.origJnlStart s).2.handle d.origJnlStart) :=
        if_pos hgoes
  have hnext := replay_of_running hn
  rw [hround] at hnext
  apply fits_of_ok
  · intro a ha
    apply hok (n + 1) a
    rw [hnext]
    exact mem_append_right _ ha
  intro f hf
  apply hfault (n + 1) f
  rw [hnext]
  simp only [accessing, hf]
  rfl

/-- The replay stays inside its buffers if every block list that it reads fits.
Unless the table faults, it does so only then. -/
theorem replay_accesses (d : Disk) :
    (d.ListsFit → d.AccessesOk) ∧
      ((∀ n f, (d.replay n).2 ≠ .inl (.addFault f)) → d.AccessesOk → d.ListsFit) :=
  ⟨accessesOk_of_fit, fit_of_accessesOk⟩

/-- One list with a block of 512 bytes that is checked. -/
def soundDisk : Disk := sampleDisk
  [2, 0, 2, 0, 0, 4, 0, 0, 243, 255, 245, 249, 3, 0, 0, 0,
    0, 0, 0, 0, 0, 0, 0, 0, 0, 0, 0, 0, 1, 0, 0, 0,
    8, 0, 0, 0, 0, 0, 0, 0, 0, 2, 0, 0, 255, 255, 255, 255]

theorem replay_accesses_sound :
    (.read 512 (some 512) : Access) ∈ (soundDisk.replay 1).1 ∧ soundDisk.AccessesOk := by
  have hlists : ∀ n < 3, ∀ s ∈ (soundDisk.replay n).2.getRight?,
      s.checkPastJnlEnd = true ∨ s.start ≠ s.jnlEnd → Fits soundDisk s.jnlEnd s.place := by
    decide +kernel
  have hleft : (soundDisk.replay 3).2.isLeft = true := by decide +kernel
  obtain ⟨r, hr⟩ := Sum.isLeft_iff.mp hleft
  have hafter (k : Nat) : (soundDisk.replay (3 + k)).2 = .inl r := by
    induction k with
    | zero => exact hr
    | succ k ih => rw [← add_assoc, replay_of_left ih, ih]
  refine ⟨by decide +kernel, (replay_accesses soundDisk).1 ?_⟩
  intro n s hn hgoes
  by_cases hlt : n < 3
  · exact hlists n hlt s (by rw [hn]; rfl) hgoes
  · have hn' := hafter (n - 3)
    rw [Nat.add_sub_of_le (Nat.le_of_not_lt hlt), hn] at hn'
    cases hn'

/-- A header of 64 bytes, where three entries fit, that says it has four. Its
checksum is right. -/
def overrunDisk : Disk :=
  { sampleDisk
      [4, 0, 4, 0, 0, 2, 0, 0, 244, 246, 248, 250, 0, 0, 0, 0,
        0, 0, 0, 0, 0, 0, 0, 0, 0, 0, 0, 0, 1, 0, 0, 0] with
    blhdrSize := 64
    blhdr_size_int := by decide }

/-- The last entry is behind the bytes that were read, and a block without a size
is passed on. -/
theorem replay_overruns :
    (.entry 3 : Access) ∈ (overrunDisk.replay 1).1 ∧ ¬ (Access.entry 3).Ok overrunDisk ∧
      (.add 0 0 : Access) ∈ (overrunDisk.replay 1).1 ∧ ¬ (Access.add 0 0).Ok overrunDisk := by
  refine ⟨by decide +kernel, ?_, by decide +kernel, ?_⟩
  · rw [Access.ok_entry]
    decide
  · rw [Access.ok_add]
    omega

end XnuXzs.Journal
