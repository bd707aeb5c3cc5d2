import XnuXzs.Lib.Orbit
import XnuXzs.Journal.Chain

/-!
# When the replay comes to an end

A retry goes over the part of the chain that the first pass has seen. The first pass goes on for
ever exactly if the chain comes back to a place with all on the way accepted and the table never
faults.
-/

namespace XnuXzs.Journal

open Lib

theorem Place.next_offset (d : Disk) (p : Place) : (p.next d).offset = nextOffset d p.offset := by
  unfold Place.next nextOffset
  cases blockListAt d p.offset <;> rfl

/-- The `n`-th place of the chain from the start of the journal. -/
def Disk.chainPlace (d : Disk) (n : Nat) : Place :=
  (Place.next d)^[n] ⟨d.origJnlStart, 0, false⟩

/-- The table with the blocks of the first `n` lists, or the fault of `add_block` on the way. -/
def Disk.chainTable (d : Disk) : Nat → Except Fault Table
  | 0 => .ok Table.empty
  | n + 1 => do addBlocks d.geometry (← d.chainTable n) ((d.chainPlace n).calls d)

/-- The chain from the start of the journal comes back to a place with every list on the way
accepted, and `add_block` takes the blocks of its lists for as long as it goes round. -/
def Disk.Cyclic (d : Disk) : Prop :=
  d.origJnlStart ≠ d.origJnlEnd ∧
    Revisits (Place.next d) (fun p => accepts d d.origJnlEnd p = true) ⟨d.origJnlStart, 0, false⟩ ∧
    ∀ n, ∃ t, d.chainTable n = .ok t

/-- The `n`-th list is accepted and its blocks go into the table. -/
def Disk.Takes (d : Disk) (n : Nat) : Prop :=
  accepts d d.origJnlEnd (d.chainPlace n) = true ∧ ∃ t, d.chainTable (n + 1) = .ok t

variable {d : Disk} {n i k : Nat} {s s' : Replay}

theorem accepts_offset {jnlEnd : Int} {p : Place} (h : accepts d jnlEnd p = true) :
    0 ≤ p.offset ∧ p.offset ≤ d.geometry.size := by
  by_contra hout
  have hpanic : readJournalData d p.offset d.blhdrSize = .panic := if_pos (by omega)
  simp [accepts, blockListAt, hpanic] at h

/-- Only places inside the journal are accepted, and there are finitely many. -/
theorem accepts_finite (d : Disk) (jnlEnd : Int) : {p | accepts d jnlEnd p = true}.Finite := by
  have : Finite UInt32 := Finite.of_injective UInt32.toFin fun _ _ => UInt32.toFin_inj.mp
  let places := Set.Icc 0 d.geometry.size ×ˢ (Set.univ : Set (UInt32 × Bool))
  have hfin : places.Finite := (Set.finite_Icc 0 _).prod Set.finite_univ
  apply (hfin.image fun x => (⟨x.1, x.2.1, x.2.2⟩ : Place)).subset
  intro p hp
  exact ⟨(p.offset, p.lastSequenceNum, p.checking), ⟨accepts_offset hp, trivial⟩, rfl⟩

inductive Ends (d : Disk) : Replay → Prop
  | left {s : Replay} {r : Result} : (round d d.origJnlStart s).2 = .inl r → Ends d s
  | again {s s' : Replay} : (round d d.origJnlStart s).2 = .inr s' → Ends d s' → Ends d s

theorem replay_succ (h : (d.replay n).2 = .inr s) :
    (d.replay (n + 1)).2 = (round d d.origJnlStart s).2 := by
  rw [replay_of_running h]
  rfl

theorem Ends.replay (hends : Ends d s) :
    ∀ n, (d.replay n).2 = .inr s → ∃ m r, (d.replay m).2 = .inl r := by
  induction hends with
  | left hround =>
    intro n hn
    exact ⟨n + 1, _, (replay_succ hn).trans hround⟩
  | again hround _ ih =>
    intro n hn
    exact ih (n + 1) ((replay_succ hn).trans hround)

theorem round_spec {d : Disk} {s : Replay} (h : s.checkPastJnlEnd = true ∨ s.start ≠ s.jnlEnd) :
    ∃ o, BodySpec d s o ∧ (round d d.origJnlStart s).2 = o.handle d.origJnlStart :=
  ⟨_, body_spec d d.origJnlStart s, by rw [round, if_pos h]⟩

theorem ends_of_stopped (hpast : s.checkPastJnlEnd = false) (hstart : s.start = s.jnlEnd) :
    Ends d s :=
  .left (r := .done s) (by simp [round, hpast, hstart])

def Disk.chainOffset (d : Disk) (i : Nat) : Int := (nextOffset d)^[i] d.origJnlStart

def TxnOnChain (d : Disk) (s : Replay) : Prop :=
  s.txnStartOffset = 0 ∨ ∃ c, s.txnStartOffset = d.chainOffset c

theorem SamePass.txnOnChain (h : SamePass s s') (hs : TxnOnChain d s)
    (hstart : s.start = d.chainOffset i) : TxnOnChain d s' := by
  rcases h.txnStartOffset with hold | hnew
  · rwa [TxnOnChain, hold]
  · exact .inr ⟨i, hnew.trans hstart⟩

theorem Advances.chainOffset (h : Advances d s s') (hstart : s.start = d.chainOffset i) :
    s'.start = d.chainOffset (i + 1) := by
  have hnext : s'.start = nextOffset d s.start :=
    (congrArg Place.offset h.place).trans (Place.next_offset d s.place)
  rw [hnext, hstart, Disk.chainOffset, Disk.chainOffset, Function.iterate_succ_apply']

/-- A retry stands on the chain, and its end is further on. -/
structure Retrying (d : Disk) (k : Nat) (s : Replay) : Prop where
  checkPastJnlEnd : s.checkPastJnlEnd = false
  retries : s.retryCount + k = 3
  txnOnChain : TxnOnChain d s

theorem ends_of_badTxn (hretries : s'.retryCount + k = 3) (hchain : TxnOnChain d s')
    (hround : (round d d.origJnlStart s).2 = badTxnHandling d.origJnlStart s')
    (hretry : ∀ k' < k, ∀ s b, Retrying d k' s → s.start = d.chainOffset 0 →
      s.jnlEnd = d.chainOffset b → Ends d s) :
    Ends d s := by
  unfold badTxnHandling at hround
  split_ifs at hround with hzero hthree
  · exact .left hround
  · exact .left hround
  obtain ⟨c, hc⟩ := hchain.resolve_left hzero
  refine .again hround (hretry (k - 1) (by omega) _ c ⟨rfl, ?_, .inr ⟨c, hc⟩⟩ rfl hc)
  change s'.retryCount + 1 + (k - 1) = 3
  omega

/-- Retries come to an end: each goes along the chain to a point that is ahead. -/
theorem retry_ends (hs : Retrying d k s) {a : Nat} (hstart : s.start = d.chainOffset a)
    (hend : s.jnlEnd = d.chainOffset (a + n)) : Ends d s := by
  induction k using Nat.strong_induction_on generalizing s a n with
  | _ k ihk =>
    induction n generalizing s a with
    | zero => exact ends_of_stopped hs.checkPastJnlEnd (hstart.trans hend.symm)
    | succ n ihn =>
      by_cases hdone : s.start = s.jnlEnd
      · exact ends_of_stopped hs.checkPastJnlEnd hdone
      obtain ⟨o, hspec, hround⟩ := round_spec (d := d) (.inr hdone)
      cases hspec with
      | advanced _ hadv =>
        refine .again hround (ihn ⟨?_, ?_, ?_⟩ (hadv.chainOffset hstart) ?_)
        · rw [hadv.checkPastJnlEnd, hs.checkPastJnlEnd]
        · rw [hadv.retryCount, hs.retries]
        · exact hadv.toSamePass.txnOnChain hs.txnOnChain hstart
        · rw [hadv.jnlEnd, hend, add_right_comm, add_assoc]
      | stopped _ hpast hstop => exact .again hround (ends_of_stopped hpast hstop)
      | badTxn _ hsame =>
        refine ends_of_badTxn (hsame.retryCount ▸ hs.retries)
          (hsame.txnOnChain hs.txnOnChain hstart)
          hround ?_
        intro k' hk' s b hs' hstart' hend'
        exact ihk k' hk' hs' hstart' (by rwa [zero_add])
      | badReplay | panic | addFault => exact .left hround

/-- The first pass after `n` rounds: it stands at the `n`-th place of the chain. -/
structure FirstPass (d : Disk) (n : Nat) (s : Replay) : Prop where
  place : s.place = d.chainPlace n
  table : d.chainTable n = .ok s.table
  jnlEnd : s.jnlEnd = d.origJnlEnd
  checkPastJnlEnd : s.checkPastJnlEnd = true
  retryCount : s.retryCount = 0
  start : s.start = d.chainOffset n
  txnOnChain : TxnOnChain d s

theorem FirstPass.initial (d : Disk) : FirstPass d 0 d.initial :=
  ⟨rfl, rfl, rfl, rfl, rfl, rfl, .inl rfl⟩

theorem FirstPass.chainTable_succ (hs : FirstPass d n s) :
    d.chainTable (n + 1) = addBlocks d.geometry s.table (s.place.calls d) := by
  rw [Disk.chainTable, hs.table, hs.place]
  rfl

theorem FirstPass.advance (hs : FirstPass d n s) (hadv : Advances d s s') :
    FirstPass d (n + 1) s' where
  place := by
    rw [hadv.place, hs.place, Disk.chainPlace, Disk.chainPlace, Function.iterate_succ_apply']
  table := hs.chainTable_succ.trans hadv.table
  jnlEnd := hadv.jnlEnd.trans hs.jnlEnd
  checkPastJnlEnd := hadv.checkPastJnlEnd.trans hs.checkPastJnlEnd
  retryCount := hadv.retryCount.trans hs.retryCount
  start := hadv.chainOffset hs.start
  txnOnChain := hadv.toSamePass.txnOnChain hs.txnOnChain hs.start

theorem FirstPass.takes (hs : FirstPass d n s) (haccepts : accepts d s.jnlEnd s.place = true)
    (hadv : Advances d s s') : d.Takes n := by
  rw [hs.place, hs.jnlEnd] at haccepts
  exact ⟨haccepts, s'.table, hs.chainTable_succ.trans hadv.table⟩

theorem FirstPass.ends (hs : FirstPass d n s) (hrefuses : ¬ d.Takes n) : Ends d s := by
  obtain ⟨o, hspec, hround⟩ := round_spec (d := d) (.inl hs.checkPastJnlEnd)
  cases hspec with
  | advanced haccepts hadv => exact absurd (hs.takes haccepts hadv) hrefuses
  | stopped _ hpast hstop => exact .again hround (ends_of_stopped hpast hstop)
  | badTxn _ hsame =>
    refine ends_of_badTxn (k := 3) ?_ (hsame.txnOnChain hs.txnOnChain hs.start) hround ?_
    · rw [hsame.retryCount, hs.retryCount]
    · intro k' _ s b hs' hstart' hend'
      exact retry_ends hs' hstart' (by rwa [zero_add])
  | badReplay | panic | addFault => exact .left hround

theorem firstPass_of_takes (hne : d.origJnlStart ≠ d.origJnlEnd) (htakes : ∀ m < n, d.Takes m) :
    ∃ s, (d.replay n).2 = .inr s ∧ FirstPass d n s := by
  induction n with
  | zero => exact ⟨d.initial, if_neg hne, FirstPass.initial d⟩
  | succ n ih =>
    obtain ⟨s, hn, hs⟩ := ih fun m hm => htakes m (Nat.lt_succ_of_lt hm)
    obtain ⟨haccepts, t, htable⟩ := htakes n (Nat.lt_succ_self n)
    rw [← hs.place, ← hs.jnlEnd] at haccepts
    rw [hs.chainTable_succ] at htable
    obtain ⟨o, hspec, hround⟩ := round_spec (d := d) (.inl hs.checkPastJnlEnd)
    rw [← replay_succ hn] at hround
    cases hspec with
    | advanced _ hadv => exact ⟨_, hround, hs.advance hadv⟩
    | stopped hrejects | badTxn hrejects | badReplay hrejects | panic hrejects =>
      cases hrejects.symm.trans haccepts
    | addFault hfault => cases (hfault haccepts).symm.trans htable

theorem Disk.Cyclic.takes (hchain : d.Cyclic) (n : Nat) : d.Takes n :=
  ⟨hchain.2.1.stays n, hchain.2.2 (n + 1)⟩

theorem cyclic_of_takes (hne : d.origJnlStart ≠ d.origJnlEnd) (htakes : ∀ n, d.Takes n) :
    d.Cyclic := by
  refine ⟨hne, Stays.revisits (fun n => (htakes n).1) (accepts_finite d _), ?_⟩
  intro n
  cases n with
  | zero => exact ⟨Table.empty, rfl⟩
  | succ n => exact (htakes n).2

open Classical in
/-- Along a chain that is not cyclic there is a first block list that is not taken. -/
theorem left_of_not_cyclic (hchain : ¬ d.Cyclic) : ∃ n r, (d.replay n).2 = .inl r := by
  by_cases hne : d.origJnlStart = d.origJnlEnd
  · exact ⟨0, .done d.initial, if_pos hne⟩
  have hleaves : ∃ n, ¬ d.Takes n := by
    by_contra hstays
    exact hchain (cyclic_of_takes hne (by simpa using hstays))
  have hbefore (m : Nat) (hm : m < Nat.find hleaves) := not_not.mp (Nat.find_min hleaves hm)
  obtain ⟨s, hn, hs⟩ := firstPass_of_takes hne hbefore
  exact (hs.ends (Nat.find_spec hleaves)).replay _ hn

/-- The replay comes to an end exactly if the chain of block lists is not cyclic. -/
theorem replay_ends_iff (d : Disk) : (∃ n r, (d.replay n).2 = .inl r) ↔ ¬ d.Cyclic := by
  constructor
  · rintro ⟨n, r, hleft⟩ hchain
    obtain ⟨s, hn, _⟩ := firstPass_of_takes hchain.1 fun m (_ : m < n) => hchain.takes m
    cases hn.symm.trans hleft
  · exact left_of_not_cyclic

/-- One block list: no blocks, sequence number 1, the right checksum, and no bytes used. -/
def stuckDisk : Disk := sampleDisk
  [1, 0, 1, 0, 0, 0, 0, 0, 252, 252, 255, 255, 0, 0, 0, 0,
    0, 0, 0, 0, 0, 0, 0, 0, 0, 0, 0, 0, 1, 0, 0, 0]

def stuckState : Replay := { stuckDisk.initial with lastSequenceNum := 1 }

/-- The start never moves, so the replay goes on for ever. -/
theorem replay_stuck :
    (blockListAt stuckDisk 512).map (fun l => l.1.computed == l.1.checksum) = some true ∧
      ∀ n r, (stuckDisk.replay n).2 ≠ .inl r := by
  have hfirst : (round stuckDisk stuckDisk.origJnlStart stuckDisk.initial).2 = .inr stuckState := by
    decide +kernel
  have hround : (round stuckDisk stuckDisk.origJnlStart stuckState).2 = .inr stuckState := by
    decide +kernel
  have hstuck (n : Nat) : (stuckDisk.replay (n + 1)).2 = .inr stuckState := by
    induction n with
    | zero => exact (replay_succ rfl).trans hfirst
    | succ n ih => exact (replay_succ ih).trans hround
  refine ⟨by decide +kernel, ?_⟩
  intro n r hleft
  cases n with
  | zero => cases hleft
  | succ n => cases (hstuck n).symm.trans hleft

end XnuXzs.Journal
