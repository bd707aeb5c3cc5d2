import XnuXzs.Lib.Machine

/-!
# The receive FIFO of the RPM link

The driver copies messages out of a circular FIFO by words. The length of a channel's name is
not compared with the bytes available, nor that of a chunk with the buffer.
-/

namespace XnuXzs.Rpm

open List

/-- The size of the FIFO and its read index. -/
structure Rx where
  size : Nat
  tail : Nat

/-- The write index and the fields of the message at the read index, as a step reads them. -/
structure Remote where
  head : Nat
  cmd : Nat
  param2 : Nat
  chunkSize : Nat

/-- A copy out of the FIFO: the size of its destination, the bytes stored, the words read. -/
structure Copy where
  room : Nat
  stored : Nat
  words : List Nat

/-- The bytes that were available, the copies made, and how far the read index is moved. -/
structure Turn where
  avail : Nat
  copies : List Copy
  count : Nat

def glinkCmdOpen : Nat := 2

def glinkCmdTxData : Nat := 9

def rxAvail (f : Rx) (head : Nat) : Nat :=
  if head < f.tail then (f.size + 2 ^ 32 - f.tail + head) % 2 ^ 32 else head - f.tail

/-- The words that a copy of `count` bytes reads; what is left over takes a whole word. -/
def ioread32Copy (src count : Nat) : List Nat :=
  (List.range ((count + 3) / 4)).map fun i => src + 4 * i

/-- The read index moved on, with the one correction at the end of the FIFO. -/
def Rx.moved (f : Rx) (count : Nat) : Nat :=
  let tail := (f.tail + count) % 2 ^ 32
  if f.size ≤ tail then tail - f.size else tail

def rxPeek (f : Rx) (room offset count : Nat) : Copy :=
  let tail := f.moved offset
  let len := min count ((f.size + 2 ^ 32 - tail) % 2 ^ 32)
  ⟨room, count, ioread32Copy tail len ++ ioread32Copy 0 (count - len)⟩

def rxAdvance (f : Rx) (count : Nat) : Rx := { f with tail := f.moved count }

def Remote.nameLen (r : Remote) : Nat := r.param2 % 2 ^ 16

def align8 (n : Nat) : Nat := (n + 7) % 2 ^ 32 / 8 * 8

/-- `xzs_rpm_glink_poll_step`. A data message is left to the acknowledgement loop, and every
other message than an open is eight bytes. -/
def glinkPollStep (f : Rx) (r : Remote) : Turn :=
  let avail := rxAvail f r.head
  if avail < 8 then ⟨avail, [], 0⟩
  else if r.cmd = glinkCmdOpen then
    ⟨avail, rxPeek f 8 0 8 :: if r.nameLen < 32 then [rxPeek f 32 8 r.nameLen] else [],
      8 + align8 r.nameLen⟩
  else ⟨avail, [rxPeek f 8 0 8], if r.cmd = glinkCmdTxData then 0 else 8⟩

/-- A turn of the acknowledgement loop. The step it may call reads the FIFO anew. -/
def ackTurn (f : Rx) (r again : Remote) : Turn :=
  let avail := rxAvail f r.head
  let total := (16 + align8 r.chunkSize) % 2 ^ 32
  if avail < 8 then ⟨avail, [], 0⟩
  else if r.cmd ≠ glinkCmdTxData then
    let step := glinkPollStep f again
    { step with copies := rxPeek f 8 0 8 :: step.copies }
  else if avail < 16 then ⟨avail, [rxPeek f 8 0 8], 0⟩
  else if avail < total then ⟨avail, [rxPeek f 8 0 8, rxPeek f 16 0 16], 0⟩
  else ⟨avail, [rxPeek f 8 0 8, rxPeek f 16 0 16, rxPeek f 128 16 r.chunkSize], total⟩

inductive Call
  | poll (r : Remote)
  | ack (r again : Remote)

def Call.turn (f : Rx) : Call → Turn
  | poll r => glinkPollStep f r
  | ack r again => ackTurn f r again

/-- The write indices are inside the FIFO. -/
def Call.Inside (f : Rx) : Call → Prop
  | poll r => r.head < f.size
  | ack r again => r.head < f.size ∧ again.head < f.size

structure Copy.Safe (f : Rx) (c : Copy) : Prop where
  stored : c.stored ≤ c.room
  words : ∀ w ∈ c.words, w + 4 ≤ f.size

structure Turn.Safe (f : Rx) (t : Turn) : Prop where
  copies : ∀ c ∈ t.copies, c.Safe f
  tail : (rxAdvance f t.count).tail < f.size
  count : t.count ≤ t.avail

inductive Run (start : Rx) : Rx → Prop
  | start : Run start start
  | call {f : Rx} (call : Call) (hrun : Run start f) (hinside : call.Inside f)
      (hsafe : (call.turn f).Safe f) : Run start (rxAdvance f (call.turn f).count)

def Remote.NameFits (f : Rx) (r : Remote) : Prop :=
  8 ≤ rxAvail f r.head → r.cmd = glinkCmdOpen → 8 + align8 r.nameLen ≤ rxAvail f r.head

/-- A name is available, and a chunk that is copied has room. -/
def Call.Fits (f : Rx) : Call → Prop
  | poll r => r.NameFits f
  | ack r again =>
    if r.cmd = glinkCmdTxData then
      16 ≤ rxAvail f r.head → (16 + align8 r.chunkSize) % 2 ^ 32 ≤ rxAvail f r.head →
        r.chunkSize ≤ 128
    else 8 ≤ rxAvail f r.head → again.NameFits f

/-- A FIFO of whole words, and a read index at one of them. -/
structure Rx.Ok (f : Rx) : Prop where
  size : f.size % 4 = 0
  small : f.size ≤ 2 ^ 31
  tail : f.tail < f.size
  aligned : f.tail % 4 = 0

variable {f : Rx} {r again : Remote} {count : Nat}

theorem moved_lt (h : f.Ok) (hcount : count ≤ f.size) :
    f.moved count < f.size ∧ (count % 4 = 0 → f.moved count % 4 = 0) := by
  obtain ⟨hsize, hsmall, htail, haligned⟩ := h
  simp only [Rx.moved]
  split <;> omega

theorem avail_lt {head : Nat} (h : f.Ok) (hhead : head < f.size) : rxAvail f head < f.size := by
  obtain ⟨-, hsmall, htail, -⟩ := h
  unfold rxAvail
  split <;> omega

theorem rxPeek_safe {room offset : Nat} (h : f.Ok) (hroom : count ≤ room)
    (hoffset : offset ≤ f.size) (hfour : offset % 4 = 0) (hcount : count ≤ f.size) :
    (rxPeek f room offset count).Safe f := by
  obtain ⟨hmoved, haligned⟩ := moved_lt h hoffset
  have hfour' := haligned hfour
  have hsize := h.size
  have hsmall := h.small
  constructor
  · exact hroom
  · intro w hw
    simp only [rxPeek, ioread32Copy, mem_append, mem_map, mem_range] at hw
    obtain ⟨i, hi, rfl⟩ | ⟨i, hi, rfl⟩ := hw <;> omega

theorem Turn.safe {t : Turn} (h : f.Ok) (havail : t.avail < f.size) (hcount : t.count ≤ t.avail)
    (hcopies : ∀ c ∈ t.copies, c.Safe f) : t.Safe f :=
  ⟨hcopies, (moved_lt h (hcount.trans havail.le)).1, hcount⟩

theorem glinkPollStep_safe_iff (h : f.Ok) (hhead : r.head < f.size) :
    (glinkPollStep f r).Safe f ↔ r.NameFits f := by
  have havail := avail_lt h hhead
  have hmsg : 8 ≤ rxAvail f r.head → (rxPeek f 8 0 8).Safe f := by
    intro hle
    apply rxPeek_safe h <;> omega
  simp only [glinkPollStep, Remote.NameFits]
  split_ifs with hless hopen hname htx
  · exact iff_of_true (Turn.safe h havail (Nat.zero_le _) (by simp)) (by omega)
  · constructor
    · intro hsafe _ _
      exact hsafe.count
    · intro hfits
      have hle := hfits (by omega) hopen
      have hpeek : (rxPeek f 32 8 r.nameLen).Safe f := by
        unfold align8 at hle
        apply rxPeek_safe h <;> omega
      exact Turn.safe h havail hle (by simp [hmsg (by omega), hpeek])
  · constructor
    · intro hsafe _ _
      exact hsafe.count
    · intro hfits
      exact Turn.safe h havail (hfits (by omega) hopen) (by simp [hmsg (by omega)])
  all_goals
    apply iff_of_true _ fun _ hcmd => absurd hcmd hopen
    exact Turn.safe h havail (by dsimp only; omega) (by simp [hmsg (by omega)])

theorem ackTurn_safe_iff (h : f.Ok) (hhead : r.head < f.size) (hagain : again.head < f.size) :
    (ackTurn f r again).Safe f ↔ (Call.ack r again).Fits f := by
  have havail := avail_lt h hhead
  have hmsg : 8 ≤ rxAvail f r.head → (rxPeek f 8 0 8).Safe f := by
    intro hle
    apply rxPeek_safe h <;> omega
  have hhdr : 16 ≤ rxAvail f r.head → (rxPeek f 16 0 16).Safe f := by
    intro hle
    apply rxPeek_safe h <;> omega
  by_cases hcmd : r.cmd = glinkCmdTxData
  · simp only [ackTurn, Call.Fits, hcmd, ne_eq, not_true_eq_false, if_false, if_true]
    split_ifs with hless hshort htotal
    · exact iff_of_true (Turn.safe h havail (Nat.zero_le _) (by simp)) (by omega)
    · exact iff_of_true (Turn.safe h havail (Nat.zero_le _) (by simp [hmsg (by omega)])) (by omega)
    · exact iff_of_true (Turn.safe h havail (Nat.zero_le _)
        (by simp [hmsg (by omega), hhdr (by omega)])) (by omega)
    · constructor
      · intro hsafe _ _
        exact (hsafe.copies (rxPeek f 128 16 r.chunkSize) (by simp)).stored
      · intro hfits
        have hchunk := hfits (by omega) (by omega)
        have hpeek : (rxPeek f 128 16 r.chunkSize).Safe f := by
          unfold align8 at htotal
          apply rxPeek_safe h <;> omega
        exact Turn.safe h havail (not_lt.mp htotal)
          (by simp [hmsg (by omega), hhdr (by omega), hpeek])
  · simp only [ackTurn, Call.Fits, hcmd, ne_eq, not_false_eq_true, if_false, if_true]
    split_ifs with hless
    · exact iff_of_true (Turn.safe h havail (Nat.zero_le _) (by simp)) (by omega)
    · rw [forall_prop_of_true (by omega), ← glinkPollStep_safe_iff h hagain]
      constructor
      · intro hsafe
        exact ⟨fun c hc => hsafe.copies c (mem_cons_of_mem _ hc), hsafe.tail, hsafe.count⟩
      · intro hsafe
        exact ⟨forall_mem_cons.mpr ⟨hmsg (by omega), hsafe.copies⟩, hsafe.tail, hsafe.count⟩

theorem align8_mod (n : Nat) : align8 n % 4 = 0 := by
  unfold align8
  omega

theorem glinkPollStep_ok (h : f.Ok) (hhead : r.head < f.size) :
    (glinkPollStep f r).avail < f.size ∧ (glinkPollStep f r).count % 4 = 0 := by
  have havail := avail_lt h hhead
  have hname := align8_mod r.nameLen
  simp only [glinkPollStep]
  split_ifs <;> exact ⟨havail, by dsimp only <;> omega⟩

theorem Call.turn_ok {call : Call} (h : f.Ok) (hinside : call.Inside f) :
    (call.turn f).avail < f.size ∧ (call.turn f).count % 4 = 0 := by
  cases call with
  | poll r => exact glinkPollStep_ok h hinside
  | ack r again =>
    have havail := avail_lt h hinside.1
    have hchunk := align8_mod r.chunkSize
    simp only [turn, ackTurn]
    split_ifs
    any_goals exact ⟨havail, rfl⟩
    · exact glinkPollStep_ok h hinside.2
    · exact ⟨havail, by dsimp only; omega⟩

theorem Run.ok {start : Rx} (hrun : Run start f) (h : start.Ok) : f.Ok := by
  induction hrun with
  | start => exact h
  | call call _ hinside hsafe ih =>
    obtain ⟨havail, hfour⟩ := call.turn_ok ih hinside
    exact ⟨ih.size, ih.small, hsafe.tail, (moved_lt ih (hsafe.count.trans havail.le)).2 hfour⟩

/-- **Messages of any remote processor.** After safe calls, the next call is safe if and only if
the lengths in its messages fit. -/
theorem receive_safe_iff {start : Rx} (h : start.Ok) (hrun : Run start f) {call : Call}
    (hinside : call.Inside f) : (call.turn f).Safe f ↔ call.Fits f := by
  cases call with
  | poll r => exact glinkPollStep_safe_iff (hrun.ok h) hinside
  | ack r again => exact ackTurn_safe_iff (hrun.ok h) hinside.1 hinside.2

/-- An open behind a message of eight bytes. -/
theorem receive_safe_open : ((Call.poll ⟨32, 2, 13, 0⟩).turn ⟨1024, 8⟩).Safe ⟨1024, 8⟩ := by
  have hok : (⟨1024, 0⟩ : Rx).Ok := ⟨by decide, by decide, by decide, by decide⟩
  have hfirst : (glinkPollStep ⟨1024, 0⟩ ⟨32, 0, 0, 0⟩).Safe ⟨1024, 0⟩ := by
    refine ⟨?_, by decide, by decide⟩
    rintro c (_ | ⟨_, ⟨⟩⟩)
    exact ⟨by decide, by decide⟩
  have hrun : Run ⟨1024, 0⟩ ⟨1024, 8⟩ :=
    .call (.poll ⟨32, 0, 0, 0⟩) .start (show 32 < 1024 by decide) hfirst
  have hinside : (Call.poll ⟨32, 2, 13, 0⟩).Inside ⟨1024, 8⟩ := show 32 < 1024 by decide
  apply (receive_safe_iff hok hrun hinside).mpr
  intro _ _
  decide

/-- A chunk of 136 bytes is stored in 128 bytes, and an open of eight bytes moves the read index
over 72. -/
theorem receive_overrun :
    (∃ c ∈ (ackTurn ⟨1024, 0⟩ ⟨512, 9, 0, 136⟩ ⟨0, 0, 0, 0⟩).copies, c.room < c.stored) ∧
    (glinkPollStep ⟨1024, 0⟩ ⟨8, 2, 64, 0⟩).avail <
      (glinkPollStep ⟨1024, 0⟩ ⟨8, 2, 64, 0⟩).count := by
  decide

end XnuXzs.Rpm
