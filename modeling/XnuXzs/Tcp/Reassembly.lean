import XnuXzs.Tcp.Reass

/-!
# The stream behind the segments

Every entry of the queue stands at a position of the stream. The entries are in order
and apart, and what has been passed on is the stream from its start.
-/

namespace XnuXzs.Tcp

open Lib

variable {stream : Nat → UInt8} {first : UInt32}

structure Segment.At (stream : Nat → UInt8) (first : UInt32) (e : Segment) (pos : Nat) : Prop where
  seq : e.seq = seqAt first pos
  data : e.data = bytesAt stream pos e.len
  short : e.len < 2 ^ 31

/-- Entries in order from `lo` on, each behind the end of the one before, and below `lim`. -/
def Placed (stream : Nat → UInt8) (first : UInt32) (lim : Nat) : Nat → List Segment → Prop
  | lo, [] => lo ≤ lim
  | lo, e :: es => ∃ pos, lo ≤ pos ∧ pos < lim ∧ e.At stream first pos ∧
      Placed stream first lim (pos + e.len) es

theorem Segment.At.trim {e : Segment} {pos i : Nat} (h : e.At stream first pos) (hi : i ≤ e.len) :
    (e.trim i).At stream first (pos + i) := by
  constructor
  · show e.seq + UInt32.ofNat i = _
    rw [h.seq, seqAt_add]
  · show e.data.drop i = bytesAt stream (pos + i) (e.len - i)
    conv_lhs => rw [h.data, ← Nat.add_sub_of_le hi, bytesAt_append]
    exact List.drop_left' (bytesAt_length ..)
  · exact lt_of_le_of_lt (Nat.sub_le ..) h.short

variable {e q : Segment} {pos lo lim base : Nat} {es : List Segment} {d : Dsack} {dsackSet : Bool}

theorem Placed.le (h : Placed stream first lim lo es) : lo ≤ lim := by
  cases es with
  | nil => exact h
  | cons e es =>
    obtain ⟨pos, hpos, hlt, -⟩ := h
    exact hpos.trans hlt.le

theorem Placed.raise {lim' : Nat} (h : Placed stream first lim lo es) (hlim : lim ≤ lim') :
    Placed stream first lim' lo es := by
  induction es generalizing lo with
  | nil => exact le_trans h hlim
  | cons e es ih =>
    obtain ⟨pos, hpos, hlt, hat, hrest⟩ := h
    exact ⟨pos, hpos, hlt.trans_le hlim, hat, ih hrest⟩

/-- The queue before a segment at `pos` and behind it; `mid` is the end of the last one before. -/
structure Split (stream : Nat → UInt8) (first : UInt32) (pos lo lim : Nat)
    (before after : List Segment) (mid : Nat) : Prop where
  glue : ∀ rest, Placed stream first lim mid rest → Placed stream first lim lo (before ++ rest)
  last : ∀ p, before.getLast? = some p → ∃ ppos, p.At stream first ppos ∧ lo ≤ ppos ∧ ppos ≤ pos ∧
    ppos + p.len = mid
  none : before = [] → mid = lo
  mid_le : mid ≤ lim
  after : Placed stream first lim (pos + 1) after ∨ after = []

theorem seqGt_iff (he : e.At stream first pos) {qpos : Nat} (hq : q.At stream first qpos)
    (hpos : base ≤ pos ∧ pos < base + window) (hqpos : base ≤ qpos ∧ qpos < base + window) :
    seqGt q.seq e.seq = true ↔ pos < qpos := by
  unfold window at hpos hqpos
  rw [seqGt, hq.seq, he.seq, seqDiff_seqAt (by omega) (by omega), decide_eq_true_iff]
  omega

theorem splitQueue_spec (he : e.At stream first pos) (hpos : base ≤ pos ∧ pos < base + window)
    (hlim : lim ≤ base + window) (hlo : base ≤ lo) (h : Placed stream first lim lo es) :
    ∃ mid, Split stream first pos lo lim (splitQueue e es).1 (splitQueue e es).2 mid := by
  induction es generalizing lo with
  | nil => exact ⟨lo, fun _ => id, by simp [splitQueue], fun _ => rfl, h, .inr rfl⟩
  | cons q rest ih =>
    obtain ⟨qpos, hq, hqlt, hat, hrest⟩ := h
    have hgt := seqGt_iff he hat hpos ⟨hlo.trans hq, hqlt.trans_le hlim⟩
    by_cases hbeyond : pos < qpos
    · have hsplit : splitQueue e (q :: rest) = ([], q :: rest) := by
        simp [splitQueue, hgt.mpr hbeyond]
      rw [hsplit]
      exact ⟨lo, fun _ => id, by simp, fun _ => rfl, hq.trans hqlt.le,
        .inl ⟨qpos, hbeyond, hqlt, hat, hrest⟩⟩
    · obtain ⟨mid, hglue, hlast, hnone, hmid, hafter⟩ := ih (by omega) hrest
      have hsplit : splitQueue e (q :: rest) =
          (q :: (splitQueue e rest).1, (splitQueue e rest).2) := by
        simp [splitQueue, mt hgt.mp hbeyond]
      rw [hsplit]
      refine ⟨mid, fun tail htail => ⟨qpos, hq, hqlt, hat, hglue tail htail⟩,
        ?_, by simp, hmid, hafter⟩
      intro p hp
      rw [List.getLast?_cons] at hp
      cases hfront : (splitQueue e rest).1.getLast? with
      | none =>
        rw [hfront] at hp
        cases hp
        exact ⟨qpos, hat, hq, Nat.le_of_not_lt hbeyond,
          (hnone (List.getLast?_eq_none_iff.mp hfront)).symm⟩
      | some p' =>
        rw [hfront] at hp
        cases hp
        obtain ⟨ppos, hp, hplo, hple, hpend⟩ := hlast p' hfront
        exact ⟨ppos, hp, by omega, hple, hpend⟩

theorem trimAfter_placed (he : e.At stream first pos) (hend : pos + e.len ≤ lim) {k : Nat}
    (hk : pos + e.len < k + 2 ^ 31) (hlim : lim ≤ pos + 2 ^ 31) (h : Placed stream first lim k es) :
    Placed stream first lim (pos + e.len) (trimAfter e dsackSet d es).1 := by
  induction es generalizing d k with
  | nil => exact hend
  | cons q rest ih =>
    obtain ⟨qpos, hq, hqlt, hat, hrest⟩ := h
    have hover : overlapAfter e q = (pos + e.len : Nat) - qpos := by
      rw [overlapAfter, he.seq, seqAt_add, hat.seq, seqDiff_seqAt (by omega) (by omega)]
    unfold trimAfter
    dsimp only
    rw [hover]
    split
    · exact ⟨qpos, by omega, hqlt, hat, hrest⟩
    split
    · rename_i hpositive hpart
      have hi : ((pos + e.len : Nat) - (qpos : Int)).toNat ≤ q.len := by omega
      have hplace : qpos + ((pos + e.len : Nat) - (qpos : Int)).toNat = pos + e.len := by omega
      have hle := hrest.le
      have htrim := hat.trim hi
      rw [hplace] at htrim
      refine ⟨pos + e.len, le_rfl, by omega, htrim, ?_⟩
      have hqend : pos + e.len + (q.trim ((pos + e.len : Nat) - (qpos : Int)).toNat).len =
          qpos + q.len := by
        show pos + e.len + (q.len - _) = _
        omega
      rw [hqend]
      exact hrest
    · exact ih (by omega) hrest

theorem place_placed {mid begin : Nat} (he : e.At stream first begin) (hmid : mid ≤ begin)
    (hbegin : begin < lim) (hend : begin + e.len ≤ lim) (hlim : lim ≤ pos + 2 ^ 31)
    (hpos : pos ≤ begin) (h : Placed stream first lim (pos + 1) es ∨ es = []) :
    Placed stream first lim mid (e :: (trimAfter e dsackSet d es).1) := by
  refine ⟨begin, hmid, hbegin, he, ?_⟩
  rcases h with h | rfl
  · exact trimAfter_placed he hend (by omega) (by omega) h
  · exact hend

theorem insertSegment_placed (he : e.At stream first pos) (hpos : base ≤ pos ∧ pos < base + window)
    (hend : pos + e.len ≤ base + window) (h : Placed stream first (base + window) base es) :
    Placed stream first (base + window) base (insertSegment e d es).1 := by
  obtain ⟨mid, hglue, hlast, hnone, hmid, hafter⟩ := splitQueue_spec he hpos le_rfl le_rfl h
  have hlim : base + window ≤ pos + 2 ^ 31 := by
    unfold window
    omega
  unfold insertSegment
  dsimp only
  cases hbefore : (splitQueue e es).1.getLast? with
  | none =>
    have hmid := hnone (List.getLast?_eq_none_iff.mp hbefore)
    exact hglue _ (place_placed he (hmid ▸ hpos.1) hpos.2 hend hlim le_rfl hafter)
  | some p =>
    obtain ⟨ppos, hp, hplo, hple, hpend⟩ := hlast p hbefore
    have hshort := hp.short
    have hover : overlapBefore p e = (mid : Int) - pos := by
      unfold window at hpos hmid
      rw [overlapBefore, hp.seq, seqAt_add, hpend, he.seq, seqDiff_seqAt (by omega) (by omega)]
    dsimp only
    rw [hover]
    split
    · split
      · exact h
      have hi : ((mid : Int) - pos).toNat ≤ e.len := by omega
      have hplace : pos + ((mid : Int) - pos).toNat = mid := by omega
      have htrim := he.trim hi
      rw [hplace] at htrim
      have hlen : mid + (e.trim ((mid : Int) - pos).toNat).len = pos + e.len := by
        show mid + (e.len - _) = _
        omega
      exact hglue _ (place_placed htrim le_rfl (by omega) (by omega) hlim (by omega) hafter)
    · exact hglue _ (place_placed he (by omega) hpos.2 hend hlim le_rfl hafter)

/-- The queue and the socket have the stream. -/
structure Reassembled (stream : Nat → UInt8) (first : UInt32) (s : State) : Prop where
  /-- `rcv_nxt` is the number of the first byte that was not passed on. -/
  rcvNxt : s.rcvNxt = seqAt first s.passed
  /-- The queue is in order, its entries are apart, and at or after `rcv_nxt`. -/
  queue : Placed stream first (s.passed + window) s.passed s.segq
  /-- The socket has the stream up to `rcv_nxt`, or to where it was when the reading side
  was shut down. -/
  socket : s.socket ++ s.hand = bytesAt stream 0 (s.shutAt.getD s.passed)
  shut : ∀ n ∈ s.shutAt, n ≤ s.passed
  /-- Between calls nothing is on its way. -/
  hand : s.inprog = false → s.hand = []

variable {s : State}

theorem Reassembled.takeFirst (h : Reassembled stream first s) {rest : List Segment}
    (hhand : s.hand = []) (hq : s.segq = q :: rest) (hseq : q.seq = s.rcvNxt) :
    Reassembled stream first (takeFirst q rest s) := by
  have hplaced := h.queue
  rw [hq] at hplaced
  obtain ⟨pos, hpos, hlt, hat, hrest⟩ := hplaced
  have hhere : pos = s.passed := by
    rw [hat.seq, h.rcvNxt] at hseq
    unfold window at hlt
    exact seqAt_inj hseq hpos (by omega)
  subst hhere
  have hsocket := h.socket
  rw [hhand, List.append_nil] at hsocket
  constructor
  · show s.rcvNxt + UInt32.ofNat q.len = _
    rw [h.rcvNxt, seqAt_add]
    rfl
  · exact hrest.raise (by show s.passed + window ≤ s.passed + q.len + window; omega)
  · show s.socket ++ (if s.shutAt.isSome then [] else q.data) =
      bytesAt stream 0 (s.shutAt.getD (s.passed + q.len))
    cases hshut : s.shutAt with
    | some shut =>
      rw [hsocket, hshut]
      exact List.append_nil _
    | none =>
      rw [hsocket, hshut, Option.getD_none, Option.getD_none, bytesAt_append, zero_add, hat.data]
      rfl
  · exact fun n hn => (h.shut n hn).trans (Nat.le_add_right ..)
  · intro hidle
    cases hidle

theorem Reassembled.present (h : Reassembled stream first s) :
    Reassembled stream first (present s) := by
  unfold Tcp.present
  split
  · exact h
  rename_i q rest hq
  split_ifs with hgo
  · exact h
  · rw [not_or, not_not] at hgo
    exact h.takeFirst (h.hand (by simpa using hgo.2)) hq hgo.1

theorem Reassembled.tcpReass (h : Reassembled stream first s) {pr : Pressure} {e : Segment}
    {pos : Nat} (he : e.At stream first pos) (hpos : s.passed ≤ pos ∧ pos < s.passed + window)
    (hend : pos + e.len ≤ s.passed + window) : Reassembled stream first (tcpReass pr s e) := by
  unfold Tcp.tcpReass
  split
  · exact h
  · apply Reassembled.present
    exact { h with queue := insertSegment_placed he hpos hend h.queue }

theorem Reassembled.appendHand (h : Reassembled stream first s) :
    Reassembled stream first (appendHand s) := by
  have happended :
      Reassembled stream first { s with socket := s.socket ++ s.hand, hand := [] } := by
    exact ⟨h.rcvNxt, h.queue, by simpa using h.socket, h.shut, fun _ => rfl⟩
  have hidle : Reassembled stream first
      { s with socket := s.socket ++ s.hand, hand := [], inprog := false } :=
    { happended with hand := fun _ => rfl }
  unfold Tcp.appendHand
  dsimp only
  split
  · exact hidle
  rename_i q rest hq
  split_ifs with hseq
  · exact happended.takeFirst rfl hq hseq
  · exact hidle

theorem segmentAt_at {pos len : Nat} {fin psh : Bool} (hlen : len < 2 ^ 31) :
    (segmentAt stream first pos len fin psh).At stream first pos :=
  ⟨rfl, rfl, hlen⟩

/-- Whatever comes in whatever order, the socket gets the stream. -/
theorem reass_stream (stream : Nat → UInt8) (first : UInt32) :
    (reassSystem stream first).Always (Reassembled stream first) := by
  apply System.always_of_step
  · rintro s ⟨hrcv, hsegq, -, -, hsocket, hhand, hpassed, hshut⟩
    refine ⟨?_, ?_, ?_, by simp [hshut], fun _ => hhand⟩
    · rw [hrcv, hpassed, seqAt]
      simp
    · rw [hsegq]
      exact Nat.le_add_right ..
    · rw [hsocket, hhand, hshut, hpassed]
      rfl
  · intro s s' h hstep
    cases hstep with
    | arrive pr pos len fin psh hnew hpos hend hlen =>
      exact h.tcpReass (segmentAt_at hlen) ⟨hnew, hpos⟩ hend
    | append => exact h.appendHand
    | shutdown =>
      obtain ⟨hrcv, hqueue, hsocket, hshut, hhand⟩ := h
      refine ⟨hrcv, hqueue, hsocket.trans ?_, ?_, hhand⟩
      · cases s.shutAt <;> rfl
      · cases hat : s.shutAt with
        | none => simp
        | some n => simpa using hshut n hat

def freshState : State where
  rcvNxt := 0
  segq := []
  reassqlen := 0
  dsack := ⟨0, 0⟩
  inprog := false
  lastIsPsh := false
  shutAt := none
  socket := []
  hand := []
  flags := false
  passed := 0

/-- The reading side is shut down, and one byte comes, in order. -/
def shutRun : State :=
  appendHand (tcpReass ⟨false, false, 100, false⟩ { freshState with shutAt := some 0 }
    (segmentAt (fun _ => 7) 0 0 1 false false))

/-- The byte is passed over and not appended. -/
theorem shutRun_discards : (reassSystem (fun _ => 7) 0).Reachable shutRun ∧ shutRun.inprog = false ∧
    shutRun.rcvNxt = seqAt 0 1 ∧ shutRun.socket ≠ bytesAt (fun _ => 7) 0 1 := by
  have hstart : (reassSystem (fun _ => 7) 0).Reachable freshState :=
    .start ⟨rfl, rfl, rfl, rfl, rfl, rfl, rfl, rfl⟩
  have hshut : (reassSystem (fun _ => 7) 0).Reachable { freshState with shutAt := some 0 } :=
    .next hstart .shutdown
  refine ⟨.next (.next hshut (.arrive _ 0 1 false false ?_ ?_ ?_ ?_)) (.append rfl), rfl, rfl, ?_⟩
  · exact le_rfl
  · decide
  · decide
  · decide
  · decide

end XnuXzs.Tcp
