import XnuXzs.Tcp.SackCall

/-!
# Runs of the scoreboard

Between the calls of `tcp_sack_doack` the rest of TCP sends, retransmits, and frees the holes.
The calls are right exactly if the limit on holes fits into their 16-bit counter.
-/

namespace XnuXzs.Tcp

open Lib List

def tcpFreeSackholes (b : Board) : Board :=
  { b with
    holes := []
    numholes := b.holes.foldl (fun n _ => i16 (n - 1)) b.numholes
    bytesRexmit := 0 }

/-- The hole that `tcp_sack_partialack` makes up to `snd_recover`, if there is none. -/
def tcpSackPartialack (env : Env) (b : Board) (recover : UInt32) : Board :=
  if seqLt b.sndFack recover ∧ b.holes = [] then
    match sackholeAlloc env ⟨b.numholes, b.bytesRexmit, 0, b.reorder, 0, false⟩
      b.sndFack recover with
    | (some hole, t) => { b with sndFack := recover, holes := [hole], numholes := t.numholes }
    | (none, _) => b
  else b

/-- `tcp_output` has sent `len` bytes from where the retransmission of a hole had got to. -/
def Hole.retransmit (h : Hole) (len : UInt32) : Hole := { h with rxmit := h.rxmit + len }

/-- `ip_output` has failed after `lost` bytes, and `tcp_output` takes the retransmission of a hole
back by so many, but no further than to the hole's start: by how many, and the hole. -/
def Hole.takeBack (una : UInt32) (h : Hole) (lost : UInt32) : UInt32 × Hole :=
  let (lost, rxmit) :=
    if seqGt (h.rxmit - lost) una then (lost, h.rxmit - lost) else (h.rxmit - una, una)
  (lost, { h with rxmit := if seqLt rxmit h.start then h.start else rxmit })

/-- `sack_bytes_rexmit` without `lost` bytes. -/
def rexmitWithout (bytesRexmit : Int) (lost : UInt32) : Int :=
  if i32 (bytesRexmit - i32 lost.toNat) < 0 then 0 else i32 (bytesRexmit - i32 lost.toNat)

/-- What can happen to the scoreboard while `tcp_sack_maxholes` is at most `limit`. -/
inductive BoardStep (limit : Int) : Board → Board → Prop
  | doack (b : Board) (env : Env) (hlimit : env.maxholes ≤ limit)
      (c : AckSegment b) (newbytes : UInt32)
      {b' : Board} {newbytes' : UInt32} {failed : Bool}
      (hcall : tcpSackDoack env b c.ack c.sacks newbytes = some (b', newbytes', failed)) :
      BoardStep limit b b'
  /-- `snd_una` moves to an acknowledgement that has been taken out of the holes. -/
  | advance (b : Board) (una : UInt32) (hle : off b.sndUna una ≤ off b.sndUna b.sndMax)
      (hacked : ∀ x, InHoles b.sndUna b.holes x → off b.sndUna una ≤ x) :
      BoardStep limit b { b with sndUna := una }
  | send (b : Board) (sndMax : UInt32) (hle : off b.sndUna b.sndMax ≤ off b.sndUna sndMax)
      (hnear : Near b.sndUna sndMax) : BoardStep limit b { b with sndMax := sndMax }
  | retransmit (b : Board) (front : List Hole) (h : Hole) (back : List Hole) (len : UInt32)
      (hholes : b.holes = front ++ h :: back)
      (hlen : len.toNat ≤ off b.sndUna h.stop - off b.sndUna h.rxmit) :
      BoardStep limit b { b with
        holes := front ++ h.retransmit len :: back
        bytesRexmit := i32 (b.bytesRexmit + len.toNat) }
  /-- `lost` is an `int`. -/
  | takeBack (b : Board) (front : List Hole) (h : Hole) (back : List Hole) (lost : UInt32)
      (hholes : b.holes = front ++ h :: back) (hlost : lost.toNat < 2 ^ 31) :
      BoardStep limit b { b with
        holes := front ++ (h.takeBack b.sndUna lost).2 :: back
        bytesRexmit := rexmitWithout b.bytesRexmit (h.takeBack b.sndUna lost).1 }
  /-- `snd_fack` is the acknowledgement there. -/
  | partialack (b : Board) (env : Env) (hlimit : env.maxholes ≤ limit) (recover : UInt32)
      (hfack : off b.sndUna b.sndFack ≤ off b.sndUna b.sndMax)
      (hrecover : off b.sndUna recover ≤ off b.sndUna b.sndMax) :
      BoardStep limit b (tcpSackPartialack env b recover)
  | free (b : Board) : BoardStep limit b (tcpFreeSackholes b)
  /-- Without holes, `snd_fack` may have any value. -/
  | setFack (b : Board) (fack : UInt32) (hnil : b.holes = []) :
      BoardStep limit b { b with sndFack := fack }

/-- The scoreboard of a connection that is opened, and what happens to it. -/
def sackSystem (limit : Int) : System Board where
  init b := b.holes = [] ∧ b.numholes = 0 ∧ Near b.sndUna b.sndMax
  step := BoardStep limit

variable {una una' x lost : UInt32} {lo hi : Nat} {hs : List Hole} {h : Hole}

theorem off_rebase (hle : off una una' ≤ off una x) :
    off una' x = off una x - off una una' :=
  toNat_sub_off hle

theorem HoleOk.rebase (hok : HoleOk una h) (hle : off una una' ≤ off una h.start) :
    HoleOk una' h := by
  obtain ⟨hne, hge, hrx⟩ := hok
  have hstart := off_rebase hle
  have hrxmit := off_rebase (hle.trans hge)
  have hstop := off_rebase (hle.trans hne.le)
  constructor <;> omega

theorem Ordered.rebase (hord : Ordered una lo hi hs) (hle : off una una' ≤ lo) :
    Ordered una' (lo - off una una') (hi - off una una') hs := by
  induction hs generalizing lo with
  | nil => exact Nat.sub_le_sub_right hord _
  | cons h hs ih =>
    obtain ⟨hlo, hok, hrest⟩ := hord
    have hstart := hle.trans hlo
    have hstop := hstart.trans hok.nonempty.le
    refine ⟨?_, hok.rebase hstart, ?_⟩
    · rw [off_rebase hstart]
      exact Nat.sub_le_sub_right hlo _
    · rw [off_rebase hstop]
      exact ih hrest hstop

theorem Ordered.raise (hord : Ordered una 0 hi hs) (hne : hs ≠ [])
    (hge : ∀ x, InHoles una hs x → lo ≤ x) :
    Ordered una lo hi hs := by
  cases hs with
  | nil => exact absurd rfl hne
  | cons h hs =>
    obtain ⟨-, hok, hrest⟩ := hord
    exact ⟨hge _ (inHoles_cons.mpr (.inl ⟨le_rfl, hok.nonempty⟩)), hok, hrest⟩

theorem HoleOk.retransmit {len : UInt32} (hok : HoleOk una h)
    (hlen : len.toNat ≤ off una h.stop - off una h.rxmit) : HoleOk una (h.retransmit len) := by
  have hsum : off una (h.rxmit + len) = off una h.rxmit + len.toNat := by
    have hstop : off una h.stop < 2 ^ 32 := UInt32.toNat_lt _
    have hrx := hok.rxmit_le
    have hassoc : h.rxmit + len - una = h.rxmit - una + len := by
      rw [UInt32.sub_eq_add_neg, UInt32.sub_eq_add_neg, UInt32.add_assoc, UInt32.add_comm len,
        ← UInt32.add_assoc]
    rw [off, hassoc, UInt32.toNat_add]
    unfold off at *
    omega
  have hge := hok.rxmit_ge
  have hrx := hok.rxmit_le
  constructor
  · exact hok.nonempty
  · rw [Hole.retransmit, hsum]
    dsimp only
    omega
  · rw [Hole.retransmit, hsum]
    dsimp only
    omega

theorem off_sub (hx : Near una x) (hlost : lost.toNat < 2 ^ 31)
    (hgt : seqGt (x - lost) una = true) :
    Near una (x - lost) ∧ off una (x - lost) ≤ off una x := by
  have hlt := x.toNat_lt
  have hunaLt := una.toNat_lt
  simp only [seqGt, seqDiff, i32, decide_eq_true_iff, UInt32.toNat_sub] at hgt
  simp only [Near, off_eq, UInt32.toNat_sub] at hx ⊢
  omega

theorem HoleOk.takeBack (hok : HoleOk una h) (hstop : Near una h.stop)
    (hlost : lost.toNat < 2 ^ 31) : HoleOk una (h.takeBack una lost).2 := by
  have hge := hok.rxmit_ge
  have hrx := hok.rxmit_le
  have hrxmit : Near una h.rxmit := hrx.trans_lt hstop
  have hstart : Near una h.start := hge.trans_lt hrxmit
  -- how far it is taken back before the start of the hole is looked at
  have hclamp {x : UInt32} (hx : Near una x) (hle : off una x ≤ off una h.rxmit) :
      HoleOk una { h with rxmit := if seqLt x h.start then h.start else x } := by
    split_ifs with hlt
    · exact ⟨hok.nonempty, le_rfl, hge.trans hrx⟩
    · rw [seqLt_iff hx hstart, not_lt] at hlt
      exact ⟨hok.nonempty, hlt, hle.trans hrx⟩
  unfold Hole.takeBack
  split_ifs with hgt
  · obtain ⟨hnear, hle⟩ := off_sub hrxmit hlost hgt
    exact hclamp hnear hle
  · exact hclamp (near_una una) ((off_self una).le.trans (Nat.zero_le _))

variable {b : Board} {limit : Int}

theorem Board.Valid.advance (hv : b.Valid) {una : UInt32}
    (hle : off b.sndUna una ≤ off b.sndUna b.sndMax)
    (hacked : ∀ x, InHoles b.sndUna b.holes x → off b.sndUna una ≤ x) :
    Board.Valid { b with sndUna := una } := by
  constructor
  · have hwindow : off b.sndUna b.sndMax < 2 ^ 31 := hv.window
    rw [Near]
    rw [off_rebase hle]
    omega
  · intro hne
    obtain ⟨hfack, hord⟩ := hv.ordered hne
    have hraised := hord.raise hne hacked
    rw [off_rebase hle, off_rebase hraised.le]
    have hmoved := hraised.rebase le_rfl
    rw [Nat.sub_self] at hmoved
    exact ⟨Nat.sub_le_sub_right hfack _, hmoved⟩
  · exact hv.numholes
  · exact hv.few

theorem Board.Valid.send (hv : b.Valid) {sndMax : UInt32}
    (hle : off b.sndUna b.sndMax ≤ off b.sndUna sndMax) (hnear : Near b.sndUna sndMax) :
    Board.Valid { b with sndMax := sndMax } := by
  constructor
  · exact hnear
  · intro hne
    obtain ⟨hfack, hord⟩ := hv.ordered hne
    exact ⟨hfack.trans hle, hord⟩
  · exact hv.numholes
  · exact hv.few

/-- A step that moves the `rxmit` of one hole. -/
theorem Board.Valid.setRxmit (hv : b.Valid) {front back : List Hole} {h : Hole} {rxmit : UInt32}
    (hholes : b.holes = front ++ h :: back)
    (hmoved : HoleOk b.sndUna h → Near b.sndUna h.stop → HoleOk b.sndUna { h with rxmit })
    (bytes : Int) :
    Board.Valid { b with holes := front ++ { h with rxmit } :: back, bytesRexmit := bytes } := by
  have hlength : (front ++ { h with rxmit } :: back).length = b.holes.length := by simp [hholes]
  constructor
  · exact hv.window
  · intro _
    obtain ⟨hfack, hord⟩ := hv.ordered (by simp [hholes])
    rw [hholes] at hord
    obtain ⟨mid, hfront, hmid, hok, hback⟩ := ordered_append.mp hord
    have hnear : Near b.sndUna h.stop := (hback.le.trans hfack).trans_lt hv.window
    exact ⟨hfack, ordered_append.mpr ⟨mid, hfront, hmid, hmoved hok hnear, hback⟩⟩
  · exact hlength ▸ hv.numholes
  · exact hlength ▸ hv.few

theorem freed_numholes {n : Int} {hs : List Hole} (hn : n = hs.length) (hfew : hs.length < 2 ^ 15) :
    hs.foldl (fun n _ => i16 (n - 1)) n = 0 := by
  induction hs generalizing n with
  | nil => exact hn
  | cons h hs ih =>
    rw [length_cons] at hn hfew
    apply ih
    · dsimp only
      rw [i16_eq] <;> omega
    · omega

theorem Board.Valid.free (hv : b.Valid) : (tcpFreeSackholes b).Valid := by
  constructor
  · exact hv.window
  · exact absurd rfl
  · exact freed_numholes hv.numholes hv.few
  · exact Nat.two_pow_pos 15

theorem Board.Valid.partialack {env : Env} (hmax : env.maxholes < 2 ^ 15) (hv : b.Valid)
    {recover : UInt32} (hfack : off b.sndUna b.sndFack ≤ off b.sndUna b.sndMax)
    (hrecover : off b.sndUna recover ≤ off b.sndUna b.sndMax) :
    (tcpSackPartialack env b recover).Valid := by
  rw [tcpSackPartialack]
  split_ifs with h
  · obtain ⟨hlt, hnil⟩ := h
    rw [seqLt_iff (lt_of_le_of_lt hfack hv.window) (lt_of_le_of_lt hrecover hv.window)] at hlt
    have hzero : b.numholes = (0 : Nat) := by rw [hv.numholes, hnil]; rfl
    have c : Tally.Counts ⟨b.numholes, b.bytesRexmit, 0, b.reorder, 0, false⟩ 0 False 0 0 0 :=
      ⟨hzero, Nat.two_pow_pos 15, rfl, False.elim⟩
    obtain ⟨t, halloc, -⟩ | ⟨t, halloc, c', -⟩ := sackholeAlloc_spec hmax c b.sndFack recover
    · rw [halloc]
      exact hv
    rw [halloc]
    constructor
    · exact hv.window
    · exact fun _ => ⟨hrecover, Nat.zero_le _, ⟨hlt, le_rfl, hlt.le⟩, le_rfl⟩
    · exact c'.numholes
    · exact c'.few
  · exact hv

theorem boardStep_valid (hlimit : limit < 2 ^ 15) {b' : Board} (hv : b.Valid)
    (hstep : BoardStep limit b b') :
    b'.Valid := by
  cases hstep with
  | doack env hle c newbytes hcall =>
    obtain ⟨b'', newbytes', failed, heq, hsound⟩ :=
      tcpSackDoack_sound (hle.trans_lt hlimit) hv c newbytes
    rw [hcall] at heq
    cases heq
    exact hsound.valid
  | advance una hle hacked => exact hv.advance hle hacked
  | send sndMax hle hnear => exact hv.send hle hnear
  | retransmit front h back len hholes hlen =>
    exact hv.setRxmit hholes (fun hok _ => hok.retransmit hlen) _
  | takeBack front h back lost hholes hlost =>
    exact hv.setRxmit hholes (fun hok hnear => hok.takeBack hnear hlost) _
  | partialack env hle recover hfack hrecover =>
      exact hv.partialack (hle.trans_lt hlimit) hfack hrecover
  | free => exact hv.free
  | setFack fack hnil => exact { hv with ordered := fun hne => absurd hnil hne }

theorem sack_valid (hlimit : limit < 2 ^ 15) : (sackSystem limit).Always Board.Valid := by
  apply System.always_of_step
  · rintro b ⟨hnil, hzero, hwindow⟩
    refine ⟨hwindow, absurd hnil, ?_, ?_⟩
    · rw [hzero, hnil]
      rfl
    · rw [hnil]
      exact Nat.two_pow_pos 15
  · exact fun b b' hv hstep => boardStep_valid hlimit hv hstep

/-- Every second byte is missing. -/
def everySecond (n : Nat) : Board where
  sndUna := 0
  sndMax := UInt32.ofNat (2 ^ 17)
  sndFack := UInt32.ofNat (2 * n)
  holes := (List.range n).map fun i =>
    ⟨UInt32.ofNat (2 * i), UInt32.ofNat (2 * i + 1), UInt32.ofNat (2 * i), 0⟩
  numholes := i16 n
  bytesRexmit := 0
  reorder := ⟨false, 0, 0⟩

/-- The byte behind the next one that is missing is acknowledged. -/
def nextByte (n : Nat) : Block := ⟨UInt32.ofNat (2 * n + 1), UInt32.ofNat (2 * n + 2)⟩

/-- Nothing but the limit prevents an allocation. -/
def plenty (maxholes : Int) : Env where
  maxholes := maxholes
  hardlimit _ := false
  now := 0
  rxtshift := 0
  notRetransmitted _ := false
  halfSrtt := 0

variable {n k : Nat} {maxholes : Int}

theorem off_ofNat (hk : k < 2 ^ 31) : off 0 (UInt32.ofNat k) = k := by
  rw [off, UInt32.sub_zero, UInt32.toNat_ofNat_of_lt' (by change k < 2 ^ 32; omega)]

theorem near_ofNat (hk : k < 2 ^ 31) : Near 0 (UInt32.ofNat k) := by
  rw [Near, off_ofNat hk]
  exact hk

theorem validBlock_nextByte (hn : n < 2 ^ 15) :
    validBlock (everySecond n) 0 (nextByte n) = true := by
  have hstart : off 0 (nextByte n).start = 2 * n + 1 := off_ofNat (by omega)
  have hstop : off 0 (nextByte n).stop = 2 * n + 2 := off_ofNat (by omega)
  have hmax : off 0 (everySecond n).sndMax = 2 ^ 17 := off_ofNat (by decide)
  have nearStart : Near 0 (nextByte n).start := near_ofNat (by omega)
  have nearStop : Near 0 (nextByte n).stop := near_ofNat (by omega)
  have nearMax : Near 0 (everySecond n).sndMax := near_ofNat (by decide)
  have hbegin : seqGt (nextByte n).start 0 = true := by
    rw [seqGt_iff' nearStart (near_una 0), hstart, off_self]
    omega
  have hend : seqGt (nextByte n).stop 0 = true := by
    rw [seqGt_iff' nearStop (near_una 0), hstop, off_self]
    omega
  have hpos : seqGt (nextByte n).stop (nextByte n).start = true := by
    rw [seqGt_iff' nearStop nearStart]
    omega
  have hbefore : seqLt (nextByte n).start (everySecond n).sndMax = true := by
    rw [seqLt_iff nearStart nearMax]
    omega
  have hle : seqLeq (nextByte n).stop (everySecond n).sndMax = true := by
    rw [seqLeq_iff nearStop nearMax]
    omega
  have huna : (everySecond n).sndUna = 0 := rfl
  rw [validBlock, huna, hpos, hbegin, hbefore, hend, hle]
  rfl

theorem gather_nextByte (hn : n < 2 ^ 15) :
    gatherBlocks (everySecond n) 0 [nextByte n] = [nextByte n] := by
  have huna : (everySecond n).sndUna = 0 := rfl
  have hnone : seqLt 0 0 = false := by decide
  rw [gatherBlocks, huna, hnone, if_neg (by simp), filter_cons,
    if_pos (validBlock_nextByte hn)]
  rfl

theorem everySecond_holes : (everySecond (n + 1)).holes = (everySecond n).holes ++
    [⟨(everySecond n).sndFack, (nextByte n).start, (everySecond n).sndFack, 0⟩] := by
  simp [everySecond, nextByte, range_succ]

theorem everySecond_numholes : i16 ((everySecond n).numholes + 1) =
    (everySecond (n + 1)).numholes := by
  simp only [everySecond, i16]
  omega

theorem startSweep_everySecond (hmax : 2 ^ 15 ≤ maxholes) (hn : n < 2 ^ 15) :
    startSweep (plenty maxholes) (everySecond n).sndFack (everySecond n).holes [nextByte n]
      ⟨(everySecond n).numholes, (everySecond n).bytesRexmit,
        0, (everySecond n).reorder, 0, false⟩ =
    ⟨(nextByte n).stop, (everySecond (n + 1)).holes, [],
      ⟨(everySecond (n + 1)).numholes, 0, 0 + ((nextByte n).stop - (nextByte n).start),
        ⟨false, 0, 0⟩, 1,
        false⟩⟩ := by
  have hfack : off 0 (everySecond n).sndFack = 2 * n := off_ofNat (by omega)
  have hstart : off 0 (nextByte n).start = 2 * n + 1 := off_ofNat (by omega)
  have nearFack : Near 0 (everySecond n).sndFack := near_ofNat (by omega)
  have nearStart : Near 0 (nextByte n).start := near_ofNat (by omega)
  have hlt : seqLt (everySecond n).sndFack (nextByte n).start = true := by
    rw [seqLt_iff nearFack nearStart]
    omega
  have hroom : ¬((plenty maxholes).maxholes ≤ (everySecond n).numholes ∨
      (plenty maxholes).hardlimit 0 = true) := by
    have hsmall : (everySecond n).numholes < 2 ^ 15 := by
      simp only [everySecond, i16]
      omega
    simp only [plenty, Bool.false_eq_true, or_false]
    omega
  rw [startSweep, if_pos hlt, sackholeAlloc, if_neg hroom, everySecond_holes,
    ← everySecond_numholes]
  rfl

/-- A call makes one more hole, and the counter wraps when there are too many. -/
theorem doack_everySecond (hmax : 2 ^ 15 ≤ maxholes) (hn : n < 2 ^ 15) :
    ∃ newbytes, tcpSackDoack (plenty maxholes) (everySecond n) 0 [nextByte n] 0 =
      some (everySecond (n + 1), newbytes, false) := by
  have hfack : (if (everySecond n).holes = [] then seqMax (everySecond n).sndUna 0
      else (everySecond n).sndFack) = (everySecond n).sndFack := by
    split_ifs with hnil
    · obtain rfl : n = 0 := by simpa [everySecond] using hnil
      decide
    · rfl
  have hsort : sortBlocks [nextByte n] = [nextByte n] := by
    rw [sortBlocks, sortPass, sortBlocks]
  refine ⟨0 + ((nextByte n).stop - (nextByte n).start), ?_⟩
  rw [tcpSackDoack, gather_nextByte hn, if_neg (cons_ne_nil _ _),
    if_neg (by simp [tcpMaxSack])]
  simp only [hfack, hsort, reverse_singleton, startSweep_everySecond hmax hn, sweep,
    reverse_reverse, append_nil, Option.map_some]
  rfl

/-- The acknowledgement of that byte. -/
def nextSegment (n : Nat) : AckSegment (everySecond n) where
  ack := 0
  sacks := [nextByte n]
  ack_le := (off_self 0).le.trans (Nat.zero_le _)
  sacks_le := by simp [tcpMaxSack]

theorem reachable_everySecond {limit : Int} (hlimit : 2 ^ 15 ≤ limit) (hn : n ≤ 2 ^ 15) :
    (sackSystem limit).Reachable (everySecond n) := by
  induction n with
  | zero => exact .start ⟨rfl, rfl, near_ofNat (by decide)⟩
  | succ n ih =>
    obtain ⟨newbytes, hcall⟩ := doack_everySecond hlimit (Nat.lt_of_succ_le hn)
    apply System.Reachable.next (ih (Nat.le_of_succ_le hn))
    exact .doack _ (plenty limit) le_rfl (nextSegment n) 0 hcall

/-- The scoreboard is valid, no `VERIFY` fails in a call, and each call is right. -/
def CallsSound (limit : Int) (b : Board) : Prop :=
  b.Valid ∧ ∀ env, env.maxholes ≤ limit → ∀ (c : AckSegment b) (newbytes : UInt32),
    ∃ b' newbytes' failed, tcpSackDoack env b c.ack c.sacks newbytes =
      some (b', newbytes', failed) ∧
      Sound b c newbytes b' newbytes' failed

/-- In every run every call is right, exactly if `tcp_sack_maxholes` stays below 2^15. -/
theorem sack_sound (limit : Int) :
    (sackSystem limit).Always (CallsSound limit) ↔ limit < 2 ^ 15 := by
  constructor
  · intro halways
    by_contra hge
    have hlast := reachable_everySecond (Int.not_lt.mp hge) (le_refl (2 ^ 15))
    have hcount := (halways _ hlast).1.numholes
    simp [everySecond, i16] at hcount
  · intro hlimit b hb
    have hv := sack_valid hlimit b hb
    exact ⟨hv, fun env henv c newbytes => tcpSackDoack_sound (henv.trans_lt hlimit) hv c newbytes⟩

/-- With a limit of 40000, a scoreboard of 32767 holes is reached, and one more hole makes
the counter negative. -/
theorem everySecond_wraps : (sackSystem 40000).Reachable (everySecond 32767) ∧
    (∃ newbytes, tcpSackDoack (plenty 40000) (everySecond 32767) 0 [nextByte 32767] 0 =
      some (everySecond 32768, newbytes, false)) ∧
    (everySecond 32768).numholes = -32768 ∧ (everySecond 32768).holes.length = 32768 := by
  refine ⟨reachable_everySecond (by decide) (by decide),
    doack_everySecond (by decide) (by decide), ?_, ?_⟩
  · simp [everySecond, i16]
  · simp [everySecond]

end XnuXzs.Tcp
