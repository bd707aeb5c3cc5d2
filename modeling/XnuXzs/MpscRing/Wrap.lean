import XnuXzs.MpscRing.Sound

/-!
# Offsets that wrap around

One writer and the reader, with no bound on what is written. The least offset is right as long as
the hold that the reader loads and its limit have not wrapped apart, so in every run of less than
2^32 bytes; the write that makes them wrap is read while it is copied.
-/

namespace XnuXzs.MpscRing

open Lib List Function

variable {c : Config} {s t : State} {guard : State → Prop} {i n volume tail limit : Nat}

/-- The interleavings of one writer and the reader in which at most `volume` bytes are reserved,
and the reader takes its steps in states of `guard`. -/
inductive LoneStep (c : Config) (i volume : Nat) (guard : State → Prop) (s : State) :
    State → Prop where
  | writer {t : State} (hstep : WriterStep c s i t) (hvolume : t.stream.length ≤ volume) :
      LoneStep c i volume guard s t
  | reader {t : State} (hstep : ReaderStep c s t) (hguard : guard s) :
      LoneStep c i volume guard s t

def loneRingWhere (c : Config) (i volume : Nat) (guard : State → Prop) : System State where
  init s := s = initial
  step := LoneStep c i volume guard

def loneRing (c : Config) (i volume : Nat) : System State := loneRingWhere c i volume fun _ => True

/-- The reader has obtained no more than what was reserved, and nothing of the write that the
writer has not finished, which is the last one. -/
def Behind (i : Nat) (s : State) : Prop :=
  s.obtained.length ≤ s.stream.length ∧ ∀ data head done, s.writer i = .copying data head done →
    s.obtained.length + data.length ≤ s.stream.length

/-- If the hold that the reader is about to load is that of a write in progress, and nearer to
the tail than the limit, then it does not look empty and is the smaller number. -/
def HoldOrdered (i : Nat) (s : State) : Prop :=
  ∀ tail limit data head done, s.reader = .scanning tail limit i →
    s.writer i = .copying data head done → sub32 (s.holds i) tail < sub32 limit tail →
      s.holds i ≠ holdEmpty ∧ s.holds i < limit

/-- Of `total` bytes, those of the writes that are over. -/
def settled (total : Nat) : Writer → Nat
  | .copying data _ _ => total - data.length
  | _ => total

def HoldOk (head total hold : Nat) : Writer → Prop
  | .loaded _ seen _ => seen = head ∧ (hold = holdEmpty ∨ hold = head)
  | .held .. => hold = head
  | .copying data _ _ => data.length ≤ total ∧ hold = (total - data.length) % 2 ^ 32
  | _ => hold = holdEmpty ∨ hold = head

/-- A cursor that has come to byte `taken + session` and may go on to `top`. -/
structure CursorOk (taken session top : Nat) (cursor : Cursor) : Prop where
  commit : ∃ k ≤ session, cursor.commitPos = (taken + k) % 2 ^ 32
  pos : cursor.pos = (taken + session) % 2 ^ 32
  le : taken + session + sub32 cursor.limit cursor.pos ≤ top
  small : session + sub32 cursor.limit cursor.pos < 2 ^ 32

/-- Until the hold is loaded the limit may be that of all the bytes. -/
def ReaderBehind (i taken session top total : Nat) : Reader → Prop
  | .idle => session = 0
  | .scanning tail limit next => session = 0 ∧ tail = taken % 2 ^ 32 ∧
      taken + sub32 limit tail ≤ if i < next then top else total
  | .reading cursor => CursorOk taken session top cursor
  | .copying cursor size done => done ≤ size ∧ size ≤ sub32 cursor.limit cursor.pos ∧
      ∃ before, session = before + done ∧ CursorOk taken before top cursor

/-- The offsets count bytes modulo 2^32. -/
structure Lone (i : Nat) (s : State) : Prop where
  head : s.head = s.stream.length % 2 ^ 32
  tail : s.tail = s.taken.length % 2 ^ 32
  obtained : s.taken.length + s.session.length ≤ settled s.stream.length (s.writer i)
  hold : HoldOk s.head s.stream.length (s.holds i) (s.writer i)
  others : ∀ j, j ≠ i → s.holds j = holdEmpty
  reader : ReaderBehind i s.taken.length s.session.length
    (settled s.stream.length (s.writer i)) s.stream.length s.reader

theorem settled_le (total : Nat) (w : Writer) : settled total w ≤ total := by
  cases w <;> simp [settled]

theorem sub32_mod_le {a b : Nat} (hle : b ≤ a) : b + sub32 (a % 2 ^ 32) (b % 2 ^ 32) ≤ a := by
  rw [sub32]
  omega

theorem Lone.behind (h : Lone i s) : Behind i s := by
  rw [Behind, State.obtained, length_append]
  refine ⟨h.obtained.trans (settled_le _ _), fun data head done hw => ?_⟩
  have hhold := h.hold
  have hobt := h.obtained
  rw [hw] at hhold hobt
  exact (Nat.add_le_add_right hobt _).trans (Nat.sub_add_cancel hhold.1).le

theorem ReaderBehind.mono {taken session top total top' total' : Nat} {r : Reader}
    (h : ReaderBehind i taken session top total r) (htop : top ≤ top')
    (htotal : total ≤ total') : ReaderBehind i taken session top' total' r := by
  cases r with
  | idle => exact h
  | scanning tail limit next =>
    refine ⟨h.1, h.2.1, h.2.2.trans ?_⟩
    split <;> assumption
  | reading cursor => exact { h with le := h.le.trans htop }
  | copying cursor size done =>
    obtain ⟨hdone, hsize, before, hsession, hcursor⟩ := h
    exact ⟨hdone, hsize, before, hsession, { hcursor with le := hcursor.le.trans htop }⟩

theorem Lone.writerStep (h : Lone i s) (hstep : WriterStep c s i t) : Lone i t := by
  have hhold := h.hold
  have hown : t.head = t.stream.length % 2 ^ 32 ∧ s.stream.length ≤ t.stream.length ∧
      settled s.stream.length (s.writer i) ≤ settled t.stream.length (t.writer i) ∧
      HoldOk t.head t.stream.length (t.holds i) (t.writer i) := by
    cases hstep <;>
      simp_all [h.head, settled, HoldOk, add32, State.setWriter, State.setHold, State.reserve,
        State.copyIn]
    case reserve => omega
  obtain ⟨hhead, htotal, htop, hok⟩ := hown
  have hsame : t.taken = s.taken ∧ t.session = s.session ∧ t.tail = s.tail ∧
      t.reader = s.reader ∧ ∀ j, j ≠ i → t.holds j = s.holds j := by
    cases hstep <;>
      simp +contextual [State.setWriter, State.setHold, State.reserve, State.copyIn]
  obtain ⟨htaken, hsession, htail, hreader, hholds⟩ := hsame
  refine ⟨hhead, ?_, ?_, hok, fun j hj => (hholds j hj).trans (h.others j hj), ?_⟩
  · rw [htail, htaken, h.tail]
  · rw [htaken, hsession]
    exact h.obtained.trans htop
  · rw [htaken, hsession, hreader]
    exact h.reader.mono htop htotal

theorem limitOf_cases (limit hold : Nat) :
    limitOf limit hold = limit ∨ hold ≠ holdEmpty ∧ limitOf limit hold = hold := by
  rw [limitOf]
  split_ifs with hempty
  · exact .inl rfl
  · exact (le_total limit hold).imp min_eq_left fun hle => ⟨hempty, min_eq_right hle⟩

/-- With the hold loaded, the limit is one for the writes that are over. -/
theorem Lone.scan (h : Lone i s) (hguard : HoldOrdered i s)
    (hr : s.reader = .scanning tail limit i) :
    s.taken.length + sub32 (limitOf limit (s.holds i)) tail ≤
      settled s.stream.length (s.writer i) := by
  have hreader := h.reader
  rw [hr] at hreader
  obtain ⟨-, rfl, hle⟩ := hreader
  rw [if_neg (lt_irrefl i)] at hle
  have hobt := (Nat.le_add_right ..).trans h.obtained
  have hhold := h.hold
  cases hw : s.writer i with
  | copying data head done =>
    rw [hw] at hhold hobt
    have hdist := sub32_mod_le hobt
    rw [settled, ← hhold.2] at hdist
    by_cases hlt : sub32 (s.holds i) (s.taken.length % 2 ^ 32) <
        sub32 limit (s.taken.length % 2 ^ 32)
    · obtain ⟨hne, hsmall⟩ := hguard _ _ _ _ _ hr hw hlt
      rwa [limitOf, if_neg hne, min_eq_right hsmall.le]
    -- The hold is no nearer than the limit, so whichever is chosen is within what is settled.
    · obtain heq | ⟨-, heq⟩ := limitOf_cases limit (s.holds i)
      · rw [heq]
        exact (Nat.add_le_add_left (not_lt.mp hlt) _).trans hdist
      · rwa [heq]
  | _ =>
    rw [hw] at hhold hobt
    obtain heq | ⟨hne, heq⟩ := limitOf_cases limit (s.holds i)
    · rwa [heq]
    · have hhead : s.holds i = s.head := by
        simp only [HoldOk] at hhold
        grind
      rw [heq, hhead, h.head]
      exact sub32_mod_le hobt

theorem Lone.readerStep (hi : i < c.writersMax) (h : Lone i s) (hguard : HoldOrdered i s)
    (hstep : ReaderStep c s t) : Lone i t := by
  have hreader := h.reader
  have hobt := (Nat.le_add_right ..).trans h.obtained
  cases hstep with
  | start hidle =>
    rw [hidle] at hreader
    refine { h with reader := ⟨hreader, h.tail, ?_⟩ }
    rw [if_neg (Nat.not_lt_zero i), h.tail, h.head]
    exact sub32_mod_le (hobt.trans (settled_le _ _))
  | scan tail limit next hr hnext =>
    rw [hr] at hreader
    obtain ⟨hsession, htail, hle⟩ := hreader
    refine { h with reader := ⟨hsession, htail, ?_⟩ }
    by_cases hown : next = i
    · subst hown
      rw [if_pos (Nat.lt_succ_self next)]
      exact h.scan hguard hr
    · have hiff : i < next + 1 ↔ i < next := by omega
      rw [h.others next hown, limitOf, if_pos rfl]
      simpa only [hiff] using hle
  | started tail limit hr =>
    rw [hr] at hreader
    obtain ⟨hsession, htail, hle⟩ := hreader
    rw [if_pos hi] at hle
    refine { h with reader := ?_ }
    change CursorOk _ s.session.length _ _
    rw [hsession]
    exact ⟨⟨0, le_rfl, htail⟩, htail, hle, (Nat.zero_add _).trans_lt (Nat.mod_lt _ (by decide))⟩
  | advance cursor size hr hsize =>
    rw [hr] at hreader
    exact { h with reader := ⟨Nat.zero_le _, hsize, _, rfl, hreader⟩ }
  | copyOut cursor size done hr hdone =>
    rw [hr] at hreader
    obtain ⟨-, hsize, before, hsession, hcursor⟩ := hreader
    have hlength : (s.copyOut c cursor size done).session.length = before + (done + 1) := by
      simp [State.copyOut, hsession, Nat.add_assoc]
    refine { h with obtained := ?_, reader := ⟨hdone, hsize, before, hlength, hcursor⟩ }
    rw [hlength]
    have hle := hcursor.le
    change s.taken.length + _ ≤ settled s.stream.length (s.writer i)
    omega
  | copied cursor size hr =>
    rw [hr] at hreader
    obtain ⟨-, hsize, before, hsession, ⟨k, hk, hcommit⟩, hpos, hle, hsmall⟩ := hreader
    have hrest : sub32 cursor.limit (add32 cursor.pos size) =
        sub32 cursor.limit cursor.pos - size := by
      rw [hpos] at hsize ⊢
      simp only [sub32, add32] at hsize ⊢
      omega
    refine { h with reader := ?_ }
    change CursorOk _ s.session.length _ _
    rw [hsession]
    refine ⟨⟨k, by omega, hcommit⟩, ?_, ?_, ?_⟩ <;> dsimp only
    · rw [add32, hpos]
      omega
    · omega
    · omega
  | commit cursor hr =>
    rw [hr] at hreader
    exact { h with reader := { hreader with commit := ⟨_, le_rfl, hreader.pos⟩ } }
  | finish cursor hr =>
    rw [hr] at hreader
    obtain ⟨k, hk, hcommit⟩ := hreader.commit
    have hcount : sub32 cursor.commitPos s.tail = k := by
      have hsmall := hreader.small
      rw [hcommit, h.tail, sub32]
      omega
    have htaken : (s.finish cursor).taken.length = s.taken.length + k := by
      simp [State.finish, hcount, hk]
    refine { h with tail := ?_, obtained := ?_, reader := rfl }
    · rw [htaken]
      exact hcommit
    · rw [htaken]
      exact (Nat.add_le_add_left hk _).trans h.obtained
  | cancel cursor hr =>
    exact { h with obtained := hobt, reader := rfl }

/-- Offsets that have not wrapped are in order. -/
theorem Lone.ordered (h : Lone i s) (hlt : s.stream.length < 2 ^ 32) : HoldOrdered i s := by
  intro tail limit data head done hr hw hnear
  have hreader := h.reader
  have hobt := h.obtained
  have hhold := h.hold
  rw [hr] at hreader
  rw [hw] at hobt hhold
  obtain ⟨-, rfl, hle⟩ := hreader
  rw [if_neg (lt_irrefl i)] at hle
  simp only [HoldOk, settled, sub32, holdEmpty] at *
  omega

/-- What the reader loads in the states of `guard` is in order. -/
theorem loneRingWhere_behind (hi : i < c.writersMax)
    (hguard : ∀ s, Lone i s → s.stream.length ≤ volume → guard s → HoldOrdered i s) :
    (loneRingWhere c i volume guard).Always (Behind i) := by
  have hlone : (loneRingWhere c i volume guard).Always fun s =>
      Lone i s ∧ s.stream.length ≤ volume := by
    apply System.always_of_step
    · rintro s rfl
      exact ⟨⟨rfl, rfl, le_rfl, .inl rfl, fun _ _ => rfl, rfl⟩, Nat.zero_le _⟩
    · rintro s t ⟨h, hle⟩ hstep
      cases hstep with
      | writer hstep hvolume => exact ⟨h.writerStep hstep, hvolume⟩
      | reader hstep hs =>
        refine ⟨h.readerStep hi (hguard s h hle hs) hstep, ?_⟩
        cases hstep <;> exact hle
  exact fun s hs => (hlone s hs).1.behind

/-- Everything up to offset `n` was written and read. -/
structure Quiet (i n : Nat) (s : State) : Prop where
  head : s.head = n
  tail : s.tail = n
  holds : ∀ j, s.holds j = holdEmpty
  writer : s.writer i = .idle
  reader : s.reader = .idle
  stream : s.stream.length = n
  taken : s.taken.length = n

theorem add32_sub32 (hlt : n < 2 ^ 32) : sub32 (add32 n 1) n = 1 := by
  have hbound : n ≤ 2 ^ 32 := hlt.le
  simp only [sub32, add32]
  omega

theorem scans (hholds : ∀ j, s.holds j = holdEmpty)
    (hs : (loneRing c i volume).Reachable { s with reader := .scanning tail limit 0 }) :
    (loneRing c i volume).Reachable { s with reader := .reading ⟨tail, tail, limit⟩ } := by
  have hscan : ∀ next, next ≤ c.writersMax →
      (loneRing c i volume).Reachable { s with reader := .scanning tail limit next } := by
    intro next
    induction next with
    | zero => exact fun _ => hs
    | succ next ih =>
      intro hle
      have hnext := (ih (by omega)).next (.reader (.scan tail limit next rfl hle) trivial)
      simpa [limitOf, hholds next] using hnext
  exact (hscan _ le_rfl).next (.reader (.started tail limit rfl) trivial)

theorem reserves (hs : (loneRing c i volume).Reachable s) (h : Quiet i n s) (hn : n < volume)
    (hlt : n < 2 ^ 32) :
    (loneRing c i volume).Reachable (((s.setHold i n).setWriter i (.held [1] n n)).reserve
      i [1] n) := by
  have hload := hs.next (.writer (.load [1] h.writer (by decide)) (h.stream.le.trans hn.le))
  rw [h.head, h.tail] at hload
  have hcap : 1 < c.capacity := Nat.one_lt_two_pow c.capacity_pos.ne'
  have hroom : sub32 (add32 n 1) n < c.capacity := by
    rwa [add32_sub32 hlt]
  have hhold :=
    hload.next (.writer (.hold [1] n n (update_self ..) hroom) (h.stream.le.trans hn.le))
  have hreserve := hhold.next (.writer (.reserve [1] n n (update_self ..) h.head h.tail) ?_)
  · simpa [State.setHold, State.setWriter] using hreserve
  · simpa [State.reserve, State.setHold, State.setWriter, h.stream] using hn

theorem obtains (hs : (loneRing c i volume).Reachable s) (hreader : s.reader = .idle)
    (hholds : ∀ j, s.holds j = holdEmpty) (hsome : 1 ≤ sub32 s.head s.tail) :
    (loneRing c i volume).Reachable (s.copyOut c ⟨s.tail, s.tail, s.head⟩ 1 0) := by
  have hread := scans hholds (hs.next (.reader (.start hreader) trivial))
  have hadvance := hread.next (.reader (.advance _ 1 rfl hsome) trivial)
  exact hadvance.next (.reader (.copyOut _ 1 0 rfl one_pos) trivial)

theorem round (hs : (loneRing c i volume).Reachable s) (h : Quiet i n s) (hn : n < volume)
    (hlt : n + 1 < 2 ^ 32) : ∃ t, (loneRing c i volume).Reachable t ∧ Quiet i (n + 1) t := by
  have hstream : (s.stream ++ [(1 : UInt8)]).length = n + 1 := by
    rw [length_append, h.stream]
    rfl
  have hle : (s.stream ++ [(1 : UInt8)]).length ≤ volume := hstream.trans_le hn
  have hreserve := reserves hs h hn (by omega)
  have hcopy := hreserve.next (.writer (.copyIn [1] n 0 1 (update_self ..) rfl) hle)
  have hrelease := hcopy.next (.writer (.release [1] n (update_self ..)) hle)
  have hsub : sub32 (add32 n 1) s.tail = 1 := by
    rw [h.tail, add32_sub32 (by omega)]
  have hholds : ∀ j, update (update s.holds i n) i holdEmpty j = holdEmpty := by
    intro j
    by_cases hj : j = i <;> simp [hj, h.holds]
  have hout := obtains hrelease h.reader hholds hsub.ge
  have hcopied := hout.next (.reader (.copied _ 1 rfl) trivial)
  have hcommit := hcopied.next (.reader (.commit _ rfl) trivial)
  have hnext : add32 n 1 = n + 1 := add32_eq hlt
  have htail : add32 s.tail 1 = n + 1 := by rw [h.tail, hnext]
  refine ⟨_, hcommit.next (.reader (.finish _ rfl) trivial), hnext, htail, hholds,
    update_self .., rfl, hstream, ?_⟩
  have htake : sub32 (add32 s.tail 1) s.tail = 1 := by rw [h.tail, add32_sub32 (by omega)]
  simp [State.finish, State.copyOut, State.setWriter, State.setHold,
    State.copyIn, State.reserve, htake,
    h.taken]

/-- At the last offset the hold looks like none, and the byte is read while it is copied. -/
theorem wraps (hvolume : 2 ^ 32 ≤ volume) :
    ∃ s, (loneRing c i volume).Reachable s ∧ ¬Behind i s := by
  have hquiet : ∀ n < 2 ^ 32, ∃ s, (loneRing c i volume).Reachable s ∧ Quiet i n s := by
    intro n
    induction n with
    | zero => exact fun _ => ⟨initial, .start rfl, rfl, rfl, fun _ => rfl, rfl, rfl, rfl, rfl⟩
    | succ n ih =>
      intro hlt
      obtain ⟨s, hs, h⟩ := ih (by omega)
      exact round hs h (by omega) hlt
  obtain ⟨n, hn⟩ : ∃ n, n = holdEmpty := ⟨_, rfl⟩
  have hlt : n < 2 ^ 32 := by
    rw [hn]
    decide
  obtain ⟨s, hs, h⟩ := hquiet n hlt
  have hholds : ∀ j, update s.holds i n j = holdEmpty := by
    intro j
    by_cases hj : j = i <;> simp [hj, hn, h.holds]
  have hsub : sub32 (add32 n 1) s.tail = 1 := by
    rw [h.tail, add32_sub32 hlt]
  have hreserve := reserves hs h (hlt.trans_le hvolume) hlt
  refine ⟨_, obtains hreserve h.reader hholds hsub.ge, fun hbehind => ?_⟩
  have hover := hbehind.2 [1] n 0 (update_self ..)
  simp [State.obtained, State.copyOut, State.reserve, State.setWriter, State.setHold, h.stream,
    h.taken] at hover

/-- **One writer and the reader.** The reader stays behind the writer, however much is written,
if the holds it loads are in order. It does so in every interleaving if and only if less than
2^32 bytes are written. -/
theorem lone_writer_iff (c : Config) (i volume : Nat) (hi : i < c.writersMax) :
    (loneRingWhere c i volume (HoldOrdered i)).Always (Behind i) ∧
      ((loneRing c i volume).Always (Behind i) ↔ volume < 2 ^ 32) := by
  refine ⟨loneRingWhere_behind hi fun _ _ _ hs => hs, fun h => ?_, fun hvolume => ?_⟩
  · by_contra hge
    obtain ⟨s, hs, hnot⟩ := @wraps c i volume (not_lt.mp hge)
    exact hnot (h s hs)
  · exact loneRingWhere_behind hi fun _ h hle _ => h.ordered (hle.trans_lt hvolume)

def oneWriter : Config :=
    ⟨1, 1, twoWriters.capacity_pos, twoWriters.capacity_lt, Nat.one_pos, by decide⟩

theorem lone_writer_wraps : ∃ s, (loneRing oneWriter 0 (2 ^ 32)).Reachable s ∧ ¬Behind 0 s :=
  wraps le_rfl

theorem lone_writer_before : (loneRing oneWriter 0 (2 ^ 32 - 1)).Always (Behind 0) :=
  (lone_writer_iff oneWriter 0 _ (by decide)).2.mpr (by decide)

end XnuXzs.MpscRing
