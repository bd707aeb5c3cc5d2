import XnuXzs.MpscRing.Model

/-!
# What the reader obtains

A reservation that is still being copied lies behind the limit of the reader. So the reader only
comes to bytes that are written, provided that no hold is older than its tail.
-/

namespace XnuXzs.MpscRing

open Lib List Function

variable {c : Config} {s t : State} {i a b j head done limit capacity size tail : Nat} {w : Writer}
  {data : List UInt8} {rd : Reader} {cursor : Cursor}

theorem capacity_bounds (c : Config) : 0 < c.capacity ∧ c.capacity < 2 ^ 32 :=
  ⟨Nat.two_pow_pos _, Nat.pow_lt_pow_right (by decide) (c.capacity_lt.trans (by decide))⟩

theorem add32_eq (h : a + b < 2 ^ 32) : add32 a b = a + b := Nat.mod_eq_of_lt h

theorem sub32_eq (hle : b ≤ a) (ha : a < 2 ^ 32) : sub32 a b = a - b := by
  rw [sub32]
  omega

theorem copyIndex_eq {offset k : Nat} (hsize : size ≤ capacity) (hk : k < size) :
    copyIndex capacity offset size k = (offset + k) % capacity := by
  have hlt : offset % capacity < capacity := Nat.mod_lt _ (by omega)
  have hmod : (offset + k) % capacity = (offset % capacity + k) % capacity := by
    rw [Nat.add_mod, Nat.mod_eq_of_lt (by omega : k < capacity)]
  rw [hmod]
  simp only [copyIndex]
  generalize offset % capacity = trunc at hlt ⊢
  split
  · rw [Nat.mod_eq_of_lt (by omega)]
  · rw [Nat.mod_eq_sub_mod (by omega), Nat.mod_eq_of_lt (by omega)]
    omega

theorem mod_ne_of_near (hne : a ≠ b) (hab : a < b + capacity) (hba : b < a + capacity) :
    a % capacity ≠ b % capacity := by
  intro h
  rcases lt_or_gt_of_ne hne with hlt | hlt
  · have hdvd := (Nat.modEq_iff_dvd' hlt.le).mp h
    exact absurd (Nat.le_of_dvd (by omega) hdvd) (by omega)
  · have hdvd := (Nat.modEq_iff_dvd' hlt.le).mp h.symm
    exact absurd (Nat.le_of_dvd (by omega) hdvd) (by omega)

def WriterOk (c : Config) (s : State) (i : Nat) : Writer → Prop
  | .idle => True
  | .leaving => True
  | .loaded _ head tail => tail ≤ head ∧ head ≤ s.stream.length
  | .held data head tail => tail ≤ head ∧ head ≤ s.stream.length ∧ s.holds i = head ∧
      sub32 (add32 head data.length) tail < c.capacity
  | .copying data head done => done ≤ data.length ∧ data.length < c.capacity ∧
      head + data.length ≤ s.stream.length ∧ s.holds i = head ∧ s.obtained.length ≤ head ∧
      (s.stream.drop head).take data.length = data

/-- No byte before `limit` is still being copied by a writer whose id is below `ids`. -/
def ClearTo (s : State) (ids limit : Nat) : Prop :=
  ∀ i data head done, i < ids → s.writer i = .copying data head done → limit ≤ head

def ReaderOk (c : Config) (s : State) : Reader → Prop
  | .idle => s.session = []
  | .scanning tail limit next => s.session = [] ∧ tail = s.taken.length ∧ tail ≤ limit ∧
      limit ≤ s.stream.length ∧ next ≤ c.writersMax ∧ ClearTo s next limit
  | .reading cursor => s.taken.length ≤ cursor.commitPos ∧ cursor.commitPos ≤ cursor.pos ∧
      cursor.pos ≤ cursor.limit ∧ cursor.limit ≤ s.stream.length ∧
      s.taken.length + s.session.length = cursor.pos ∧ ClearTo s c.writersMax cursor.limit
  | .copying cursor size done => s.taken.length ≤ cursor.commitPos ∧
      cursor.commitPos ≤ cursor.pos ∧ cursor.pos + size ≤ cursor.limit ∧
      cursor.limit ≤ s.stream.length ∧ done ≤ size ∧
      s.taken.length + s.session.length = cursor.pos + done ∧ ClearTo s c.writersMax cursor.limit

structure Inv (c : Config) (s : State) : Prop where
  volume : s.stream.length < 2 ^ 32
  head : s.head = s.stream.length
  tail : s.tail = s.taken.length
  room : s.stream.length < s.taken.length + c.capacity
  obtained : s.obtained <+: s.stream
  ids : ∀ i, c.writersMax ≤ i → s.writer i = .idle
  writer : ∀ i, WriterOk c s i (s.writer i)
  apart : ∀ i j data head done data' head' done', i ≠ j → s.writer i = .copying data head done →
    s.writer j = .copying data' head' done' →
    head + data.length ≤ head' ∨ head' + data'.length ≤ head
  reader : ReaderOk c s s.reader
  intact : ∀ q b, s.taken.length ≤ q → s.stream[q]? = some b → s.Written q →
    s.buffer (q % c.capacity) = b

theorem Inv.sound (h : Inv c s) : Sound c s where
  obtained := h.obtained
  finished := by
    intro i data head done hw
    have hok := h.writer i
    rw [hw] at hok
    exact hok.2.2.2.2.1
  intact := h.intact

theorem inv_initial (c : Config) : Inv c initial where
  volume := by decide
  head := rfl
  tail := rfl
  room := by simpa [initial] using (capacity_bounds c).1
  obtained := nil_prefix
  ids := fun _ _ => rfl
  writer := fun _ => trivial
  apart := fun i j data head done data' head' done' _ hw => by cases hw
  reader := rfl
  intact := by
    intro q b _ hb
    cases hb

theorem move_writer_self (s : State) (i v : Nat) (w : Writer) :
    ((s.setHold i v).setWriter i w).writer i = w := update_self ..

theorem move_writer_of_ne (hji : j ≠ i) (s : State) (v : Nat) (w : Writer) :
    ((s.setHold i v).setWriter i w).writer j = s.writer j := by
  simp [State.setWriter, State.setHold, update_of_ne hji]

theorem move_holds_of_ne (hji : j ≠ i) (s : State) (v : Nat) (w : Writer) :
    ((s.setHold i v).setWriter i w).holds j = s.holds j := by
  simp [State.setWriter, State.setHold, update_of_ne hji]

/-- What a writer knows stays true when the stream grows, while the reader has not come to what
it copies. -/
theorem WriterOk.congr (h : WriterOk c s j w) (hholds : t.holds j = s.holds j)
    (hstream : t.stream = s.stream ++ data)
    (hobtained : ∀ data head done, w = .copying data head done → t.obtained.length ≤ head) :
    WriterOk c t j w := by
  have hlen : s.stream.length ≤ t.stream.length := by
    rw [hstream, length_append]
    omega
  cases w with
  | idle | leaving => trivial
  | loaded => exact ⟨h.1, h.2.trans hlen⟩
  | held => exact ⟨h.1, h.2.1.trans hlen, hholds.trans h.2.2.1, h.2.2.2⟩
  | copying =>
    obtain ⟨hdone, hsize, hend, hhold, -, hdata⟩ := h
    refine ⟨hdone, hsize, hend.trans hlen, hholds.trans hhold, hobtained _ _ _ rfl, ?_⟩
    rw [hstream, drop_append_of_le_length (by omega),
      take_append_of_le_length (by rw [length_drop]; omega), hdata]

theorem ReaderOk.congr (h : ReaderOk c s rd) (hstream : s.stream.length ≤ t.stream.length)
    (htaken : t.taken = s.taken) (hsession : t.session = s.session)
    (hclear : ∀ ids limit, limit ≤ s.stream.length → ClearTo s ids limit → ClearTo t ids limit) :
    ReaderOk c t rd := by
  cases rd with
  | idle => exact hsession.trans h
  | scanning | reading =>
    obtain ⟨h1, h2, h3, h4, h5, h6⟩ := h
    simp only [ReaderOk, htaken, hsession]
    exact ⟨h1, h2, h3, h4.trans hstream, h5, hclear _ _ h4 h6⟩
  | copying =>
    obtain ⟨h1, h2, h3, h4, h5, h6, h7⟩ := h
    simp only [ReaderOk, htaken, hsession]
    exact ⟨h1, h2, h3, h4.trans hstream, h5, h6, hclear _ _ h4 h7⟩

theorem Inv.copying (h : Inv c s) (hw : s.writer i = .copying data head done) :
    WriterOk c s i (.copying data head done) :=
  hw ▸ h.writer i

theorem Inv.behind (h : Inv c s) (hw : s.writer i = .copying data head done) :
    s.obtained.length ≤ head :=
  (h.copying hw).2.2.2.2.1

theorem taken_le (s : State) : s.taken.length ≤ s.obtained.length := by
  rw [State.obtained, length_append]
  omega

theorem Inv.move (h : Inv c s) {v : Nat} (hi : i < c.writersMax)
    (hold : ∀ data head done, s.writer i = .copying data head done → done = data.length)
    (hw : ∀ data head done, w ≠ .copying data head done)
    (hok : WriterOk c ((s.setHold i v).setWriter i w) i w) :
    Inv c ((s.setHold i v).setWriter i w) := by
  -- whoever copies afterwards is another writer, who copied before
  have hother : ∀ j data head done,
      ((s.setHold i v).setWriter i w).writer j = .copying data head done →
      j ≠ i ∧ s.writer j = .copying data head done := by
    intro j data head done hj
    by_cases hji : j = i
    · rw [hji, move_writer_self] at hj
      exact absurd hj (hw data head done)
    · exact ⟨hji, (move_writer_of_ne hji s v w) ▸ hj⟩
  refine ⟨h.volume, h.head, h.tail, h.room, h.obtained, ?_, ?_, ?_, ?_, ?_⟩
  · intro j hj
    rw [move_writer_of_ne (by omega)]
    exact h.ids j hj
  · intro j
    by_cases hji : j = i
    · rw [hji, move_writer_self]
      exact hok
    · rw [move_writer_of_ne hji]
      exact (h.writer j).congr (move_holds_of_ne hji s v w) (append_nil _).symm
        fun _ _ _ => h.behind
  · intro j k data head done data' head' done' hjk hj hk
    exact h.apart j k data head done data' head' done' hjk (hother j _ _ _ hj).2
      (hother k _ _ _ hk).2
  · refine h.reader.congr le_rfl rfl rfl fun ids limit _ hclear j data head done hj hcopy => ?_
    exact hclear j data head done hj (hother j _ _ _ hcopy).2
  · intro q b hq hb hwritten
    refine h.intact q b hq hb fun j data head done hj => ?_
    by_cases hji : j = i
    · subst hji
      have hdone := hold data head done hj
      omega
    · exact hwritten j data head done ((move_writer_of_ne hji s v w).trans hj)

theorem update_copying (hj : update s.writer i w j = .copying data head done) :
    j = i ∧ w = .copying data head done ∨ j ≠ i ∧ s.writer j = .copying data head done := by
  by_cases hji : j = i
  · rw [hji, update_self] at hj
    exact .inl ⟨hji, hj⟩
  · rw [update_of_ne hji] at hj
    exact .inr ⟨hji, hj⟩

section

variable (h : Inv c s) (hi : i < c.writersMax)
include h hi

/-- A reservation begins where the stream has ended, with room for it in the buffer. -/
theorem Inv.reserve (hw : s.writer i = .held data head tail) (hhead : s.head = head)
    (htail : s.tail = tail) (hvolume : (s.reserve i data head).stream.length < 2 ^ 32) :
    Inv c (s.reserve i data head) := by
  have hheld := h.writer i
  rw [hw] at hheld
  obtain ⟨htl, -, hhold, hroom⟩ := hheld
  rw [h.head] at hhead
  rw [h.tail] at htail
  simp only [State.reserve, length_append] at hvolume
  have hsum : add32 head data.length = head + data.length := add32_eq (by omega)
  rw [hsum, sub32_eq (by omega) (by omega)] at hroom
  have hobt := h.obtained.length_le
  refine ⟨?_, ?_, h.tail, ?_, h.obtained.trans (prefix_append ..), ?_, ?_, ?_, ?_, ?_⟩
  · simpa [State.reserve] using hvolume
  · simp only [State.reserve, length_append]
    omega
  · simp only [State.reserve, length_append]
    omega
  · intro j hj
    exact (update_of_ne (by omega) _ _).trans (h.ids j hj)
  · intro j
    by_cases hji : j = i
    · subst hji
      simp only [State.reserve, update_self]
      refine ⟨Nat.zero_le _, by omega, ?_, hhold, ?_, ?_⟩
      · simp only [length_append]
        omega
      · simp only [State.obtained] at hobt ⊢
        omega
      · rw [← hhead, drop_left, take_length]
    · simp only [State.reserve, update_of_ne hji]
      exact (h.writer j).congr rfl rfl fun _ _ _ => h.behind
  · intro j k data1 head1 done1 data2 head2 done2 hjk hj hk
    obtain ⟨rfl, hnew⟩ | ⟨hji, hj⟩ := update_copying hj
    · cases hnew
      obtain ⟨rfl, -⟩ | ⟨-, hk⟩ := update_copying hk
      · exact absurd rfl hjk
      · have := (h.copying hk).2.2.1
        omega
    · obtain ⟨-, hnew⟩ | ⟨-, hk⟩ := update_copying hk
      · cases hnew
        have := (h.copying hj).2.2.1
        omega
      · exact h.apart j k _ _ _ _ _ _ hjk hj hk
  · refine h.reader.congr (by simp [State.reserve]) rfl rfl ?_
    intro ids limit hlimit hclear j data' head' done' hj hcopy
    obtain ⟨-, hnew⟩ | ⟨-, hcopy⟩ := update_copying hcopy
    · cases hnew
      omega
    · exact hclear j _ _ _ hj hcopy
  · intro q b hq hb hwritten
    have hown := hwritten i data head 0 (update_self ..)
    have hqlen : q < (s.stream ++ data).length := (List.getElem?_eq_some_iff.mp hb).1
    rw [length_append] at hqlen
    have hold : s.stream[q]? = some b := by
      rw [← hb]
      exact (getElem?_append_left (by omega)).symm
    refine h.intact q b hq hold fun j data' head' done' hj => ?_
    refine hwritten j data' head' done' ((update_of_ne ?_ _ _).trans hj)
    rintro rfl
    rw [hw] at hj
    cases hj

/-- A byte is stored where no byte is that the reader has not finished with. -/
theorem Inv.copyIn {b : UInt8}
    (hw : s.writer i = .copying data head done) (hb : data[done]? = some b) :
    Inv c (s.copyIn c i data head done b) := by
  obtain ⟨hdone, hsize, hend, hhold, hbehind, hdata⟩ := h.copying hw
  have hlt : done < data.length := (List.getElem?_eq_some_iff.mp hb).1
  have htaken := taken_le s
  have hroom := h.room
  have hindex : copyIndex c.capacity head data.length done = (head + done) % c.capacity :=
    copyIndex_eq hsize.le hlt
  have hbyte : s.stream[head + done]? = some b := by
    rw [← hb, ← hdata, getElem?_take_of_lt hlt, getElem?_drop]
  refine ⟨h.volume, h.head, h.tail, h.room, h.obtained, ?_, ?_, ?_, ?_, ?_⟩
  · intro j hj
    exact (update_of_ne (by omega) _ _).trans (h.ids j hj)
  · intro j
    by_cases hji : j = i
    · subst hji
      simp only [State.copyIn, update_self]
      exact ⟨hlt, hsize, hend, hhold, hbehind, hdata⟩
    · simp only [State.copyIn, update_of_ne hji]
      exact (h.writer j).congr rfl (append_nil _).symm fun _ _ _ => h.behind
  · intro j k data1 head1 done1 data2 head2 done2 hjk hj hk
    obtain ⟨rfl, hnew⟩ | ⟨-, hbefore⟩ := update_copying hj
    · cases hnew
      obtain ⟨rfl, -⟩ | ⟨-, hother⟩ := update_copying hk
      · exact absurd rfl hjk
      · exact h.apart _ k _ _ _ _ _ _ hjk hw hother
    obtain ⟨rfl, hnew⟩ | ⟨-, hother⟩ := update_copying hk
    · cases hnew
      exact h.apart j _ _ _ _ _ _ _ hjk hbefore hw
    · exact h.apart j k _ _ _ _ _ _ hjk hbefore hother
  · refine h.reader.congr le_rfl rfl rfl ?_
    intro ids limit hlimit hclear j data' head' done' hj hcopy
    obtain ⟨rfl, hnew⟩ | ⟨-, hcopy⟩ := update_copying hcopy
    · cases hnew
      exact hclear _ _ _ _ hj hw
    · exact hclear j _ _ _ hj hcopy
  · intro q b' hq hb' hwritten
    simp only [State.copyIn, hindex]
    by_cases hqp : q = head + done
    · subst hqp
      rw [update_self]
      exact Option.some.inj (hbyte.symm.trans hb')
    have hqlen : q < s.stream.length := (List.getElem?_eq_some_iff.mp hb').1
    have hapart : q % c.capacity ≠ (head + done) % c.capacity :=
      mod_ne_of_near hqp (by omega) (by simp only [State.copyIn] at hq; omega)
    rw [update_of_ne hapart]
    refine h.intact q b' hq hb' fun j data' head' done' hj => ?_
    by_cases hji : j = i
    · subst hji
      rw [hw] at hj
      cases hj
      have := hwritten j data head (done + 1) (update_self ..)
      omega
    · exact hwritten j data' head' done' ((update_of_ne hji _ _).trans hj)

theorem Inv.setWriter
    (hold : ∀ data head done, s.writer i = .copying data head done → done = data.length)
    (hw : ∀ data head done, w ≠ .copying data head done) (hok : WriterOk c s i w) :
    Inv c (s.setWriter i w) := by
  have hsame : s.setWriter i w = (s.setHold i (s.holds i)).setWriter i w := by
    simp [State.setHold]
  rw [hsame]
  refine h.move hi hold hw (hok.congr ?_ (append_nil _).symm ?_)
  · simp [State.setWriter, State.setHold]
  · intro data head done hcopy
    exact absurd hcopy (hw data head done)

theorem Inv.writerStep (hstep : WriterStep c s i t)
    (hvolume : t.stream.length < 2 ^ 32) : Inv c t := by
  have hloaded : WriterOk c s i (.loaded [] s.head s.tail) := by
    have hle := (taken_le s).trans h.obtained.length_le
    rw [h.head, h.tail]
    exact ⟨hle, le_rfl⟩
  cases hstep with
  | load data hidle hsize | retry data head tail hidle =>
    exact h.setWriter hi (by rw [hidle]; rintro _ _ _ ⟨⟩) (by rintro _ _ _ ⟨⟩) hloaded
  | giveUp data head tail hw hfull =>
    exact h.setWriter hi (by rw [hw]; rintro _ _ _ ⟨⟩) (by rintro _ _ _ ⟨⟩) trivial
  | hold data head tail hw hroom =>
    have hok := h.writer i
    rw [hw] at hok
    refine h.move hi (by rw [hw]; rintro _ _ _ ⟨⟩) (by rintro _ _ _ ⟨⟩) ⟨hok.1, hok.2, ?_, hroom⟩
    simp [State.setWriter, State.setHold]
  | reserve data head tail hw hhead htail => exact h.reserve hi hw hhead htail hvolume
  | copyIn data head done b hw hb => exact h.copyIn hi hw hb
  | release data head hw =>
    refine h.move hi ?_ (by rintro _ _ _ ⟨⟩) trivial
    rw [hw]
    rintro _ _ _ ⟨⟩
    rfl
  | leave hw => exact h.move hi (by rw [hw]; rintro _ _ _ ⟨⟩) (by rintro _ _ _ ⟨⟩) trivial

end

theorem Inv.setReader (h : Inv c s) (hok : ReaderOk c s rd) :
    Inv c { s with reader := rd } :=
  ⟨h.volume, h.head, h.tail, h.room, h.obtained, h.ids,
    fun i => (h.writer i).congr rfl (append_nil _).symm fun _ _ _ => h.behind,
    h.apart, hok.congr le_rfl rfl rfl fun _ _ _ hclear => hclear, h.intact⟩

/-- Nobody copies but the writers that there are. -/
theorem Inv.clearAll (h : Inv c s) (hclear : ClearTo s c.writersMax limit)
    (hw : s.writer i = .copying data head done) : limit ≤ head := by
  by_cases hi : i < c.writersMax
  · exact hclear i data head done hi hw
  · rw [h.ids i (by omega)] at hw
    cases hw

/-- A hold not older than the tail keeps the limit between the tail and every write in progress
looked at. -/
theorem Inv.scan (h : Inv c s) {next : Nat} (hr : s.reader = .scanning tail limit next)
    (hnext : next < c.writersMax) (hfresh : s.holds next = holdEmpty ∨ tail ≤ s.holds next) :
    ReaderOk c s (.scanning tail (limitOf limit (s.holds next)) (next + 1)) := by
  have hok := h.reader
  rw [hr] at hok
  obtain ⟨hsession, htail, hlo, hhi, -, hclear⟩ := hok
  have hle : limitOf limit (s.holds next) ≤ limit := by
    rw [limitOf]
    split <;> omega
  have hge : tail ≤ limitOf limit (s.holds next) := by
    rw [limitOf]
    split <;> omega
  refine ⟨hsession, htail, hge, hle.trans hhi, hnext, fun i data head done hi hw => ?_⟩
  by_cases hin : i = next
  · subst hin
    have hhold := (h.copying hw).2.2.2.1
    have hvolume := h.volume
    rw [limitOf, hhold, holdEmpty]
    split <;> omega
  · exact hle.trans (hclear i data head done (by omega) hw)

theorem Inv.buffer_eq (h : Inv c s) {q : Nat} (hclear : ClearTo s c.writersMax limit)
    (hlo : s.taken.length ≤ q) (hq : q < limit) (hlimit : limit ≤ s.stream.length) :
    s.stream[q]? = some (s.buffer (q % c.capacity)) := by
  obtain ⟨b, hb⟩ : ∃ b, s.stream[q]? = some b := ⟨_, getElem?_eq_getElem (by omega)⟩
  rw [hb, h.intact q b hlo hb]
  intro i data head done hw
  have := h.clearAll hclear hw
  omega

theorem prefix_concat {xs ys : List UInt8} {b : UInt8} (h : xs <+: ys)
    (hb : ys[xs.length]? = some b) : xs ++ [b] <+: ys := by
  obtain ⟨zs, rfl⟩ := h
  rw [getElem?_append_right le_rfl, Nat.sub_self] at hb
  obtain ⟨rest, rfl⟩ := head?_eq_some_iff.mp (head?_eq_getElem? ▸ hb)
  exact ⟨rest, by rw [append_assoc, singleton_append]⟩

theorem Inv.copyOut (h : Inv c s) (hr : s.reader = .copying cursor size done)
    (hdone : done < size) :
    Inv c (s.copyOut c cursor size done) := by
  have hok := h.reader
  rw [hr] at hok
  obtain ⟨hcommit, hpos, hend, hlimit, -, hlen, hclear⟩ := hok
  have hroom := h.room
  have hindex : copyIndex c.capacity cursor.pos size done = (cursor.pos + done) % c.capacity :=
    copyIndex_eq (by omega) hdone
  have hbyte := h.buffer_eq hclear (by omega : s.taken.length ≤ cursor.pos + done) (by omega) hlimit
  have hobt : s.obtained.length = cursor.pos + done := by
    rw [State.obtained, length_append, hlen]
  have hobt' : (s.copyOut c cursor size done).obtained =
      s.obtained ++ [s.buffer ((cursor.pos + done) % c.capacity)] := by
    simp [State.copyOut, State.obtained, hindex]
  refine ⟨h.volume, h.head, h.tail, h.room, ?_, h.ids, fun i => ?_, h.apart, ?_, h.intact⟩
  · rw [hobt']
    exact prefix_concat h.obtained (hobt ▸ hbyte)
  · refine (h.writer i).congr rfl (append_nil _).symm fun data head k hw => ?_
    have := h.clearAll hclear hw
    rw [hobt', length_append, hobt, length_singleton]
    omega
  · refine ⟨hcommit, hpos, hend, hlimit, hdone, ?_, hclear⟩
    simp only [State.copyOut, length_append, length_singleton]
    omega

theorem Inv.finish (h : Inv c s) (hr : s.reader = .reading cursor) :
    Inv c (s.finish cursor) := by
  have hok := h.reader
  rw [hr] at hok
  obtain ⟨hcommit, hpos, hend, hlimit, hlen, hclear⟩ := hok
  have hroom := h.room
  have hvolume := h.volume
  have hsub : sub32 cursor.commitPos s.tail = cursor.commitPos - s.taken.length := by
    rw [h.tail, sub32_eq hcommit (by omega)]
  have htaken : (s.finish cursor).taken.length = cursor.commitPos := by
    simp only [State.finish, hsub, length_append, length_take]
    omega
  have hobt : (s.finish cursor).obtained <+: s.obtained := by
    simp only [State.finish, State.obtained, append_nil]
    exact (prefix_append_right_inj _).mpr <| take_prefix ..
  refine ⟨h.volume, h.head, htaken.symm, ?_, hobt.trans h.obtained,
    h.ids, fun i => ?_, h.apart, rfl,
    ?_⟩
  · rw [htaken]
    simp only [State.finish]
    omega
  · refine (h.writer i).congr rfl (append_nil _).symm fun data head k hw => ?_
    exact hobt.length_le.trans (h.behind hw)
  · intro q b hq
    exact h.intact q b (by omega)

theorem Inv.cancel (h : Inv c s) : Inv c { s with reader := .idle, session := [] } := by
  have hobt : State.obtained { s with reader := .idle, session := [] } <+: s.obtained := by
    simp only [State.obtained, append_nil]
    exact prefix_append ..
  refine ⟨h.volume, h.head, h.tail, h.room, hobt.trans h.obtained, h.ids, fun i => ?_, h.apart, rfl,
    h.intact⟩
  refine (h.writer i).congr rfl (append_nil _).symm fun data head k hw => ?_
  exact hobt.length_le.trans (h.behind hw)

theorem Inv.readerStep (h : Inv c s) (hstep : ReaderStep c s t) (hfresh : HoldFresh c s) :
    Inv c t := by
  have hok := h.reader
  have hvolume := h.volume
  cases hstep with
  | start hidle =>
    rw [hidle] at hok
    have hle := (taken_le s).trans h.obtained.length_le
    refine h.setReader ⟨hok, h.tail, ?_, h.head.le, Nat.zero_le _, ?_⟩
    · rw [h.head, h.tail]
      exact hle
    · intro i data head done hi
      omega
  | scan tail limit next hr hnext =>
    exact h.setReader (h.scan hr hnext (hfresh tail limit next hr hnext))
  | started tail limit hr =>
    rw [hr] at hok
    obtain ⟨hsession, htail, hlo, hhi, -, hclear⟩ := hok
    refine h.setReader ⟨htail.ge, le_rfl, hlo, hhi, ?_, hclear⟩
    rw [hsession, htail]
    rfl
  | advance cursor size hr hsize =>
    rw [hr] at hok
    obtain ⟨hcommit, hpos, hend, hlimit, hlen, hclear⟩ := hok
    rw [sub32_eq hend (by omega)] at hsize
    exact h.setReader ⟨hcommit, hpos, by omega, hlimit, Nat.zero_le _, hlen, hclear⟩
  | copyOut cursor size done hr hdone => exact h.copyOut hr hdone
  | copied cursor size hr =>
    rw [hr] at hok
    obtain ⟨hcommit, hpos, hend, hlimit, -, hlen, hclear⟩ := hok
    have hsum : add32 cursor.pos size = cursor.pos + size := add32_eq (by omega)
    refine h.setReader ⟨hcommit, ?_, ?_, hlimit, ?_, hclear⟩ <;> dsimp only <;> omega
  | commit cursor hr =>
    rw [hr] at hok
    obtain ⟨hcommit, hpos, hend, hlimit, hlen, hclear⟩ := hok
    exact h.setReader ⟨hcommit.trans hpos, le_rfl, hend, hlimit, hlen, hclear⟩
  | finish cursor hr => exact h.finish hr
  | cancel => exact h.cancel

/-- In every interleaving in which no hold that the reader loads is older than its tail, the
reader obtains a beginning of the stream, nothing of a write in progress, and what it has
not finished with stays in the buffer. -/
theorem ring_sound (c : Config) : (ringWhere c (HoldFresh c)).Always (Sound c) := by
  have hinv : (ringWhere c (HoldFresh c)).Always (Inv c) := by
    apply System.always_of_step
    · rintro s rfl
      exact inv_initial c
    intro s t hs hstep
    cases hstep with
    | writer i hi hstep hvolume => exact hs.writerStep hi hstep hvolume
    | reader hstep hfresh => exact hs.readerStep hstep hfresh
  exact fun s hs => (hinv s hs).sound

def twoWriters : Config := ⟨1, 2, by decide, by decide, by decide, by decide⟩

/-- While the first writer has loaded the offsets, the other writes a byte and the reader takes it.
Then the first publishes its hold, older than the tail, and the limit falls behind the reader: it
obtains a byte that nobody has written. -/
theorem stale_hold_reached : ∃ s, (ring twoWriters).Reachable s ∧ s.stream = [9] ∧
    s.obtained = [9, 0] := by
  have hstart : (ring twoWriters).Reachable initial := .start rfl
  have hload := hstart.next (.writer 0 (by decide) (.load [7] rfl (by decide)) (by decide))
  -- the other writer
  have h1 := hload.next (.writer 1 (by decide) (.load [9] rfl (by decide)) (by decide))
  have h2 := h1.next (.writer 1 (by decide) (.hold [9] 0 0 rfl (by decide)) (by decide))
  have h3 := h2.next (.writer 1 (by decide) (.reserve [9] 0 0 rfl rfl rfl) (by decide))
  have h4 := h3.next (.writer 1 (by decide) (.copyIn [9] 0 0 9 rfl rfl) (by decide))
  have h5 := h4.next (.writer 1 (by decide) (.release [9] 0 rfl) (by decide))
  -- the reader takes the byte
  have h6 := h5.next (.reader (.start rfl) trivial)
  have h7 := h6.next (.reader (.scan 0 1 0 rfl (by decide)) trivial)
  have h8 := h7.next (.reader (.scan 0 1 1 rfl (by decide)) trivial)
  have h9 := h8.next (.reader (.started 0 1 rfl) trivial)
  have h10 := h9.next (.reader (.advance ⟨0, 0, 1⟩ 1 rfl (by decide)) trivial)
  have h11 := h10.next (.reader (.copyOut ⟨0, 0, 1⟩ 1 0 rfl (by decide)) trivial)
  have h12 := h11.next (.reader (.copied ⟨0, 0, 1⟩ 1 rfl) trivial)
  have h13 := h12.next (.reader (.commit ⟨0, 1, 1⟩ rfl) trivial)
  have h14 := h13.next (.reader (.finish ⟨1, 1, 1⟩ rfl) trivial)
  -- the first writer publishes what it has loaded
  have hhold := h14.next (.writer 0 (by decide) (.hold [7] 0 0 rfl (by decide)) (by decide))
  have h15 := hhold.next (.reader (.start rfl) trivial)
  have h16 := h15.next (.reader (.scan 1 1 0 rfl (by decide)) trivial)
  have h17 := h16.next (.reader (.scan 1 0 1 rfl (by decide)) trivial)
  have h18 := h17.next (.reader (.started 1 0 rfl) trivial)
  have h19 := h18.next (.reader (.advance ⟨1, 1, 0⟩ 1 rfl (by decide)) trivial)
  have h20 := h19.next (.reader (.copyOut ⟨1, 1, 0⟩ 1 0 rfl (by decide)) trivial)
  exact ⟨_, h20, rfl, rfl⟩

theorem stale_hold : ¬ (ring twoWriters).Always (Sound twoWriters) := by
  intro h
  obtain ⟨s, hs, hstream, hobtained⟩ := stale_hold_reached
  have hprefix := (h s hs).obtained.length_le
  rw [hstream, hobtained] at hprefix
  exact absurd hprefix (by decide)

end XnuXzs.MpscRing
