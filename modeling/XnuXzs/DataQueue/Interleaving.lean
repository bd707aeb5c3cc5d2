import XnuXzs.DataQueue.Layout

/-!
# Any interleaving

What each of the two threads knows at each point of its call. The writer only stores where the
reader does not look.
-/

namespace XnuXzs.DataQueue

open Lib List Function

def State.unread (s : State) : List Entry := s.sent.drop s.got.length

def WriterInv (queueSize : Nat) (s : State) : Prop :=
  match s.writer with
  | .loadHead _ tail => tail = s.tail
  | .storing data p _ _ stores =>
    data.length ≤ uint32Max - headerSize ∧
      Room queueSize s.head s.tail p (headerSize + data.length) ∧ stores ⊆ p.stores data ∧
      ∀ a b, (a, b) ∈ p.stores data → (a, b) ∈ stores ∨ s.mem a = b
  | _ => True

def ReaderInv (queueSize : Nat) (s : State) : Prop :=
  match s.reader with
  | .loadTail _ headOffset => headOffset = s.head
  | .reload => s.unread ≠ []
  | .loadHeadSize _ headOffset read =>
    headOffset = s.head ∧ read.length ≤ headerSize ∧ s.unread ≠ [] ∧
      (headOffset + headerSize ≤ queueSize → read = bytesAt s.mem headOffset read.length)
  | .loadEntrySize _ headOffset wrapped read =>
    headOffset = s.head ∧ read.length ≤ headerSize ∧ ∃ e rest, s.unread = e :: rest ∧
      wrapped = decide (queueSize < headOffset + e.size) ∧ read = bytesAt s.mem e.offset read.length
  | .copying entry entrySize newHead read =>
    ∃ e rest, s.unread = e :: rest ∧ entry = e.offset ∧ entrySize = e.payload.length ∧
      newHead = nextHead queueSize s.head e ∧ read.length ≤ e.payload.length ∧
      read = e.payload.take read.length
  | .storeHead newHead copied =>
    ∃ e rest, s.unread = e :: rest ∧ newHead = nextHead queueSize s.head e ∧
      ∀ data, copied = some data → data = e.payload
  | .refused buffer seen =>
    seen = s.got.length ∨ ∃ room e rest, buffer = some room ∧ s.unread = e :: rest ∧
      room < e.payload.length
  | .peeked none seen => seen = s.got.length
  | .peeked (some entry) _ => ∃ e rest, s.unread = e :: rest ∧ e.offset = entry
  | _ => True

structure Inv (queueSize : Nat) (s : State) : Prop where
  layout : Layout s.mem queueSize s.head s.tail s.unread
  taken : s.got.length ≤ s.sent.length
  writer : WriterInv queueSize s
  reader : ReaderInv queueSize s

variable {mem : Nat → UInt8} {queueSize head tail i : Nat} {e : Entry} {rest : List Entry}
  {read : List UInt8}

theorem bytesAt_succ (mem : Nat → UInt8) (off n : Nat) :
    bytesAt mem off (n + 1) = bytesAt mem off n ++ [mem (off + n)] := bytesAt_append mem off n 1

theorem Taken.offset_eq (ht : Taken mem queueSize head tail e rest) :
    e.offset = if decide (queueSize < head + e.size) then 0 else head := by
  cases ht with
  | here hoffset =>
    rw [decide_eq_false (by omega), hoffset]
    rfl
  | front hoffset hturn =>
    rw [decide_eq_true hturn.beyond, hoffset]
    rfl

theorem Taken.entry_used (ht : Taken mem queueSize head tail e rest) (hi : i < e.size) :
    Used head tail (e.offset + i) := by
  cases ht with
  | here hoffset hin hrest hside hused howns =>
    rw [hoffset]
    exact howns i hi
  | front hoffset hturn hle hrest hlow hused howns =>
    rw [hoffset, zero_add]
    exact howns i hi

theorem Taken.header_used (ht : Taken mem queueSize head tail e rest) (hi : i < headerSize) :
    Used head tail (head + i) := by
  cases ht with
  | here hoffset hin hrest hside hused howns =>
    exact howns i (hi.trans_le (Nat.le_add_right ..))
  | front =>
    rw [Used, if_neg (by omega)]
    exact .inr (Nat.le_add_right ..)

theorem Entry.Stored.header (hs : e.Stored mem) :
    bytesAt mem e.offset headerSize = leBytes headerSize e.payload.length :=
  (bytesAt_field hs (Nat.le_add_right ..)).1

theorem Entry.Stored.payload (hs : e.Stored mem) (hi : i < e.payload.length) :
    mem (e.offset + headerSize + i) = e.payload[i] := by
  have hdata := (bytesAt_field hs (Nat.le_add_right ..)).2
  rw [Entry.size, Nat.add_sub_cancel_left] at hdata
  have hlen : i < (bytesAt mem (e.offset + headerSize) e.payload.length).length := by
    rwa [bytesAt_length]
  rw [← bytesAt_getElem hlen]
  simp [hdata]

theorem leValue_header {n : Nat} (hn : n ≤ uint32Max - headerSize) :
    leValue (leBytes headerSize n) = n := by
  rw [leValue_leBytes]
  exact Nat.mod_eq_of_lt (lt_of_le_of_lt hn (by decide))

theorem Taken.headSize (ht : Taken mem queueSize head tail e rest) (hs : e.Stored mem)
    (hfits : head + headerSize ≤ queueSize) :
    bytesAt mem head headerSize = leBytes headerSize e.payload.length := by
  cases ht with
  | here hoffset =>
    rw [← hoffset]
    exact hs.header
  | front hoffset hturn => exact hturn.marker hfits

theorem Taken.wrapped_eq (hq : queueSize ≤ uint32Max) (ht : Taken mem queueSize head tail e rest)
    (hs : e.Stored mem) (hsize : e.payload.length ≤ uint32Max - headerSize)
    (hread : head + headerSize ≤ queueSize → read = bytesAt mem head headerSize) :
    wrapped queueSize head (leValue read) = decide (queueSize < head + e.size) := by
  unfold wrapped Entry.size
  apply decide_eq_decide.mpr
  by_cases hfits : head + headerSize ≤ queueSize
  · rw [hread hfits, ht.headSize hs hfits, leValue_header hsize]
    omega
  · omega

theorem Taken.newHead_eq (ht : Taken mem queueSize head tail e rest) (hq : queueSize ≤ uint32Max)
    (hsize : e.payload.length ≤ uint32Max - headerSize) (htail : tail ≤ queueSize) :
    newHeadOffset queueSize head (decide (queueSize < head + e.size)) e.payload.length =
      some (nextHead queueSize head e) := by
  have hdef : e.size = headerSize + e.payload.length := rfl
  unfold newHeadOffset nextHead
  cases ht with
  | here hoffset hin =>
    simp only [not_lt.mpr hin, decide_false, Bool.false_eq_true, if_false]
    rw [if_neg (by omega)]
    congr 1
    omega
  | front hoffset hturn =>
    simp only [hturn.beyond, decide_true, if_true]
    rw [if_neg (by omega)]
    congr 1
    omega

variable {s t : State}

theorem State.tail_le (hinv : Inv queueSize s) : s.tail ≤ queueSize := by
  have hl := hinv.layout
  generalize s.unread = l at hl
  cases hl with
  | straight hin => exact hin
  | round hlow hl hturn hfront =>
    have hle := hl.le
    have hin := hturn.inside
    omega

/-- The reader does not see what the writer does: the used bytes stay, and at most an entry is
added. -/
theorem ReaderInv.writer_step (hinv : Inv queueSize s) (hreader : t.reader = s.reader)
    (hhead : t.head = s.head) (hgot : t.got = s.got) {more : List Entry}
    (hunread : t.unread = s.unread ++ more)
    (hsame : ∀ a, Used s.head s.tail a → t.mem a = s.mem a) : ReaderInv queueSize t := by
  have hkeep : ∀ {e rest}, s.unread = e :: rest → t.unread = e :: (rest ++ more) := by
    intro e rest h
    rw [hunread, h, cons_append]
  have hold := hinv.reader
  unfold ReaderInv at hold ⊢
  rw [hreader, hhead, hgot]
  cases hphase : s.reader with
  | idle | dequeued => trivial
  | loadTail => simpa [hphase] using hold
  | reload =>
    simp only [hphase] at hold
    obtain ⟨e, rest, h⟩ := exists_cons_of_ne_nil hold
    exact ne_of_eq_of_ne (hkeep h) (cons_ne_nil _ _)
  | loadHeadSize =>
    simp only [hphase] at hold
    obtain ⟨rfl, hlen, hne, hread⟩ := hold
    obtain ⟨e, rest, h⟩ := exists_cons_of_ne_nil hne
    refine ⟨rfl, hlen, ne_of_eq_of_ne (hkeep h) (cons_ne_nil _ _), fun hfits => ?_⟩
    obtain ⟨-, -, htaken⟩ := (h ▸ hinv.layout : Layout _ _ _ _ (e :: rest)).take
    refine (hread hfits).trans (bytesAt_congr fun c hc => ?_)
    exact (hsame _ (htaken.header_used (hc.trans_le hlen))).symm
  | loadEntrySize =>
    simp only [hphase] at hold
    obtain ⟨rfl, hlen, e, rest, h, hwrapped, hread⟩ := hold
    refine ⟨rfl, hlen, e, _, hkeep h, hwrapped, ?_⟩
    obtain ⟨-, -, htaken⟩ := (h ▸ hinv.layout : Layout _ _ _ _ (e :: rest)).take
    refine hread.trans (bytesAt_congr fun c hc => ?_)
    exact (hsame _ (htaken.entry_used (hc.trans_le (hlen.trans (Nat.le_add_right ..))))).symm
  | copying | storeHead =>
    simp only [hphase] at hold
    obtain ⟨e, rest, h, hcopy⟩ := hold
    exact ⟨e, _, hkeep h, hcopy⟩
  | refused =>
    simp only [hphase] at hold
    rcases hold with hseen | ⟨room, e, rest, hbuffer, h, hroom⟩
    · exact .inl hseen
    · exact .inr ⟨room, e, _, hbuffer, hkeep h, hroom⟩
  | peeked entry seen =>
    cases entry with
    | none => simpa [hphase] using hold
    | some entry =>
      simp only [hphase] at hold
      obtain ⟨e, rest, h, hentry⟩ := hold
      exact ⟨e, _, hkeep h, hentry⟩

theorem Inv.withWriter (hinv : Inv queueSize s) {w : Writer}
    (hw : WriterInv queueSize { s with writer := w }) : Inv queueSize { s with writer := w } :=
  ⟨hinv.layout, hinv.taken, hw, hinv.reader⟩

theorem writer_step (hq : queueSize ≤ uint32Max) (hinv : Inv queueSize s)
    (hstep : WriterStep queueSize s t) : Inv queueSize t := by
  have hwriter := hinv.writer
  cases hstep with
  | enqueue => exact hinv.withWriter rfl
  | full | notify => exact hinv.withWriter trivial
  | place data tail p hat hp =>
    simp only [WriterInv, hat] at hwriter
    subst hwriter
    obtain ⟨hsize, hroom⟩ := placement_room hq hp
    exact hinv.withWriter ⟨hsize, hroom, List.Subset.refl _, fun a b hab => .inl hab⟩
  | store data p tail head before after address byte hat =>
    simp only [WriterInv, hat] at hwriter
    obtain ⟨hsize, hroom, hsub, hdone⟩ := hwriter
    have hmem := hsub (mem_append_right _ (mem_cons_self ..))
    have hsame : ∀ a, Used s.head s.tail a → update s.mem address byte a = s.mem a := by
      intro a ha
      apply update_of_ne
      rintro rfl
      exact hroom.avoids hmem ha
    refine ⟨hinv.layout.congr hsame, hinv.taken, ⟨hsize, hroom, ?_, ?_⟩, ?_⟩
    · intro ab hab
      apply hsub
      rcases mem_append.mp hab with h | h
      · exact mem_append_left _ h
      · exact mem_append_right _ (mem_cons_of_mem _ h)
    · intro a b hab
      by_cases ha : a = address
      · subst ha
        right
        simp only [update_self]
        exact hroom.stores_unique hmem hab
      rcases hdone a b hab with hpending | hstored
      · left
        rcases mem_append.mp hpending with h | h
        · exact mem_append_left _ h
        · rcases mem_cons.mp h with heq | h
          · exact absurd (congrArg Prod.fst heq) ha
          · exact mem_append_right _ h
      · right
        simp only [update_of_ne ha]
        exact hstored
    · exact ReaderInv.writer_step hinv rfl rfl rfl (append_nil _).symm hsame
  | publish data p tail head hat =>
    simp only [WriterInv, hat] at hwriter
    obtain ⟨hsize, hroom, -, hdone⟩ := hwriter
    have hall : ∀ a b, (a, b) ∈ p.stores data → s.mem a = b := by
      intro a b hab
      rcases hdone a b hab with h | h
      · cases h
      · exact h
    have hunread : (s.sent ++ [(⟨p.offset, data⟩ : Entry)]).drop s.got.length =
        s.unread ++ [⟨p.offset, data⟩] := drop_append_of_le_length hinv.taken
    refine ⟨?_, ?_, ?_, ReaderInv.writer_step hinv rfl rfl rfl hunread fun _ _ => rfl⟩
    · simp only [State.unread, hunread]
      exact hinv.layout.publish hroom hsize hall
    · rw [length_append]
      exact hinv.taken.trans (Nat.le_add_right ..)
    unfold WriterInv
    by_cases hne : tail ≠ head
    · simp [if_pos hne]
    · simp [if_neg hne]
  | recheck tail hat =>
    apply hinv.withWriter
    split <;> trivial

theorem State.getElem?_unread (h : s.unread = e :: rest) : s.sent[s.got.length]? = some e := by
  have hfirst := congrArg (·[0]?) h
  simpa [State.unread, getElem?_cons_zero] using hfirst

theorem Inv.withReader (hinv : Inv queueSize s) {r : Reader}
    (hr : ReaderInv queueSize { s with reader := r }) : Inv queueSize { s with reader := r } :=
  ⟨hinv.layout, hinv.taken, hinv.writer, hr⟩

theorem Inv.sent_eq_got (hinv : Inv queueSize s) (hempty : s.head = s.tail) :
    s.sent.length = s.got.length :=
  le_antisymm (drop_eq_nil_iff.mp (hinv.layout.eq_nil_iff.mpr hempty)) hinv.taken

theorem Inv.unread_ne (hinv : Inv queueSize s) (hsome : s.head ≠ s.tail) : s.unread ≠ [] :=
  fun h => hsome (hinv.layout.eq_nil_iff.mp h)

theorem Inv.first (hinv : Inv queueSize s) {e : Entry} {rest : List Entry}
    (h : s.unread = e :: rest) : e.payload.length ≤ uint32Max - headerSize ∧ e.Stored s.mem ∧
      Taken s.mem queueSize s.head s.tail e rest :=
  (h ▸ hinv.layout : Layout _ _ _ _ (e :: rest)).take

theorem Inv.sized (hq : queueSize ≤ uint32Max) (hinv : Inv queueSize s) (h : s.unread = e :: rest)
    {buffer : Option Nat} (hread : read = bytesAt s.mem e.offset headerSize) (seen : Nat) :
    ReaderInv queueSize { s with
      reader := afterSize queueSize buffer s.head (decide (queueSize < s.head + e.size))
        (leValue read) seen } := by
  obtain ⟨hsize, hstored, htaken⟩ := hinv.first h
  rw [hread, hstored.header, leValue_header hsize]
  unfold afterSize
  rw [htaken.newHead_eq hq hsize (State.tail_le hinv), ← htaken.offset_eq]
  cases buffer with
  | none => exact ⟨e, rest, h, rfl, nofun⟩
  | some room =>
    dsimp only
    split_ifs with hsmall
    · exact .inr ⟨room, e, rest, rfl, h, hsmall⟩
    · exact ⟨e, rest, h, rfl, rfl, rfl, Nat.zero_le _, rfl⟩

theorem State.unread_take (h : s.unread = e :: rest) (copied : Option (List UInt8)) :
    s.sent.drop (s.got ++ [copied]).length = rest := by
  have := congrArg (List.drop 1) h
  rw [State.unread, drop_drop, drop_succ_cons, drop_zero] at this
  rwa [length_append, length_singleton]

theorem Inv.take (hinv : Inv queueSize s) (h : s.unread = e :: rest)
    (copied : Option (List UInt8)) :
    Inv queueSize { s with
      head := nextHead queueSize s.head e
      reader := .dequeued copied
      got := s.got ++ [copied] } := by
  obtain ⟨-, -, htaken⟩ := hinv.first h
  obtain ⟨hlayout, -⟩ := htaken.layout
  have hlt := (List.getElem?_eq_some_iff.mp (State.getElem?_unread h)).1
  refine ⟨?_, ?_, ?_, trivial⟩
  · simp only [State.unread, State.unread_take h copied]
    exact hlayout
  · rw [length_append, length_singleton]
    exact hlt
  have hwriter := hinv.writer
  unfold WriterInv at hwriter ⊢
  cases hphase : s.writer with
  | storing =>
    simp only [hphase] at hwriter
    obtain ⟨hsize, hroom, hrest⟩ := hwriter
    exact ⟨hsize, hroom.taken htaken, hrest⟩
  | loadHead => simpa [hphase] using hwriter
  | _ => trivial

theorem reader_step (hq : queueSize ≤ uint32Max) (hinv : Inv queueSize s)
    (hstep : ReaderStep queueSize s t) : Inv queueSize t := by
  have hreader := hinv.reader
  cases hstep with
  | begin => exact hinv.withReader rfl
  | empty call headOffset hat hempty =>
    simp only [ReaderInv, hat] at hreader
    have hseen := hinv.sent_eq_got (hreader.symm.trans hempty)
    apply hinv.withReader
    cases call with
    | peek => exact hseen
    | dequeue => exact .inl hseen
  | peekTail headOffset hat hsome =>
    simp only [ReaderInv, hat] at hreader
    exact hinv.withReader (hinv.unread_ne (hreader ▸ hsome))
  | dequeueTail buffer headOffset hat hsome hin =>
    simp only [ReaderInv, hat] at hreader
    exact hinv.withReader ⟨hreader, Nat.zero_le _, hinv.unread_ne (hreader ▸ hsome), fun _ => rfl⟩
  | dequeueOutside buffer headOffset hat hsome hout =>
    simp only [ReaderInv, hat] at hreader
    exact absurd (hreader ▸ hout) (not_lt.mpr hinv.layout.head_le)
  | peekOutside hat hout => exact absurd hout (not_lt.mpr hinv.layout.head_le)
  | reload hat hin =>
    simp only [ReaderInv, hat] at hreader
    exact hinv.withReader ⟨rfl, Nat.zero_le _, hreader, fun _ => rfl⟩
  | headByte call headOffset read hat hmore =>
    simp only [ReaderInv, hat] at hreader
    obtain ⟨hhead, hlen, hne, hread⟩ := hreader
    refine hinv.withReader ⟨hhead, ?_, hne, fun hfits => ?_⟩
    · rw [length_append]
      exact hmore
    · rw [length_append, length_singleton, bytesAt_succ, ← hread hfits]
  | headSize call headOffset read hat hall =>
    simp only [ReaderInv, hat] at hreader
    obtain ⟨rfl, hlen, hne, hread⟩ := hreader
    obtain ⟨e, rest, h⟩ := exists_cons_of_ne_nil hne
    obtain ⟨hsize, hstored, htaken⟩ := hinv.first h
    rw [hall] at hread
    rw [htaken.wrapped_eq hq hstored hsize hread]
    apply hinv.withReader
    cases call with
    | peek => exact ⟨e, rest, h, htaken.offset_eq⟩
    | dequeue => exact ⟨rfl, Nat.zero_le _, e, rest, h, rfl, rfl⟩
  | entryByte buffer headOffset wrapped read hat hmore =>
    simp only [ReaderInv, hat] at hreader
    obtain ⟨rfl, hlen, e, rest, h, rfl, hread⟩ := hreader
    obtain ⟨-, -, htaken⟩ := hinv.first h
    rw [← htaken.offset_eq]
    refine hinv.withReader ⟨rfl, ?_, e, rest, h, rfl, ?_⟩
    · rw [length_append]
      exact hmore
    · rw [length_append, length_singleton, bytesAt_succ, ← hread]
  | entrySize buffer headOffset wrapped read hat hall =>
    simp only [ReaderInv, hat] at hreader
    obtain ⟨rfl, hlen, e, rest, h, rfl, hread⟩ := hreader
    rw [hall] at hread
    exact hinv.withReader (hinv.sized hq h hread _)
  | copyByte entry entrySize newHead read hat hmore =>
    simp only [ReaderInv, hat] at hreader
    obtain ⟨e, rest, h, rfl, rfl, hnew, hlen, hread⟩ := hreader
    obtain ⟨-, hstored, -⟩ := hinv.first h
    refine hinv.withReader ⟨e, rest, h, rfl, rfl, hnew, ?_, ?_⟩
    · rw [length_append]
      exact hmore
    · rw [length_append, length_singleton, take_add_one,
        getElem?_eq_getElem hmore, hstored.payload hmore, ← hread]
      rfl
  | copied entry entrySize newHead read hat hall =>
    simp only [ReaderInv, hat] at hreader
    obtain ⟨e, rest, h, rfl, rfl, hnew, hlen, hread⟩ := hreader
    refine hinv.withReader ⟨e, rest, h, hnew, ?_⟩
    rintro data ⟨⟩
    rw [hread, hall, take_length]
  | storeHead newHead copied hat =>
    simp only [ReaderInv, hat] at hreader
    obtain ⟨e, rest, h, rfl, hcopied⟩ := hreader
    exact hinv.take h copied
  | leaveDequeued | leaveRefused | leavePeeked =>
    exact hinv.withReader trivial

theorem inv_always (hq : queueSize ≤ uint32Max) : (system queueSize).Always (Inv queueSize) := by
  apply System.always_of_step
  · rintro s ⟨hhead, htail, hwriter, hreader, hsent, hgot⟩
    refine ⟨?_, ?_, ?_, ?_⟩
    · rw [State.unread, hsent, drop_nil, hhead, htail]
      exact .straight (Nat.zero_le _) rfl
    · rw [hgot]
      exact Nat.zero_le _
    · rw [WriterInv, hwriter]
      trivial
    · rw [ReaderInv, hreader]
      trivial
  · rintro s t hinv (hstep | hstep)
    · exact writer_step hq hinv hstep
    · exact reader_step hq hinv hstep

/-- What a `dequeue` has copied is the payload, if it had a buffer. -/
def Copies (copied : Option (List UInt8)) (payload : List UInt8) : Prop :=
  ∀ data, copied = some data → data = payload

/-- The queue as its callers see it. -/
def Shows (s : State) (q : Queue (List UInt8)) : Prop :=
  q.sent = s.sent.map Entry.payload ∧ List.Forall₂ Copies s.got q.delivered

/-- A step appends an entry, or takes the first unread one, or does neither. -/
theorem step_effect (hinv : Inv queueSize s) (hstep : (system queueSize).step s t) :
    (t.sent = s.sent ∧ t.got = s.got) ∨ (∃ e, t.sent = s.sent ++ [e] ∧ t.got = s.got) ∨
      ∃ e copied, s.sent[s.got.length]? = some e ∧ Copies copied e.payload ∧ t.sent = s.sent ∧
        t.got = s.got ++ [copied] := by
  rcases hstep with hstep | hstep
  · cases hstep with
    | publish => exact .inr (.inl ⟨_, rfl, rfl⟩)
    | _ => exact .inl ⟨rfl, rfl⟩
  cases hstep with
  | storeHead newHead copied hat =>
    have hreader := hinv.reader
    simp only [ReaderInv, hat] at hreader
    obtain ⟨e, rest, h, -, hcopied⟩ := hreader
    exact .inr (.inr ⟨e, copied, State.getElem?_unread h, hcopied, rfl, rfl⟩)
  | _ => exact .inl ⟨rfl, rfl⟩

/-- The shared queue is a queue of payloads. -/
theorem system_simulates (hq : queueSize ≤ uint32Max) :
    (system queueSize).Simulates (fifo (List UInt8)) Shows where
  init := by
    rintro s ⟨-, -, -, -, hsent, hgot⟩
    refine ⟨⟨[], []⟩, ⟨rfl, rfl⟩, ?_, ?_⟩
    · rw [hsent]
      rfl
    · rw [hgot]
      exact .nil
  step := by
    rintro s t q hs ⟨hsent, hgot⟩ hstep
    have heffect := step_effect (inv_always hq s hs) hstep
    rcases heffect with ⟨hsent', hgot'⟩ | ⟨e, hsent', hgot'⟩
      | ⟨e, copied, he, hcopied, hsent', hgot'⟩
    · exact ⟨q, .refl, by rw [hsent', hsent], by rw [hgot']; exact hgot⟩
    · refine ⟨_, .single (.push q e.payload), ?_, by rw [hgot']; exact hgot⟩
      simp [hsent', hsent]
    refine ⟨_, .single (.pop q e.payload ?_), by rw [hsent', hsent], ?_⟩
    · rw [hsent, ← hgot.length_eq, getElem?_map, he]
      rfl
    · rw [hgot']
      exact rel_append hgot (.cons hcopied .nil)

/-- Payloads come out in order, unread entries are untouched, and both calls are about the first. -/
structure Ordered (queueSize : Nat) (s : State) : Prop where
  inOrder : ∃ delivered, delivered <+: s.sent.map Entry.payload ∧
    List.Forall₂ Copies s.got delivered
  intact : ∀ (k : Nat) e, s.got.length ≤ k → s.sent[k]? = some e →
    e.Stored s.mem ∧ e.offset + e.size ≤ queueSize
  peeked : ∀ entry seen, s.reader = .peeked (some entry) seen →
    ∃ e, s.sent[s.got.length]? = some e ∧ e.offset = entry
  peekedNothing : ∀ seen, s.reader = .peeked none seen → seen = s.got.length
  refused : ∀ buffer seen, s.reader = .refused buffer seen → seen = s.got.length ∨
    ∃ room e, buffer = some room ∧ s.sent[s.got.length]? = some e ∧ room < e.payload.length

/-- For every capacity and in every interleaving. -/
theorem queue_ordered (queueSize : UInt32) :
    (system queueSize.toNat).Always (Ordered queueSize.toNat) := by
  have hq := Nat.le_of_lt_succ queueSize.toNat_lt
  intro s hs
  have hinv := inv_always hq s hs
  have hreader := hinv.reader
  refine ⟨?_, ?_, ?_, ?_, ?_⟩
  · obtain ⟨q, hreach, hsent, hgot⟩ := (system_simulates hq).reachable hs
    exact ⟨q.delivered, hsent ▸ fifo_ordered q hreach, hgot⟩
  · intro k e hk he
    apply hinv.layout.stored
    rw [State.unread, ← Nat.add_sub_of_le hk, ← getElem?_drop] at *
    exact mem_of_getElem? he
  · intro entry seen hat
    simp only [ReaderInv, hat] at hreader
    obtain ⟨e, rest, h, hentry⟩ := hreader
    exact ⟨e, State.getElem?_unread h, hentry⟩
  · intro seen hat
    simpa [ReaderInv, hat] using hreader
  intro buffer seen hat
  simp only [ReaderInv, hat] at hreader
  rcases hreader with hseen | ⟨room, e, rest, hbuffer, h, hroom⟩
  · exact .inl hseen
  · exact .inr ⟨room, e, hbuffer, State.getElem?_unread h, hroom⟩

end XnuXzs.DataQueue
