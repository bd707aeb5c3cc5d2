import XnuXzs.DataQueue.Model

/-!
# The entries in the queue region

The unread entries lie one behind the other from the head up to the tail, or go on at the
beginning from some offset. All that the reader depends on lies there.
-/

namespace XnuXzs.DataQueue

open Lib List

def Entry.bytes (e : Entry) : List UInt8 := leBytes headerSize e.payload.length ++ e.payload

def Entry.size (e : Entry) : Nat := headerSize + e.payload.length

/-- The entry stands in memory where it was put. -/
def Entry.Stored (mem : Nat → UInt8) (e : Entry) : Prop := bytesAt mem e.offset e.size = e.bytes

/-- The bytes between head and tail, going round. -/
def Used (head tail a : Nat) : Prop := if head ≤ tail then head ≤ a ∧ a < tail else a < tail ∨
    head ≤ a

/-- Entries one behind the other from `a` to `b`. -/
def Linear (mem : Nat → UInt8) : Nat → Nat → List Entry → Prop
  | a, b, [] => a = b
  | a, b, e :: rest =>
    e.offset = a ∧ e.payload.length ≤ uint32Max - headerSize ∧ e.Stored mem ∧
      Linear mem (a + e.size) b rest

variable {mem mem' : Nat → UInt8} {a b : Nat} {l : List Entry}

theorem Linear.le (hl : Linear mem a b l) : a ≤ b := by
  induction l generalizing a with
  | nil => exact le_of_eq hl
  | cons e rest ih => exact (Nat.le_add_right ..).trans (ih hl.2.2.2)

theorem Linear.congr (hl : Linear mem a b l) (hsame : ∀ i, a ≤ i → i < b → mem' i = mem i) :
    Linear mem' a b l := by
  induction l generalizing a with
  | nil => exact hl
  | cons e rest ih =>
    obtain ⟨hoffset, hsize, hstored, hrest⟩ := hl
    have hle := hrest.le
    refine ⟨hoffset, hsize, ?_, ih hrest fun i hi => hsame i (by omega)⟩
    rw [Entry.Stored, ← hstored]
    apply bytesAt_congr
    intro c hc
    exact hsame _ (by omega) (by omega)

theorem Linear.concat (hl : Linear mem a b l) {e : Entry} (hoffset : e.offset = b)
    (hsize : e.payload.length ≤ uint32Max - headerSize) (hstored : e.Stored mem) :
    Linear mem a (b + e.size) (l ++ [e]) := by
  induction l generalizing a with
  | nil =>
    cases hl
    exact ⟨hoffset, hsize, hstored, rfl⟩
  | cons f rest ih =>
    obtain ⟨hf, hf', hstored', hrest⟩ := hl
    exact ⟨hf, hf', hstored', ih hrest⟩

theorem Linear.stored (hl : Linear mem a b l) {e : Entry} (he : e ∈ l) :
    e.Stored mem ∧ e.offset + e.size ≤ b := by
  induction l generalizing a with
  | nil => cases he
  | cons f rest ih =>
    obtain ⟨hf, -, hstored, hrest⟩ := hl
    rcases mem_cons.mp he with rfl | hmem
    · exact ⟨hstored, hf ▸ hrest.le⟩
    · exact ih hrest hmem

/-- The size of the first entry at the beginning stands at `w` if it fits, so that the reader
sees the turn. -/
structure Turn (mem : Nat → UInt8) (queueSize w : Nat) (first : Entry) : Prop where
  inside : w ≤ queueSize
  beyond : queueSize < w + first.size
  marker : w + headerSize ≤ queueSize → bytesAt mem w headerSize =
    leBytes headerSize first.payload.length

inductive Layout (mem : Nat → UInt8) (queueSize head tail : Nat) : List Entry → Prop
  | straight {l : List Entry} (hin : tail ≤ queueSize) (hl : Linear mem head tail l) :
      Layout mem queueSize head tail l
  | round {l : List Entry} {w : Nat} {first : Entry} {rest : List Entry} (hlow : tail < head)
      (hl : Linear mem head w l) (hturn : Turn mem queueSize w first)
      (hfront : Linear mem 0 tail (first :: rest)) :
      Layout mem queueSize head tail (l ++ first :: rest)

variable {queueSize head tail : Nat} {rest : List Entry} {e : Entry}

theorem Layout.congr (hl : Layout mem queueSize head tail l)
    (hsame : ∀ a, Used head tail a → mem' a = mem a) : Layout mem' queueSize head tail l := by
  cases hl with
  | straight hin hl =>
    have hle := hl.le
    refine .straight hin (hl.congr fun i hi hlt => hsame i ?_)
    rw [Used, if_pos hle]
    exact ⟨hi, hlt⟩
  | round hlow hl hturn hfront =>
    have hused : ∀ a, a < tail ∨ head ≤ a → Used head tail a := by
      intro a ha
      rw [Used, if_neg (by omega)]
      exact ha
    have hle := hl.le
    refine .round hlow (hl.congr fun i hi _ => hsame i (hused i (.inr hi)))
      ⟨hturn.inside, hturn.beyond, fun hfits => ?_⟩
      (hfront.congr fun i _ hlt => hsame i (hused i (.inl hlt)))
    rw [← hturn.marker hfits]
    apply bytesAt_congr
    intro c _
    exact hsame _ (hused _ (.inr (by omega)))

theorem Layout.head_le (hl : Layout mem queueSize head tail l) : head ≤ queueSize := by
  cases hl with
  | straight hin hl => exact hl.le.trans hin
  | round hlow hl hturn => exact hl.le.trans hturn.inside

theorem Layout.stored (hl : Layout mem queueSize head tail l) {e : Entry} (he : e ∈ l) :
    e.Stored mem ∧ e.offset + e.size ≤ queueSize := by
  cases hl with
  | straight hin hl =>
    obtain ⟨hstored, hend⟩ := hl.stored he
    exact ⟨hstored, hend.trans hin⟩
  | round hlow hl hturn hfront =>
    rcases mem_append.mp he with hmem | hmem
    · obtain ⟨hstored, hend⟩ := hl.stored hmem
      exact ⟨hstored, hend.trans hturn.inside⟩
    obtain ⟨hstored, hend⟩ := hfront.stored hmem
    have hle := hl.le
    have hin := hturn.inside
    exact ⟨hstored, by omega⟩

/-- Where the reader finds the first entry, and what is left behind it. -/
inductive Taken (mem : Nat → UInt8) (queueSize head tail : Nat) (e : Entry) (rest : List Entry) :
    Prop
  | here (hoffset : e.offset = head) (hin : head + e.size ≤ queueSize)
      (hrest : Layout mem queueSize (head + e.size) tail rest)
      (hside : head + e.size ≤ tail ∨ tail < head)
      (hused : ∀ a, Used (head + e.size) tail a → Used head tail a)
      (howns : ∀ i < e.size, Used head tail (head + i))
  | front (hoffset : e.offset = 0) (hturn : Turn mem queueSize head e) (hle : e.size ≤ tail)
      (hrest : Layout mem queueSize e.size tail rest) (hlow : tail < head)
      (hused : ∀ a, Used e.size tail a → Used head tail a)
      (howns : ∀ i < e.size, Used head tail i)

theorem Layout.take (hl : Layout mem queueSize head tail (e :: rest)) :
    e.payload.length ≤ uint32Max - headerSize ∧ e.Stored mem ∧
      Taken mem queueSize head tail e rest := by
  generalize hall : e :: rest = all at hl
  cases hl with
  | straight hin hl =>
    subst hall
    obtain ⟨hoffset, hsize, hstored, hrest⟩ := hl
    have hle := hrest.le
    refine ⟨hsize, hstored, .here hoffset (hle.trans hin) (.straight hin hrest) (.inl hle) ?_ ?_⟩
    · intro a ha
      rw [Used, if_pos hle] at ha
      rw [Used, if_pos (by omega)]
      omega
    · intro i hi
      rw [Used, if_pos (by omega)]
      omega
  | @round l w first others hlow hl hturn hfront =>
    cases l with
    | nil =>
      cases hall
      cases hl
      obtain ⟨hoffset, hsize, hstored, hrest⟩ := hfront
      rw [zero_add] at hrest
      have hle := hrest.le
      have hin := hturn.inside
      refine ⟨hsize, hstored, .front hoffset hturn hle (.straight (by omega) hrest) hlow ?_ ?_⟩
      · intro a ha
        rw [Used, if_pos hle] at ha
        rw [Used, if_neg (by omega)]
        exact .inl ha.2
      · intro i hi
        rw [Used, if_neg (by omega)]
        exact .inl (by omega)
    | cons f l =>
      cases hall
      obtain ⟨hoffset, hsize, hstored, hrest⟩ := hl
      have hle := hrest.le
      refine ⟨hsize, hstored, .here hoffset (hle.trans hturn.inside)
        (.round (by omega) hrest hturn hfront) (.inr hlow) ?_ ?_⟩
      · intro a ha
        rw [Used, if_neg (by omega)] at ha
        rw [Used, if_neg (by omega)]
        omega
      · intro i hi
        rw [Used, if_neg (by omega)]
        omega

theorem Layout.eq_nil_iff (hl : Layout mem queueSize head tail l) : l = [] ↔ head = tail := by
  cases hl with
  | straight hin hl =>
    cases l with
    | nil => exact ⟨fun _ => hl, fun _ => rfl⟩
    | cons e rest =>
      have hle := hl.2.2.2.le
      have hpos : 0 < e.size :=
        lt_of_lt_of_le (by decide : 0 < headerSize) (Nat.le_add_right ..)
      exact ⟨nofun, by omega⟩
  | round =>
    exact ⟨fun hnil => absurd hnil (by simp), by omega⟩

/-- There is room for an entry at the placement, whatever the reader does. -/
inductive Room (queueSize head tail : Nat) (p : Placement) (size : Nat) : Prop
  | behind (hoffset : p.offset = tail) (hmarker : p.marker = none) (htail : p.newTail = tail + size)
      (hin : tail + size ≤ queueSize) (hfree : head ≤ tail ∨ tail + size < head)
  | front (hoffset : p.offset = 0)
      (hmarker : p.marker = if tail + headerSize ≤ queueSize then some tail else none)
      (htail : p.newTail = size) (hin : tail ≤ queueSize) (hbeyond : queueSize < tail + size)
      (hstraight : head ≤ tail) (hfree : size < head)

theorem placement_room {dataSize : Nat} {p : Placement} (hq : queueSize ≤ uint32Max)
    (hp : placement queueSize tail head dataSize = some p) :
    dataSize ≤ uint32Max - headerSize ∧ Room queueSize head tail p (headerSize + dataSize) := by
  have hheader : headerSize = 4 := rfl
  have hmax : uint32Max = 2 ^ 32 - 1 := rfl
  unfold placement at hp
  split at hp
  · cases hp
  have hmod : (dataSize + headerSize) % 2 ^ 32 = dataSize + headerSize :=
    Nat.mod_eq_of_lt (by omega)
  simp only [hmod] at hp
  refine ⟨by omega, ?_⟩
  by_cases hout : queueSize < tail ∨ queueSize < head
  · rw [if_pos hout] at hp
    cases hp
  rw [if_neg hout] at hp
  by_cases hle : head ≤ tail
  · rw [if_pos hle] at hp
    by_cases hend : dataSize + headerSize ≤ uint32Max - tail ∧
        tail + (dataSize + headerSize) ≤ queueSize
    · rw [if_pos hend] at hp
      cases hp
      exact .behind rfl rfl (by simp only; omega) (by omega) (.inl hle)
    rw [if_neg hend] at hp
    by_cases hfront : dataSize + headerSize < head
    · rw [if_pos hfront] at hp
      cases hp
      refine .front rfl ?_ (by simp only; omega) (by omega) (by omega) hle (by omega)
      by_cases hfits : tail + headerSize ≤ queueSize
      · simp [if_pos hfits, if_pos (by omega : headerSize ≤ queueSize - tail)]
      · simp [if_neg hfits, if_neg (by omega : ¬ headerSize ≤ queueSize - tail)]
    · rw [if_neg hfront] at hp
      cases hp
  · rw [if_neg hle] at hp
    by_cases hfits : dataSize + headerSize < head - tail
    · rw [if_pos hfits] at hp
      cases hp
      exact .behind rfl rfl (by simp only; omega) (by omega) (.inr (by omega))
    · rw [if_neg hfits] at hp
      cases hp

def nextHead (queueSize head : Nat) (e : Entry) : Nat :=
  if queueSize < head + e.size then e.size else head + e.size

theorem Taken.layout (ht : Taken mem queueSize head tail e rest) :
    Layout mem queueSize (nextHead queueSize head e) tail rest ∧
      ∀ a, Used (nextHead queueSize head e) tail a → Used head tail a := by
  cases ht with
  | here hoffset hin hrest hside hused howns =>
    rw [nextHead, if_neg (by omega)]
    exact ⟨hrest, hused⟩
  | front hoffset hturn hle hrest hlow hused howns =>
    rw [nextHead, if_pos hturn.beyond]
    exact ⟨hrest, hused⟩

theorem Room.taken {p : Placement} {size : Nat}
    (hr : Room queueSize head tail p size) (ht : Taken mem queueSize head tail e rest) :
    Room queueSize (nextHead queueSize head e) tail p size := by
  cases ht with
  | here =>
    rw [nextHead, if_neg (by omega)]
    cases hr with
    | behind ho hm ht hfits => exact .behind ho hm ht hfits (by omega)
    | front ho hm ht hfits hbeyond =>
      exact .front ho hm ht hfits hbeyond (by omega) (by omega)
  | front hoffset hturn hle =>
    rw [nextHead, if_pos hturn.beyond]
    cases hr with
    | behind ho hm ht hfits => exact .behind ho hm ht hfits (.inl hle)
    | front ho hm ht hfits hbeyond hstraight => exact absurd hstraight (by omega)

theorem mem_addressed {offset : Nat} {bytes : List UInt8} {b : UInt8} :
    (a, b) ∈ addressed offset bytes ↔ ∃ i, ∃ hi : i < bytes.length, a = offset + i ∧
      b = bytes[i] := by
  simp only [addressed, mem_mapIdx, Prod.mk.injEq]
  constructor
  · rintro ⟨i, hi, ha, hb⟩
    exact ⟨i, hi, ha.symm, hb.symm⟩
  · rintro ⟨i, hi, ha, hb⟩
    exact ⟨i, hi, ha.symm, hb.symm⟩

theorem bytesAt_of_addressed {offset : Nat} {bytes : List UInt8}
    (hall : ∀ a b, (a, b) ∈ addressed offset bytes → mem a = b) :
    bytesAt mem offset bytes.length = bytes := by
  apply bytesAt_eq_of_getElem
  intro i hi
  exact hall _ _ (mem_addressed.mpr ⟨i, hi, rfl, rfl⟩)

variable {p : Placement} {data : List UInt8}

theorem Placement.mem_stores {b : UInt8} (hab : (a, b) ∈ p.stores data) :
    (∃ i < headerSize + data.length, a = p.offset + i) ∨
      ∃ m, p.marker = some m ∧ ∃ i < headerSize, a = m + i := by
  rcases mem_append.mp hab with hentry | hmarker
  · obtain ⟨i, hi, ha, -⟩ := mem_addressed.mp hentry
    rw [length_append, leBytes_length] at hi
    exact .inl ⟨i, hi, ha⟩
  rcases hm : p.marker with _ | m
  · rw [hm] at hmarker
    cases hmarker
  rw [hm, Option.elim_some] at hmarker
  obtain ⟨i, hi, ha, -⟩ := mem_addressed.mp hmarker
  exact .inr ⟨m, rfl, i, hi, ha⟩

theorem Room.avoids (hr : Room queueSize head tail p (headerSize + data.length)) {b : UInt8}
    (hab : (a, b) ∈ p.stores data) : ¬ Used head tail a := by
  unfold Used
  cases hr with
  | behind ho hm =>
    rcases Placement.mem_stores hab with ⟨i, hi, rfl⟩ | ⟨m, hmarker, -⟩
    · split <;> omega
    · rw [hm] at hmarker
      cases hmarker
  | front ho hm ht hfits hbeyond hstraight hfree =>
    rw [if_pos hstraight]
    rcases Placement.mem_stores hab with ⟨i, hi, rfl⟩ | ⟨m, hmarker, i, hi, rfl⟩
    · omega
    rw [hm] at hmarker
    split at hmarker
    · cases hmarker
      omega
    · cases hmarker

theorem Room.stores_unique (hr : Room queueSize head tail p (headerSize + data.length))
    {b b' : UInt8} (hab : (a, b) ∈ p.stores data) (hab' : (a, b') ∈ p.stores data) : b = b' := by
  have happart : ∀ m, p.marker = some m → p.offset + (headerSize + data.length) ≤ m := by
    intro m hmarker
    cases hr with
    | behind ho hm =>
      rw [hm] at hmarker
      cases hmarker
    | front ho hm =>
      rw [hm] at hmarker
      split at hmarker
      · cases hmarker
        omega
      · cases hmarker
  have hsame : ∀ {offset : Nat} {bytes : List UInt8}, (a, b) ∈ addressed offset bytes →
      (a, b') ∈ addressed offset bytes → b = b' := by
    intro offset bytes h h'
    obtain ⟨i, hi, ha, hb⟩ := mem_addressed.mp h
    obtain ⟨j, hj, ha', hb'⟩ := mem_addressed.mp h'
    obtain rfl : i = j := by omega
    rw [hb, hb']
  have hcross : ∀ {c c' : UInt8}, (a, c) ∈
    addressed p.offset (leBytes headerSize data.length ++ data) →
      (a, c') ∉ p.marker.elim [] fun m => addressed m (leBytes headerSize data.length) := by
    intro c c' hentry hmarker
    obtain ⟨i, hi, ha, -⟩ := mem_addressed.mp hentry
    rw [length_append, leBytes_length] at hi
    rcases hm : p.marker with _ | m
    · rw [hm] at hmarker
      cases hmarker
    rw [hm, Option.elim_some] at hmarker
    obtain ⟨j, -, ha', -⟩ := mem_addressed.mp hmarker
    have := happart m hm
    omega
  rcases mem_append.mp hab with h | h
  · rcases mem_append.mp hab' with h' | h'
    · exact hsame h h'
    · exact absurd h' (hcross h)
  rcases mem_append.mp hab' with h' | h'
  · exact absurd h (hcross h')
  rcases hm : p.marker with _ | m
  · rw [hm] at h
    cases h
  · rw [hm, Option.elim_some] at h h'
    exact hsame h h'

theorem Layout.publish (hl : Layout mem queueSize head tail l)
    (hr : Room queueSize head tail p (headerSize + data.length))
    (hsize : data.length ≤ uint32Max - headerSize)
    (hall : ∀ a b, (a, b) ∈ p.stores data → mem a = b) :
    Layout mem queueSize head p.newTail (l ++ [⟨p.offset, data⟩]) := by
  have hstored : (⟨p.offset, data⟩ : Entry).Stored mem := by
    have := bytesAt_of_addressed fun a b hab => hall a b (mem_append_left _ hab)
    rwa [length_append, leBytes_length] at this
  cases hr with
  | behind ho hm ht hfits hfree =>
    rw [ht]
    cases hl with
    | straight hin hl => exact .straight hfits (hl.concat ho hsize hstored)
    | round hlow hl hturn hfront =>
      rw [append_assoc, cons_append]
      exact .round (by omega) hl hturn (hfront.concat ho hsize hstored)
  | front ho hm ht hfits hbeyond hstraight hfree =>
    rw [ht]
    cases hl with
    | straight hin hl =>
      refine .round hfree hl ⟨hin, hbeyond, fun hroom => ?_⟩ ⟨ho, hsize, hstored, zero_add _⟩
      rw [if_pos hroom] at hm
      have := @bytesAt_of_addressed mem tail (leBytes headerSize data.length) fun a b hab =>
        hall a b (mem_append_right _ (by rw [hm]; exact hab))
      rwa [leBytes_length] at this
    | round => exact absurd hstraight (by omega)

end XnuXzs.DataQueue
