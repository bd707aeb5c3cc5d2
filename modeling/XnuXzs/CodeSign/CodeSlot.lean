import XnuXzs.CodeSign.PageHash

/-!
# Pages without a code slot

A page that is one behind the last slot, or one behind the last page of a scatter
element, passes the tests of the search. What it gets is the hash of its slot only in
special cases.
-/

namespace XnuXzs.CodeSign

open Lib List

/-- A code directory that validation has accepted. -/
structure Directory where
  pageShift : Nat
  buffer : Buffer
  cd : Nat
  csSize : Nat
  inside : cd + field buffer cd .length ≤ buffer.size
  accepted : validateCodedirectory pageShift buffer cd (field buffer cd .length) = .ok ()
  hashType : findMd (buffer.byte (cd + hashTypeOffset)).toNat = some csSize

namespace Directory

variable (d : Directory)

def nCodeSlots : Nat := field d.buffer d.cd .nCodeSlots

def slotAddress (slot : Nat) : Nat := d.cd + field d.buffer d.cd .hashOffset + slot * d.csSize

def scatter : List Element := scatterElements d.buffer d.cd

theorem ok : DirectoryOk d.buffer d.cd (field d.buffer d.cd .length) d.csSize := by
  obtain ⟨csSize, hok⟩ := (validateCodedirectory_yields d.inside).of_ok d.accepted
  obtain rfl : csSize = d.csSize := Option.some.inj (hok.hashType.symm.trans d.hashType)
  exact hok

theorem slotAddress_inj {i j : Nat} (h : d.slotAddress i = d.slotAddress j) : i = j :=
  Nat.eq_of_mul_eq_mul_right (findMd_pos d.hashType) (add_left_cancel h)

end Directory

def Element.Contains (e : Element) (page : Nat) : Prop := e.base ≤ page ∧ page < e.base + e.count

def HasSlot (d : Directory) (page hash : Nat) : Prop :=
  if HasScatter d.buffer d.cd then
    ∃ front e back, d.scatter = front ++ e :: back ∧ e.Contains page ∧
      (∀ x ∈ front ++ back, ¬ x.Contains page) ∧
      slots front + (page - e.base) < d.nCodeSlots ∧
      hash = d.slotAddress (slots front + (page - e.base))
  else page < d.nCodeSlots ∧ hash = d.slotAddress page

/-- The search goes past the elements in front and stops at one: bases increase, and ends, in 32
bits, are inclusive. -/
structure StopsAt (page : Nat) (front : List Element) (e : Element) : Prop where
  passed : ∀ x ∈ front, x.base ≤ page ∧ x.wrapEnd < page
  ordered : (front ++ [e]).IsChain fun x y => x.base < y.base
  starts : e.base ≤ page
  ends : page ≤ e.wrapEnd

/-- The page is one of the element's, or the first of the next one's, and no other's. -/
def Lands (page : Nat) (front : List Element) (e : Element) (back : List Element) : Prop :=
  (page < e.base + e.count ∧ ∀ x ∈ front ++ back, ¬ x.Contains page) ∨
    page = e.base + e.count ∧ ∃ e' back', back = e' :: back' ∧ e'.base = page ∧
      ∀ x ∈ front ++ back', ¬ x.Contains page

/-- When what is returned for a page is the hash of its slot. -/
def SlotSafe (d : Directory) (page : Nat) : Prop :=
  if HasScatter d.buffer d.cd then
    ∀ front e back, d.scatter = front ++ e :: back → StopsAt page front e →
      slots front ≤ d.nCodeSlots → d.slotAddress (slots front + e.count) ≤ d.buffer.size →
      d.slotAddress (slots front + (page - e.base) + 1) ≤ d.buffer.size →
      slots front + (page - e.base) < d.nCodeSlots ∧ Lands page front e back
  else page = d.nCodeSlots → d.buffer.size < d.slotAddress (page + 1)

theorem scatterFind_iff {page hashindex sbase slot : Nat} {els : List Element} {e : Element}
    (hcounts : ∀ x ∈ els, x.count ≠ 0) :
    scatterFind page els hashindex sbase = some (e, slot) ↔
      ∃ front back, els = front ++ e :: back ∧ StopsAt page front e ∧
        (0 < hashindex → ∀ x ∈ (front ++ [e]).head?, sbase < x.base) ∧
        slot = hashindex + slots front := by
  induction els generalizing hashindex sbase with
  | nil => simp [scatterFind]
  | cons y els ih =>
    have hy := hcounts y mem_cons_self
    have ih := @ih (hashindex + y.count) y.base fun x hx => hcounts x (mem_cons_of_mem y hx)
    unfold scatterFind
    constructor
    · intro hfind
      split at hfind
      · cases hfind
      rename_i hgo
      rw [not_or, not_and, not_le, not_lt] at hgo
      split at hfind
      · rename_i hstop
        cases hfind
        refine ⟨[], els, rfl, ⟨nofun, isChain_singleton _, hgo.2, hstop⟩, fun hpos x hx => ?_, rfl⟩
        cases hx
        exact hgo.1 hpos
      · rename_i hpass
        obtain ⟨front, back, rfl, hstops, hprev, rfl⟩ := ih.mp hfind
        refine ⟨y :: front, back, rfl, ⟨?_, ?_, hstops.starts, hstops.ends⟩,
          fun hpos x hx => ?_, ?_⟩
        · intro x hx
          rcases mem_cons.mp hx with rfl | hx
          · exact ⟨hgo.2, Nat.lt_of_not_le hpass⟩
          · exact hstops.passed x hx
        · exact isChain_cons.mpr ⟨hprev (by omega), hstops.ordered⟩
        · cases hx
          exact hgo.1 hpos
        · rw [slots_cons]
          omega
    · rintro ⟨front, back, hels, hstops, hprev, hslot⟩
      rcases front with _ | ⟨x, front⟩
      · cases hels
        rw [if_neg, if_pos hstops.ends, hslot]
        · rfl
        · rw [not_or, not_and, not_le, not_lt]
          exact ⟨fun hpos => hprev hpos e rfl, hstops.starts⟩
      · cases hels
        obtain ⟨hstart, hpassed⟩ := hstops.passed y mem_cons_self
        obtain ⟨hfirst, hchain⟩ := isChain_cons.mp hstops.ordered
        rw [if_neg, if_neg (not_le.mpr hpassed)]
        · refine ih.mpr ⟨front, back, rfl, ⟨fun x hx =>
            hstops.passed x (mem_cons_of_mem y hx), hchain,
            hstops.starts, hstops.ends⟩, fun _ => hfirst, ?_⟩
          rw [hslot, slots_cons]
          omega
        · rw [not_or, not_and, not_le, not_lt]
          exact ⟨fun hpos => hprev hpos y rfl, hstart⟩

theorem slots_append (front back : List Element) :
    slots (front ++ back) = slots front + slots back := by
  unfold slots
  rw [map_append, sum_append]

theorem hashes_scatter (d : Directory) {page hash : Nat} (hscatter : HasScatter d.buffer d.cd) :
    hashes d.buffer d.cd page d.csSize = .ok (some hash) ↔
      ∃ front e back, d.scatter = front ++ e :: back ∧ StopsAt page front e ∧
        slots front ≤ d.nCodeSlots ∧ d.slotAddress (slots front + e.count) ≤ d.buffer.size ∧
        d.slotAddress (slots front + (page - e.base) + 1) ≤ d.buffer.size ∧
        hash = d.slotAddress (slots front + (page - e.base)) := by
  have hcounts := (d.ok.scatters d.inside hscatter).1.count_ne
  have haddress : ∀ i j, d.slotAddress (i + j) = d.slotAddress i + j * d.csSize := by
    intro i j
    rw [Directory.slotAddress, add_mul, ← add_assoc, Directory.slotAddress]
  rw [d.ok.hashes_some d.inside, foundHash, if_pos hscatter, Option.bind_eq_some_iff]
  constructor
  · rintro ⟨⟨⟨e, slot⟩, hfind, hhash⟩, hfits⟩
    obtain ⟨front, back, hels, hstops, -, rfl⟩ := (scatterFind_iff hcounts).mp hfind
    rw [zero_add] at hhash
    unfold slotHash at hhash
    dsimp only at hhash
    split at hhash
    · rename_i hrange
      obtain rfl := Option.some.inj hhash
      refine ⟨front, e, back, hels, hstops, hrange.2, ?_, ?_, ?_⟩
      · rw [haddress]
        exact hrange.1
      · rw [haddress, haddress, one_mul]
        exact hfits
      · rw [haddress]
        rfl
    · cases hhash
  · rintro ⟨front, e, back, hels, hstops, hle, htop, hfits, rfl⟩
    rw [haddress] at htop
    rw [haddress, haddress, one_mul] at hfits
    refine ⟨⟨(e, slots front), (scatterFind_iff hcounts).mpr ⟨front, back, hels, hstops,
      fun hpos => absurd hpos (lt_irrefl 0), (zero_add _).symm⟩, ?_⟩, ?_⟩
    · rw [haddress]
      exact if_pos ⟨htop, hle⟩
    · rw [haddress]
      exact hfits

/-- Of all elements' slots, the one the search computes is the page's only if it lands. -/
theorem lands_of_slot {page : Nat} {front back front' back' : List Element} {e e' : Element}
    (hcounts : ∀ x ∈ front ++ e :: back, x.count ≠ 0)
    (hels : front ++ e :: back = front' ++ e' :: back') (hstops : StopsAt page front e)
    (hcontains : e'.Contains page) (honly : ∀ x ∈ front' ++ back', ¬ x.Contains page)
    (hslot : slots front + (page - e.base) = slots front' + (page - e'.base)) :
    Lands page front e back := by
  have hend := hstops.ends.trans (Nat.mod_le ..)
  obtain ⟨hstart', hend'⟩ := hcontains
  have hstart := hstops.starts
  rcases append_eq_append_iff.mp hels with ⟨mid, rfl, hmid⟩ | ⟨mid, rfl, hmid⟩
  · rcases mid with _ | ⟨x, mid⟩
    · -- the same element
      cases hmid
      rw [append_nil] at honly
      exact .inl ⟨hend', honly⟩
    -- a later one: only the next, and from its first page on
    cases hmid
    rw [slots_append, slots_cons] at hslot
    have hpage : page = e.base + e.count := by
      refine le_antisymm hend (Nat.le_of_not_lt fun hlt => ?_)
      exact honly e (by simp) ⟨hstart, hlt⟩
    rcases mid with _ | ⟨y, mid⟩
    · refine .inr ⟨hpage, e', back', rfl, ?_, fun z hz => honly z ?_⟩
      · change slots front + (page - e.base) = slots front +
          (e.count + 0) + (page - e'.base) at hslot
        omega
      · rcases mem_append.mp hz with hz | hz
        · exact mem_append_left _ (mem_append_left _ hz)
        · exact mem_append_right _ hz
    · have hy := hcounts y (by simp)
      rw [slots_cons] at hslot
      omega
  · rcases mid with _ | ⟨x, mid⟩
    · cases hmid
      rw [append_nil]
      exact .inl ⟨hend', honly⟩
    -- an earlier one has smaller slots
    cases hmid
    rw [slots_append, slots_cons] at hslot
    omega

/-- For every directory and page: the hash of the page's slot is returned if and only if the page is
safe. -/
theorem hashes_slot_iff (d : Directory) (page : Nat) :
    (∀ hash, hashes d.buffer d.cd page d.csSize = .ok (some hash) → HasSlot d page hash) ↔
      SlotSafe d page := by
  unfold HasSlot SlotSafe
  by_cases hscatter : HasScatter d.buffer d.cd
  · simp only [if_pos hscatter, hashes_scatter d hscatter]
    have hcounts := (d.ok.scatters d.inside hscatter).1.count_ne
    constructor
    · intro h front e back hels hstops hle htop hfits
      obtain ⟨front', e', back', hels', hcontains, honly, hlt, hslot⟩ :=
        h _ ⟨front, e, back, hels, hstops, hle, htop, hfits, rfl⟩
      have hslot := d.slotAddress_inj hslot
      refine ⟨hslot ▸ hlt, lands_of_slot (fun x hx =>
        hcounts x ?_) (hels.symm.trans hels') hstops hcontains
        honly hslot⟩
      rw [show scatterElements d.buffer d.cd = _ from hels]
      exact hx
    · rintro h hash ⟨front, e, back, hels, hstops, hle, htop, hfits, rfl⟩
      obtain ⟨hlt, hlands⟩ := h front e back hels hstops hle htop hfits
      rcases hlands with ⟨hin, honly⟩ | ⟨hpage, e', back', rfl, hbase, honly⟩
      · exact ⟨front, e, back, hels, ⟨hstops.starts, hin⟩, honly, hlt, rfl⟩
      have hslot : slots (front ++ [e]) + (page - e'.base) = slots front + (page - e.base) := by
        rw [slots_append]
        change slots front + (e.count + 0) + _ = _
        omega
      have hcount : e'.count ≠ 0 := by
        apply hcounts
        rw [show scatterElements d.buffer d.cd = _ from hels]
        simp
      refine ⟨front ++ [e], e', back', by rw [hels]; simp, ⟨hbase.le, by omega⟩, fun x hx => ?_,
        hslot ▸ hlt, by rw [hslot]⟩
      rw [append_assoc] at hx
      rcases mem_append.mp hx with hx | hx
      · exact honly x (mem_append_left _ hx)
      · rcases mem_cons.mp hx with rfl | hx
        · exact fun hin => absurd hin.2 (by omega)
        · exact honly x (mem_append_right _ hx)
  · simp only [if_neg hscatter, d.ok.hashes_some d.inside, foundHash]
    have hcode := d.ok.code
    have hinside := d.inside
    have hplain : ∀ hash, plainHash d.buffer d.cd page d.csSize = some hash ↔
        page ≤ d.nCodeSlots ∧ d.slotAddress page = hash := by
      intro hash
      unfold plainHash
      rw [Option.ite_none_right_eq_some, Option.some.injEq]
      refine and_congr_left fun _ => and_iff_right ?_
      omega
    have hnext : d.slotAddress (page + 1) = d.slotAddress page + d.csSize := by
      rw [Directory.slotAddress, add_mul, one_mul, ← add_assoc, Directory.slotAddress]
    constructor
    · rintro h rfl
      by_contra hfits
      rw [hnext, not_lt] at hfits
      exact lt_irrefl _ (h _ ⟨(hplain _).mpr ⟨le_rfl, rfl⟩, hfits⟩).1
    rintro h hash ⟨hfound, hfits⟩
    obtain ⟨hle, rfl⟩ := (hplain hash).mp hfound
    refine ⟨lt_of_le_of_ne hle fun heq => ?_, rfl⟩
    omega

/-- The first fields of a directory with hashes of 20 bytes of type 1 and pages of 4096 bytes. -/
def headerBytes (length major minor hashOffset nCodeSlots scatterOffset : UInt8) : List UInt8 :=
  [0xfa, 0xde, 0x0c, 0x02, 0, 0, 0, length, 0, major, minor, 0, 0, 0, 0, 0, 0, 0, 0, hashOffset,
    0, 0, 0, 0, 0, 0, 0, 0, 0, 0, 0, nCodeSlots, 0, 0, 0, 0, 20, 1, 0, 12,
    0, 0, 0, 0, 0, 0, 0, scatterOffset]

/-- A directory that has no slots. -/
def emptyDirectory : Directory where
  pageShift := 14
  buffer := ⟨132, fun i => (headerBytes 132 0 0 112 0 0).getD i 0, by decide⟩
  cd := 0
  csSize := 20
  inside := by decide
  accepted := by rfl
  hashType := by rfl

/-- A directory with one slot, and one scatter element for page 0. -/
def scatterDirectory : Directory where
  pageShift := 14
  buffer := ⟨200, fun i =>
    (headerBytes 200 2 1 160 1 112 ++ replicate 64 0 ++ [0, 0, 0, 1]).getD i 0, by decide⟩
  cd := 0
  csSize := 20
  inside := by decide
  accepted := by rfl
  hashType := by rfl

/-- The first page of a directory without slots gets a hash, and so does the page behind the
last scatter element. -/
theorem hashes_noSlot :
    (∃ hash, hashes emptyDirectory.buffer emptyDirectory.cd 0 emptyDirectory.csSize =
      .ok (some hash) ∧ ¬ HasSlot emptyDirectory 0 hash) ∧
    ∃ hash, hashes scatterDirectory.buffer scatterDirectory.cd 1 scatterDirectory.csSize =
      .ok (some hash) ∧ ¬ HasSlot scatterDirectory 1 hash := by
  refine ⟨⟨112, by rfl, fun h => absurd h.1 (by decide)⟩, 180, by rfl, ?_⟩
  have hscatter : scatterDirectory.scatter = [⟨0, 1⟩] := by rfl
  rintro ⟨front, e, back, hels, hcontains, -⟩
  have he : e ∈ scatterDirectory.scatter := by simp [hels]
  rw [hscatter, mem_singleton] at he
  subst he
  exact absurd hcontains.2 (by decide)

end XnuXzs.CodeSign
