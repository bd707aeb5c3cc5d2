import XnuXzs.Lib.CString
import XnuXzs.Lib.Memory

/-!
# The initial ramdisk in the device tree blob

`fdt_get_initrd_start`. A blob is read through offsets that fault outside of it. Only the 32-bit
sum of the offsets of string block and name can wrap.
-/

namespace XnuXzs.Bootshim

open XnuXzs.Lib List

structure Blob where
  base : Nat
  bytes : List UInt8

/-- The big-endian number in `n` bytes at `i`. -/
def Blob.be (b : Blob) (i n : Nat) : Nat := leValue ((b.bytes.drop i).take n).reverse

def Blob.byteAt (b : Blob) (i : Nat) : Except Fault UInt8 := deref (b.bytes.drop i)

/-- `(p[0] << 24) | (p[1] << 16) | (p[2] << 8) | p[3]`. -/
def Blob.read32 (b : Blob) (i : Nat) : Except Fault Nat :=
  if i + 4 ≤ b.bytes.length then .ok (b.be i 4) else .error .overread

/-- `(p + 3) & ~3`, on the address. -/
def Blob.align (b : Blob) (i : Nat) : Nat := (b.base + i + 3) / 4 * 4 - b.base

/-- How far `while (p < end && *p != 0) p++` goes. -/
def nameRun : (room : Nat) → List UInt8 → Except Fault Nat
  | 0, _ => .ok 0
  | _ + 1, [] => .error .overread
  | room + 1, c :: p => if c = 0 then .ok 0 else (nameRun room p).map (· + 1)

def initrdStart : List UInt8 :=
  [0x69, 0x6e, 0x69, 0x74, 0x72, 0x64, 0x2d, 0x73, 0x74, 0x61, 0x72, 0x74]

/-- The comparison at one place of a name: both strings end together. -/
def matchHere : (needle : List UInt8) → (sub : List UInt8) → Except Fault Bool
  | [], sub => (deref sub).map (· = 0)
  | n :: needle, sub => do
    let c ← deref sub
    if c ≠ 0 ∧ c = n then matchHere needle sub.tail else .ok false

/-- The search through the places of a name. -/
def endsInInitrd : (p1 : List UInt8) → Except Fault Bool
  | [] => .error .overread
  | c :: p1 =>
    if c = 0 then .ok false
    else do
      let found ← matchHere initrdStart (c :: p1)
      if found then .ok true else endsInInitrd p1

/-- A property: the length and the name's offset of its header, and where its value is. -/
structure FdtProp where
  len : Nat
  nameoff : Nat
  value : Nat
  deriving DecidableEq, Repr

/-- What is done with one property; `some` is returned from the function. -/
def tryProp (b : Blob) (totalsize offStrings : Nat) (q : FdtProp) : Except Fault (Option Nat) :=
  if (offStrings + q.nameoff) % 2 ^ 32 < totalsize then do
    let found ← endsInInitrd (b.bytes.drop (offStrings + q.nameoff))
    if found then
      if q.len = 4 then (b.read32 q.value).map some
      else if q.len = 8 then (b.read32 (q.value + 4)).map some
      else .ok none
    else .ok none
  else .ok none

def fdtLoop (b : Blob) (totalsize offStrings : Nat) : (fuel p : Nat) → Except Fault Nat
  | 0, _ => .error .hang
  | fuel + 1, p =>
    if p + 4 ≤ totalsize then do
      let tag ← b.read32 p
      let p := p + 4
      if tag = 1 then do
        let n ← nameRun (totalsize - p) (b.bytes.drop p)
        fdtLoop b totalsize offStrings fuel (b.align (p + n + 1))
      else if tag = 2 then fdtLoop b totalsize offStrings fuel p
      else if tag = 3 then
        if p + 8 > totalsize then .ok 0
        else do
          let len ← b.read32 p
          let nameoff ← b.read32 (p + 4)
          let p := p + 8
          let r ← tryProp b totalsize offStrings ⟨len, nameoff, p⟩
          match r with
          | some v => .ok v
          | none => fdtLoop b totalsize offStrings fuel (b.align (p + len))
      else if tag = 9 then .ok 0
      else fdtLoop b totalsize offStrings fuel p
    else .ok 0

/-- `fdt_get_initrd_start`. A turn takes four bytes, so the length of the blob bounds the
turns. -/
def fdtGetInitrdStart (b : Blob) : Except Fault Nat :=
  if b.base = 0 then .ok 0
  else do
    let c0 ← b.byteAt 0
    if c0 ≠ 0xd0 then .ok 0
    else do
      let c1 ← b.byteAt 1
      if c1 ≠ 0x0d then .ok 0
      else do
        let c2 ← b.byteAt 2
        if c2 ≠ 0xfe then .ok 0
        else do
          let c3 ← b.byteAt 3
          if c3 ≠ 0xed then .ok 0
          else do
            let totalsize ← b.read32 4
            let offStruct ← b.read32 8
            let offStrings ← b.read32 12
            if offStruct ≥ totalsize ∨ offStrings ≥ totalsize then .ok 0
            else fdtLoop b totalsize offStrings (totalsize + 1) offStruct

/-- The properties from offset `p` on. Other tokens have no content. What follows a name or a
value is at the next address that four divides. -/
def walk (b : Blob) : (fuel p : Nat) → List FdtProp
  | 0, _ => []
  | fuel + 1, p =>
    if p + 4 ≤ b.bytes.length then
      if b.be p 4 = 1 then
        walk b fuel (b.align (p + 4 + ((b.bytes.drop (p + 4)).takeWhile (· ≠ 0)).length + 1))
      else if b.be p 4 = 3 then
        if p + 12 ≤ b.bytes.length then
          ⟨b.be (p + 4) 4, b.be (p + 8) 4, p + 12⟩ ::
            walk b fuel (b.align (p + 12 + b.be (p + 4) 4))
        else []
      else if b.be p 4 = 9 then []
      else walk b fuel (p + 4)
    else []

def offStruct (b : Blob) : Nat := b.be 8 4
def offStrings (b : Blob) : Nat := b.be 12 4

/-- The properties of a blob. A blob whose blocks begin behind its end has none. -/
def props (b : Blob) : List FdtProp :=
  if offStruct b ≥ b.bytes.length ∨ offStrings b ≥ b.bytes.length then []
  else walk b (b.bytes.length + 1) (offStruct b)

/-- What stands in the string block where a property's name begins. -/
def nameCells (b : Blob) (q : FdtProp) : List UInt8 := b.bytes.drop (offStrings b + q.nameoff)

def Named (b : Blob) (q : FdtProp) : Prop :=
  0 ∈ nameCells b q ∧ initrdStart <:+ (nameCells b q).takeWhile (· ≠ 0)

instance (b : Blob) (q : FdtProp) : Decidable (Named b q) := inferInstanceAs (Decidable (_ ∧ _))

def lowWord (b : Blob) (q : FdtProp) : Nat := b.be q.value q.len % 2 ^ 32

/-- The function ends inside the blob, and a result other than zero is the low word of the first
property of that name, of four or eight bytes. -/
def FindsInitrd (b : Blob) : Prop :=
  ∃ v, fdtGetInitrdStart b = .ok v ∧ (v ≠ 0 → ∃ q, (props b).find? (Named b ·) = some q ∧
    (q.len = 4 ∨ q.len = 8) ∧ q.value + q.len ≤ b.bytes.length ∧ v = lowWord b q)

/-- The property that the search ends with. -/
def Taken (b : Blob) (q : FdtProp) : Prop := Named b q ∧ (q.len = 4 ∨ q.len = 8)

/-- What a property that is met, after others, has to be like. -/
structure Fine (b : Blob) (before : List FdtProp) (q : FdtProp) : Prop where
  name : (offStrings b + q.nameoff) % 2 ^ 32 < b.bytes.length → 0 ∈ nameCells b q
  value : Taken b q → q.value + q.len ≤ b.bytes.length
  first : Taken b q → lowWord b q ≠ 0 → ∀ r ∈ before, ¬Named b r

/-- The header is complete, and every property up to the one taken has a name that ends in the
blob if its offset is accepted; the one taken has its value inside and, unless its low word is
zero, none of its name before it. -/
structure Bounded (b : Blob) : Prop where
  header : 16 ≤ b.bytes.length
  met : ∀ before q after, props b = before ++ q :: after → (∀ r ∈ before, ¬Taken b r) →
    Fine b before q

theorem matchHere_terminated {needle name : List UInt8} (rest : List UInt8) (hneedle : 0 ∉ needle)
    (hname : 0 ∉ name) : matchHere needle (name ++ 0 :: rest) = .ok (decide (name = needle)) := by
  induction needle generalizing name with
  | nil =>
    cases name with
    | nil => rfl
    | cons c name =>
      have hc : c ≠ 0 := (ne_of_not_mem_cons hname).symm
      simp [matchHere, deref, Except.map, hc]
  | cons n needle ih =>
    cases name with
    | nil =>
      rfl
    | cons c name =>
      have hc : c ≠ 0 := (ne_of_not_mem_cons hname).symm
      change (if c ≠ 0 ∧ c = n then matchHere needle (name ++ 0 :: rest) else _) = _
      by_cases hcn : c = n
      · rw [if_pos ⟨hc, hcn⟩, ih (not_mem_of_not_mem_cons hneedle) (not_mem_of_not_mem_cons hname)]
        simp [hcn]
      · rw [if_neg fun h => hcn h.2]
        simp [hcn]

theorem matchHere_unterminated (needle : List UInt8) {sub : List UInt8} (h : 0 ∉ sub) :
    matchHere needle sub = .error .overread ∨ matchHere needle sub = .ok false := by
  induction needle generalizing sub with
  | nil =>
    cases sub with
    | nil => exact .inl rfl
    | cons c sub =>
      have hc : c ≠ 0 := (ne_of_not_mem_cons h).symm
      exact .inr (congrArg Except.ok (decide_eq_false hc))
  | cons n needle ih =>
    cases sub with
    | nil => exact .inl rfl
    | cons c sub =>
      change (if c ≠ 0 ∧ c = n then matchHere needle sub else _) = _ ∨
        (if c ≠ 0 ∧ c = n then matchHere needle sub else _) = _
      split
      · exact ih (not_mem_of_not_mem_cons h)
      · exact .inr rfl

theorem endsInInitrd_terminated {name : List UInt8} (rest : List UInt8) (hname : 0 ∉ name) :
    endsInInitrd (name ++ 0 :: rest) = .ok (decide (initrdStart <:+ name)) := by
  induction name with
  | nil => rfl
  | cons c name ih =>
    have hc : c ≠ 0 := (ne_of_not_mem_cons hname).symm
    rw [cons_append, endsInInitrd, if_neg hc, ← cons_append,
      matchHere_terminated rest (by decide) hname, ok_bind]
    by_cases heq : c :: name = initrdStart
    · simp [heq]
    · rw [ih (not_mem_of_not_mem_cons hname)]
      simp [heq, suffix_cons_iff, Ne.symm heq]

variable {cells : List UInt8}

theorem endsInInitrd_unterminated (h : 0 ∉ cells) : endsInInitrd cells = .error .overread := by
  induction cells with
  | nil => rfl
  | cons c cells ih =>
    have hc : c ≠ 0 := (ne_of_not_mem_cons h).symm
    rw [endsInInitrd, if_neg hc]
    rcases matchHere_unterminated initrdStart h with hmatch | hmatch
    · rw [hmatch]
      rfl
    · rw [hmatch, ok_bind]
      exact ih (not_mem_of_not_mem_cons h)

theorem split_at_zero (h : 0 ∈ cells) :
    ∃ rest, cells = cells.takeWhile (· ≠ 0) ++ 0 :: rest ∧ 0 ∉ cells.takeWhile (· ≠ 0) := by
  induction cells with
  | nil => cases h
  | cons c cells ih =>
    by_cases hc : c = 0
    · subst hc
      exact ⟨cells, rfl, not_mem_nil⟩
    obtain ⟨rest, hrest, hnot⟩ := ih ((mem_cons.mp h).resolve_left (Ne.symm hc))
    rw [takeWhile_cons_of_pos (by simpa using hc)]
    refine ⟨rest, congrArg (c :: ·) hrest, ?_⟩
    rw [mem_cons, not_or]
    exact ⟨Ne.symm hc, hnot⟩

theorem endsInInitrd_eq (h : 0 ∈ cells) :
    endsInInitrd cells = .ok (decide (initrdStart <:+ cells.takeWhile (· ≠ 0))) := by
  obtain ⟨rest, hrest, hnot⟩ := split_at_zero h
  have hends := endsInInitrd_terminated rest hnot
  rwa [← hrest] at hends

variable {b : Blob} {q : FdtProp} {before l : List FdtProp}

theorem Blob.be_lt (b : Blob) (i : Nat) : b.be i 4 < 2 ^ 32 := by
  have hlt := leValue_lt ((b.bytes.drop i).take 4).reverse
  rw [length_reverse] at hlt
  apply lt_of_lt_of_le hlt
  exact Nat.pow_le_pow_right (by decide) (length_take_le _ _)

theorem leValue_append (a c : List UInt8) :
    leValue (a ++ c) = leValue a + 256 ^ a.length * leValue c := by
  induction a with
  | nil => simp [leValue]
  | cons x a ih =>
    rw [cons_append, leValue, leValue, ih, length_cons, Nat.pow_succ]
    ring

theorem Blob.be_low {i : Nat} (h : i + 8 ≤ b.bytes.length) :
    b.be i 8 % 2 ^ 32 = b.be (i + 4) 4 := by
  have hsplit : (b.bytes.drop i).take 8 = (b.bytes.drop i).take 4 ++
      (b.bytes.drop (i + 4)).take 4 := by
    rw [show 8 = 4 + 4 from rfl, take_add, drop_drop]
  have hlen : ((b.bytes.drop (i + 4)).take 4).reverse.length = 4 := by
    rw [length_reverse, length_take, length_drop]
    omega
  have hlt := b.be_lt (i + 4)
  rw [Blob.be, hsplit, reverse_append, leValue_append, hlen]
  rw [Blob.be] at hlt ⊢
  omega

theorem read_value (hlen : q.len = 4 ∨ q.len = 8) :
    (if q.len = 4 then (b.read32 q.value).map some
      else if q.len = 8 then (b.read32 (q.value + 4)).map some else .ok none) =
      if q.value + q.len ≤ b.bytes.length then .ok (some (lowWord b q)) else .error .overread := by
  rw [lowWord]
  rcases hlen with hlen | hlen
  · rw [if_pos hlen, hlen, Blob.read32, Nat.mod_eq_of_lt (b.be_lt _)]
    split <;> rfl
  rw [if_neg (by omega), if_pos hlen, hlen, Blob.read32, add_assoc]
  split_ifs with hin
  · rw [← Blob.be_low hin]
    rfl
  · rfl

/-- An accepted name that does not end in the blob is read to behind it. -/
theorem tryProp_overread (hoff : (offStrings b + q.nameoff) % 2 ^ 32 < b.bytes.length)
    (hname : 0 ∉ nameCells b q) : tryProp b b.bytes.length (offStrings b) q = .error .overread := by
  rw [tryProp, if_pos hoff]
  change (endsInInitrd (nameCells b q) >>= _) = _
  rw [endsInInitrd_unterminated hname]
  rfl

theorem tryProp_eq
    (hname : (offStrings b + q.nameoff) % 2 ^ 32 < b.bytes.length → 0 ∈ nameCells b q) :
    (Taken b q → tryProp b b.bytes.length (offStrings b) q =
      if q.value + q.len ≤ b.bytes.length then .ok (some (lowWord b q)) else .error .overread) ∧
    (¬Taken b q → tryProp b b.bytes.length (offStrings b) q = .ok none) := by
  by_cases hoff : (offStrings b + q.nameoff) % 2 ^ 32 < b.bytes.length
  · have hzero := hname hoff
    have hstep : tryProp b b.bytes.length (offStrings b) q = if Named b q then
        if q.len = 4 then (b.read32 q.value).map some
        else if q.len = 8 then (b.read32 (q.value + 4)).map some else .ok none
        else .ok none := by
      rw [tryProp, if_pos hoff]
      change (endsInInitrd (nameCells b q) >>= _) = _
      rw [endsInInitrd_eq hzero, ok_bind]
      by_cases hends : initrdStart <:+ (nameCells b q).takeWhile (· ≠ 0)
      · rw [if_pos (show Named b q from ⟨hzero, hends⟩), if_pos (decide_eq_true hends)]
      · rw [if_neg fun hnamed : Named b q => hends hnamed.2]
        rw [if_neg (by simpa using hends)]
    rw [hstep]
    constructor
    · intro htaken
      rw [if_pos htaken.1, read_value htaken.2]
    intro hnot
    split
    · rename_i hnamed
      rw [if_neg fun h => hnot ⟨hnamed, .inl h⟩, if_neg fun h => hnot ⟨hnamed, .inr h⟩]
    · rfl
  · have hnot : ¬Taken b q := by
      rintro ⟨⟨hzero, -⟩, -⟩
      have hpos := length_pos_of_mem hzero
      rw [nameCells, length_drop] at hpos
      omega
    refine ⟨fun h => absurd h hnot, fun _ => ?_⟩
    rw [tryProp, if_neg hoff]

/-- The properties are tried one after the other. -/
def tryAll (b : Blob) : List FdtProp → Except Fault Nat
  | [] => .ok 0
  | q :: qs => do
    let r ← tryProp b b.bytes.length (offStrings b) q
    match r with
    | some v => .ok v
    | none => tryAll b qs

theorem nameRun_eq (cells : List UInt8) :
    nameRun cells.length cells = .ok (cells.takeWhile (· ≠ 0)).length := by
  induction cells with
  | nil => rfl
  | cons c cells ih =>
    rw [length_cons, nameRun]
    split_ifs with hc
    · simp [hc]
    · rw [ih, takeWhile_cons_of_pos (by simpa using hc)]
      rfl

theorem Blob.le_align (b : Blob) (i : Nat) : i ≤ b.align i := by
  rw [Blob.align]
  omega

theorem fdtLoop_eq {fuel p : Nat} (hfuel : b.bytes.length < 4 * fuel + p) :
    fdtLoop b b.bytes.length (offStrings b) (fuel + 1) p = tryAll b (walk b (fuel + 1) p) := by
  induction fuel generalizing p with
  | zero => rw [fdtLoop, walk, if_neg (by omega), if_neg (by omega), tryAll]
  | succ fuel ih =>
    rw [fdtLoop, walk]
    split
    · rename_i hin
      rw [Blob.read32, if_pos hin, ok_bind]
      by_cases hnode : b.be p 4 = 1
      · have hroom : b.bytes.length - (p + 4) = (b.bytes.drop (p + 4)).length := length_drop.symm
        have hnext := b.le_align (p + 4 + ((b.bytes.drop (p + 4)).takeWhile (· ≠ 0)).length + 1)
        rw [if_pos hnode, if_pos hnode, hroom, nameRun_eq, ok_bind]
        exact ih (by omega)
      rw [if_neg hnode, if_neg hnode]
      by_cases hprop : b.be p 4 = 3
      · rw [if_neg (by omega), if_pos hprop, if_pos hprop]
        by_cases hhead : p + 12 ≤ b.bytes.length
        · have hnext := b.le_align (p + 12 + b.be (p + 4) 4)
          rw [if_neg (by omega), if_pos hhead, Blob.read32, if_pos (by omega), ok_bind, Blob.read32,
            if_pos (by omega), ok_bind, tryAll, ← ih (by omega)]
        · rw [if_pos (by omega), if_neg hhead]
          rfl
      · rw [if_neg hprop]
        by_cases hend : b.be p 4 = 9
        · rw [if_neg (by omega), if_neg hprop, if_pos hend, if_pos hend]
          rfl
        · rw [if_neg hend, if_neg hprop, if_neg hend, ite_self]
          exact ih (by omega)
    · rfl

theorem find_head (hq : Named b q) (l : List FdtProp) : (q :: l).find? (Named b ·) = some q :=
  find?_cons_of_pos (by simpa using hq)

theorem find_named_iff (hq : Named b q) (hbefore : q ∉ before) :
    (before ++ q :: l).find? (Named b ·) = some q ↔ ∀ r ∈ before, ¬Named b r := by
  have hnone : (∀ r ∈ before, ¬Named b r) ↔ before.find? (Named b ·) = none := by
    simp
  rw [hnone, find?_append, find_head hq]
  cases hfind : before.find? (Named b ·) with
  | none => simp
  | some r =>
    have hmem := mem_of_find?_eq_some hfind
    have hne : r ≠ q := fun h => hbefore (h ▸ hmem)
    simp [hne]

/-- The result is right: the property is the first of that name, and its value is there. -/
def RightValue (b : Blob) (l : List FdtProp) (v : Nat) : Prop :=
  v ≠ 0 → ∃ q, l.find? (Named b ·) = some q ∧ (q.len = 4 ∨ q.len = 8) ∧
    q.value + q.len ≤ b.bytes.length ∧ v = lowWord b q

theorem rightValue_iff (hbefore : ∀ r ∈ before, ¬Taken b r) (hq : Taken b q)
    (hin : q.value + q.len ≤ b.bytes.length) :
    RightValue b (before ++ q :: l) (lowWord b q) ↔
      (lowWord b q ≠ 0 → ∀ r ∈ before, ¬Named b r) := by
  have hnot : q ∉ before := fun hmem => hbefore q hmem hq
  rw [RightValue, ← find_named_iff hq.1 hnot (l := l)]
  constructor
  · intro hright hne
    obtain ⟨r, hfind, hlen, -, -⟩ := hright hne
    have hnamed : Named b r := by simpa using find?_some hfind
    have hnone : before.find? (Named b ·) = none := by
      cases hfind' : before.find? (Named b ·) with
      | none => rfl
      | some r' =>
        rw [find?_append, hfind', Option.some_or] at hfind
        obtain rfl := Option.some.inj hfind
        exact absurd ⟨hnamed, hlen⟩ (hbefore r' (mem_of_find?_eq_some hfind'))
    rw [find?_append, hnone, find_head hq.1]
    rfl
  · intro hfirst hne
    exact ⟨q, hfirst hne, hq.2, hin, rfl⟩

theorem tryAll_iff {before l : List FdtProp} (hbefore : ∀ r ∈ before, ¬Taken b r) :
    (∃ v, tryAll b l = .ok v ∧ RightValue b (before ++ l) v) ↔
      ∀ pre q post, l = pre ++ q :: post → (∀ r ∈ pre, ¬Taken b r) → Fine b (before ++ pre) q := by
  induction l generalizing before with
  | nil =>
    refine iff_of_true ⟨0, rfl, absurd rfl⟩ fun pre q post h => ?_
    cases pre <;> cases h
  | cons q l ih =>
    by_cases hname : (offStrings b + q.nameoff) % 2 ^ 32 < b.bytes.length → 0 ∈ nameCells b q
    · obtain ⟨htake, hpass⟩ := tryProp_eq hname
      by_cases htaken : Taken b q
      · -- the search ends here, so that only this property counts
        have honly : (∀ pre q' post, q :: l = pre ++ q' :: post → (∀ r ∈ pre, ¬Taken b r) →
            Fine b (before ++ pre) q') ↔ Fine b before q := by
          constructor
          · intro h
            have hfine := h [] q l rfl nofun
            rwa [append_nil] at hfine
          intro h pre q' post hsplit hpre
          cases pre with
          | nil =>
            obtain ⟨rfl, -⟩ := List.cons.inj hsplit
            rwa [append_nil]
          | cons r pre =>
            obtain ⟨rfl, -⟩ := List.cons.inj hsplit
            exact absurd htaken (hpre q mem_cons_self)
        rw [honly, tryAll, htake htaken]
        split_ifs with hin
        · constructor
          · rintro ⟨v, hv, hright⟩
            obtain rfl : lowWord b q = v := Except.ok.inj hv
            exact ⟨hname, fun _ => hin, fun _ => (rightValue_iff hbefore htaken hin).mp hright⟩
          · intro hfine
            exact ⟨lowWord b q, rfl, (rightValue_iff hbefore htaken hin).mpr (hfine.first htaken)⟩
        · refine iff_of_false ?_ fun hfine => hin (hfine.value htaken)
          rintro ⟨v, hv, -⟩
          cases hv
      · have hbefore' : ∀ r ∈ before ++ [q], ¬Taken b r := by
          intro r hr
          rcases mem_append.mp hr with hold | hnew
          · exact hbefore r hold
          · rwa [mem_singleton.mp hnew]
        have hrest := ih hbefore'
        rw [append_assoc, singleton_append] at hrest
        rw [tryAll, hpass htaken, ok_bind]
        rw [hrest]
        constructor
        · intro h pre q' post hsplit hpre
          cases pre with
          | nil =>
            obtain ⟨rfl, -⟩ := List.cons.inj hsplit
            exact ⟨hname, fun ht => absurd ht htaken, fun ht => absurd ht htaken⟩
          | cons r pre =>
            obtain ⟨rfl, hsplit'⟩ := List.cons.inj hsplit
            have hfine := h pre q' post hsplit' fun r hr => hpre r (mem_cons_of_mem _ hr)
            rwa [append_assoc, singleton_append] at hfine
        · intro h pre q' post hsplit hpre
          have hfine := h (q :: pre) q' post (by rw [hsplit, cons_append])
            (forall_mem_cons.mpr ⟨htaken, hpre⟩)
          rwa [append_assoc, singleton_append]
    · rw [Classical.not_imp] at hname
      refine iff_of_false ?_ fun h => ?_
      · rintro ⟨v, hv, -⟩
        rw [tryAll, tryProp_overread hname.1 hname.2] at hv
        cases hv
      · exact hname.2 ((h [] q l rfl nofun).name hname.1)

/-- For every blob with the magic number and the length of its `totalsize`: the function ends, reads
inside of the blob, and what it returns, if not zero, is the low word of the first property whose
name ends in `initrd-start`, exactly when the blob is bounded. -/
theorem initrd_iff (b : Blob) (hbase : 0 < b.base)
    (hmagic : b.bytes.take 4 = [0xd0, 0x0d, 0xfe, 0xed]) (hsize : 8 ≤ b.bytes.length)
    (htotal : b.be 4 4 = b.bytes.length) : FindsInitrd b ↔ Bounded b := by
  have hbytes : ∃ rest, b.bytes = 0xd0 :: 0x0d :: 0xfe :: 0xed :: rest :=
    ⟨b.bytes.drop 4, by rw [← take_append_drop 4 b.bytes, hmagic]; rfl⟩
  have hheader : fdtGetInitrdStart b = (do
      let offStruct ← b.read32 8
      let offStrings ← b.read32 12
      if offStruct ≥ b.bytes.length ∨ offStrings ≥ b.bytes.length then .ok 0
      else fdtLoop b b.bytes.length offStrings (b.bytes.length + 1) offStruct) := by
    obtain ⟨rest, hrest⟩ := hbytes
    have hread : b.read32 4 = .ok b.bytes.length := by
      rw [Blob.read32, if_pos hsize, htotal]
    rw [fdtGetInitrdStart, if_neg hbase.ne', Blob.byteAt, Blob.byteAt,
      Blob.byteAt, Blob.byteAt, hread, hrest]
    rfl
  by_cases hlong : 16 ≤ b.bytes.length
  · rw [Blob.read32, if_pos (by omega), ok_bind, Blob.read32, if_pos hlong, ok_bind] at hheader
    have hrun : fdtGetInitrdStart b = tryAll b (props b) := by
      rw [hheader, props]
      change (if offStruct b ≥ b.bytes.length ∨ offStrings b ≥ b.bytes.length then _ else _) = _
      split
      · rfl
      · exact fdtLoop_eq (by omega)
    have hiff := @tryAll_iff b [] (props b) nofun
    rw [FindsInitrd, hrun]
    constructor
    · intro h
      exact ⟨hlong, fun before q after => hiff.mp h before q after⟩
    · intro h
      exact hiff.mpr h.met
  · refine iff_of_false ?_ fun h => hlong h.header
    rintro ⟨v, hv, -⟩
    rw [hheader, Blob.read32, Blob.read32, if_neg hlong] at hv
    split at hv <;> cases hv

/-- One property `initrd-start` with the value 0x82000000. -/
def sampleBlob : Blob where
  base := 0x80000000
  bytes := [0xd0, 0x0d, 0xfe, 0xed, 0, 0, 0, 49, 0, 0, 0, 16, 0, 0, 0, 36,
    0, 0, 0, 3, 0, 0, 0, 4, 0, 0, 0, 0, 0x82, 0, 0, 0, 0, 0, 0, 9] ++ initrdStart ++ [0]

theorem initrd_of_sample : sampleBlob.be 4 4 = sampleBlob.bytes.length ∧
    FindsInitrd sampleBlob := by
  have htotal : sampleBlob.be 4 4 = sampleBlob.bytes.length := by decide
  refine ⟨htotal, (initrd_iff sampleBlob (by decide) (by decide) (by decide) htotal).mpr
    ⟨by decide, ?_⟩⟩
  intro before q after hprops _
  cases before with
  | nil =>
    obtain ⟨rfl, -⟩ := List.cons.inj hprops
    exact ⟨by decide, fun _ => by decide, nofun⟩
  | cons r before =>
    obtain ⟨-, hnil⟩ := List.cons.inj hprops
    cases before <;> cases hnil

/-- One property whose name is at 0xfffffff0 in a string block at 16: the sum wraps to 0 and is
accepted, and the name is read far behind the blob. -/
def wrappedBlob : Blob where
  base := 0x80000000
  bytes := [0xd0, 0x0d, 0xfe, 0xed, 0, 0, 0, 28, 0, 0, 0, 16, 0, 0, 0, 16,
    0, 0, 0, 3, 0, 0, 0, 0, 0xff, 0xff, 0xff, 0xf0]

theorem initrd_name_wraps : 0 < wrappedBlob.base ∧
    wrappedBlob.bytes.take 4 = [0xd0, 0x0d, 0xfe, 0xed] ∧
    wrappedBlob.be 4 4 = wrappedBlob.bytes.length ∧ ¬FindsInitrd wrappedBlob := by
  refine ⟨by decide, by decide, by decide, ?_⟩
  rintro ⟨v, hv, -⟩
  cases hv

end XnuXzs.Bootshim
