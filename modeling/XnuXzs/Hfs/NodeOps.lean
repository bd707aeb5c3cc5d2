import XnuXzs.Hfs.NodeRecords

/-!
# Inserting and deleting records

The node routines on a node with a list of records: they insert into the list and
delete from it, and nothing else in use changes.
-/

namespace XnuXzs.Hfs

open Lib List

variable {t : BTree} {m m' : Node} {n : Nat} {offset : Nat → Nat}

theorem Table.numRecords_eq (ht : Table t m n offset) (hn : n < 2 ^ 16) : numRecords m = n :=
  load16_eq hn ht.count

theorem Table.congr (ht : Table t m n offset) (hn : 2 * (n + 1) ≤ t.nodeSize)
    (hcount : bytesAt m' numRecordsAddress 2 = bytesAt m numRecordsAddress 2)
    (hsame : ∀ x, t.nodeSize - 2 * (n + 1) ≤ x → m' x = m x) : Table t m' n offset := by
  refine ⟨hcount.trans ht.count, fun i hi => ?_⟩
  refine (bytesAt_eq_of_same fun x hx _ => hsame x ?_).trans (ht.offsets i hi)
  have hk : kOffsetSize = 2 := rfl
  rw [offsetAddress] at hx
  omega

theorem insertOffset_table (ht : Table t m n offset) {index delta : Nat} (hindex : index ≤ n)
    (hfits : numRecordsAddress + 2 + 2 * (n + 2) ≤ t.nodeSize)
    (hbelow : ∀ i ≤ n, offset i + delta < 2 ^ 16) :
    Table t (insertOffset t m index delta) (n + 1)
        (fun j => if j ≤ index then offset j else offset (j - 1) + delta) ∧
      ∀ x < t.nodeSize - 2 * (n + 2), (x < numRecordsAddress ∨ numRecordsAddress + 2 ≤ x) →
        insertOffset t m index delta x = m x := by
  have hsize := t.size_le
  have hk : kOffsetSize = 2 := rfl
  have hcount := ht.numRecords_eq (by omega)
  let counted := store16 m numRecordsAddress (n + 1 : Nat)
  let a := t.nodeSize - 2 * (n + 2)
  have hsrc : offsetAddress t n = a + 2 := by
    simp only [offsetAddress, a]
    omega
  have hloop : insertOffset t m index delta =
      shiftOffsetsUp delta (n - index) counted (a + 2) a := by
    have hnum : (u16 ((n : Int) - index)).toNat = n - index := by
      rw [← Nat.cast_sub hindex]
      exact u16_toNat (by omega)
    simp [insertOffset, hcount, hsrc, hnum, counted]
  have hcounted : ∀ x, numRecordsAddress + 2 ≤ x → counted x = m x :=
    fun x hx => store16_outside (.inr hx)
  obtain ⟨hmoved, hrest⟩ := shiftOffsetsUp_spec delta (n - index) counted a
  rw [← hloop] at hmoved hrest
  refine ⟨⟨?_, fun j hj => ?_⟩, fun x hx hten' => ?_⟩
  · refine (bytesAt_eq_of_same fun x _ hx => hrest x (by omega)).trans ?_
    exact (bytesAt_store16 ..).trans (by rw [u16_toNat (by omega)])
  · split
    · refine (bytesAt_eq_of_same fun x hx _ => ?_).trans (ht.offsets j (by omega))
      rw [offsetAddress] at hx
      rw [hrest x (by omega)]
      exact hcounted x (by omega)
    · have haddr : offsetAddress t j = a + 2 * (n + 1 - j) := by
        simp only [offsetAddress, a]
        omega
      have hold : a + 2 + 2 * (n + 1 - j) = offsetAddress t (j - 1) := by
        simp only [offsetAddress, a]
        omega
      have hload : load16 counted (offsetAddress t (j - 1)) = offset (j - 1) := by
        have := hbelow (j - 1) (by omega)
        refine load16_eq (by omega) ((bytesAt_eq_of_same fun x hx _ => ?_).trans
          (ht.offsets _ (by omega)))
        exact hcounted x (by omega)
      have hnew := hmoved (n + 1 - j) (by omega)
      rw [hold, hload, ← haddr, ← Nat.cast_add] at hnew
      rw [hnew, u16_toNat (hbelow _ (by omega))]
  · rw [hrest x (by omega)]
    exact store16_outside hten'

theorem deleteOffset_table (ht : Table t m (n + 1) offset) {index : Nat} (hindex : index ≤ n)
    (hfits : numRecordsAddress + 2 + 2 * (n + 2) ≤ t.nodeSize)
    (hbelow : ∀ i ≤ n + 1, offset i < 2 ^ 16)
    (hmono : ∀ i, index < i → i ≤ n + 1 → offset (index + 1) ≤ offset i)
    (hfirst : offset index ≤ offset (index + 1)) :
    Table t (deleteOffset t m index) n
        (fun j => if j ≤ index then offset j
          else offset (j + 1) - (offset (index + 1) - offset index)) ∧
      ∀ x < t.nodeSize - 2 * (n + 2), (x < numRecordsAddress ∨ numRecordsAddress + 2 ≤ x) →
        deleteOffset t m index x = m x := by
  have hsize := t.size_le
  have hk : kOffsetSize = 2 := rfl
  have hcount := ht.numRecords_eq (by omega)
  let counted := store16 m numRecordsAddress (n : Nat)
  have hcounted : ∀ x, numRecordsAddress + 2 ≤ x → counted x = m x :=
    fun x hx => store16_outside (.inr hx)
  have hrecount : numRecords counted = n :=
    load16_eq (by omega) ((bytesAt_store16 ..).trans (by rw [u16_toNat (by omega)]))
  let d := offsetAddress t index
  let delta := offset (index + 1) - offset index
  have hd : d = t.nodeSize - index * 2 - 2 := rfl
  have hload : ∀ i ≤ n + 1, load16 m (offsetAddress t i) = offset i :=
    fun i hi => load16_eq (hbelow i hi) (ht.offsets i hi)
  have hnext : d - 2 = offsetAddress t (index + 1) := by
    simp only [offsetAddress, hd]
    omega
  have hloop : deleteOffset t m index = shiftOffsetsDown delta (n - index) counted (d - 2) d := by
    have hnum : (u16 ((n : Int) - index)).toNat = n - index := by
      rw [← Nat.cast_sub hindex]
      exact u16_toNat (by omega)
    have hdelta : u16 ((offset (index + 1) : Int) - offset index) = (delta : Nat) := by
      have := hbelow (index + 1) (by omega)
      rw [← Nat.cast_sub hfirst]
      exact u16_eq (by omega) (by omega)
    have hpred : ((n + 1 : Nat) : Int) - 1 = n := by omega
    simp only [deleteOffset, hcount, hpred]
    rw [show offsetAddress t index - 2 = offsetAddress t (index + 1) from hnext,
      hload index (by omega), hload (index + 1) (by omega), hdelta]
    rw [hrecount, hnum, ← hnext]
  obtain ⟨hmoved, hrest⟩ := shiftOffsetsDown_spec delta (n - index) counted d (by omega)
  rw [← hloop] at hmoved hrest
  refine ⟨⟨?_, fun j hj => ?_⟩, fun x hx hten' => ?_⟩
  · refine (bytesAt_eq_of_same fun x _ hx => hrest x (by omega)).trans ?_
    exact (bytesAt_store16 ..).trans (by rw [u16_toNat (by omega)])
  · split
    · refine (bytesAt_eq_of_same fun x hx _ => ?_).trans (ht.offsets j (by omega))
      rw [offsetAddress] at hx
      rw [hrest x (by omega)]
      exact hcounted x (by omega)
    · have haddr : offsetAddress t j = d - 2 - 2 * (j - index - 1) := by
        simp only [offsetAddress, hd]
        omega
      have hold : d - 4 - 2 * (j - index - 1) = offsetAddress t (j + 1) := by
        simp only [offsetAddress, hd]
        omega
      have hloaded : load16 counted (offsetAddress t (j + 1)) = offset (j + 1) := by
        rw [← hload (j + 1) (by omega)]
        refine load16_congr (bytesAt_eq_of_same fun x hx _ => ?_)
        exact hcounted x (by omega)
      have hnew := hmoved (j - index - 1) (by omega)
      have hle' : delta ≤ offset (j + 1) := by
        have := hmono (j + 1) (by omega) (by omega)
        omega
      rw [hold, hloaded, ← haddr, ← Nat.cast_sub hle'] at hnew
      have := hbelow (j + 1) (by omega)
      rw [hnew, u16_toNat (by omega)]
  · rw [hrest x (by omega)]
    exact store16_outside hten'

theorem total_take_mono (recs : List (List UInt8)) {i j : Nat} (hij : i ≤ j) :
    total (recs.take i) ≤ total (recs.take j) := by
  rw [← min_eq_left hij, ← take_take]
  exact total_take_le i

variable {before after : List (List UInt8)} {size keyLength index : Nat} {key r data : List UInt8}

theorem total_middle : total (before ++ r :: after) = total (before ++ after) + r.length := by
  rw [total_append, total_append, total_cons]
  omega

theorem length_middle : (before ++ r :: after).length = (before ++ after).length + 1 := by
  rw [length_append, length_append, length_cons]
  rfl

theorem total_take_insert (hr : r.length = size) (j : Nat) (hj : j ≤ (before ++ after).length + 1) :
    descriptorSize + total ((before ++ r :: after).take j) =
      if j ≤ before.length then descriptorSize + total ((before ++ after).take j)
      else descriptorSize + total ((before ++ after).take (j - 1)) + size := by
  split
  · rename_i hle
    rw [take_append_of_le_length hle, take_append_of_le_length hle]
  obtain ⟨k, rfl⟩ : ∃ k, j = before.length + (k + 1) := ⟨j - before.length - 1, by omega⟩
  rw [show before.length + (k + 1) - 1 = before.length + k by omega, take_length_add_append,
    take_length_add_append, take_succ_cons, total_append, total_append, total_cons, hr]
  omega

/-- There is a hole of `size` bytes between two parts of the records. -/
structure Hole (t : BTree) (m m' : Node) (before after : List (List UInt8)) (size : Nat) :
    Prop where
  table : Table t m' ((before ++ after).length + 1) fun j =>
    if j ≤ before.length then descriptorSize + total ((before ++ after).take j)
    else descriptorSize + total ((before ++ after).take (j - 1)) + size
  front : bytesAt m' descriptorSize (total before) = before.flatten
  back : bytesAt m' (descriptorSize + total before + size) (total after) = after.flatten
  descriptor : ∀ x < descriptorSize, (x < numRecordsAddress ∨ numRecordsAddress + 2 ≤ x) →
    m' x = m x

theorem Holds.front (h : Holds t m (before ++ after)) :
    bytesAt m descriptorSize (total before) = before.flatten ∧
      bytesAt m (descriptorSize + total before) (total after) = after.flatten := by
  have hdata := h.data
  rw [total_append, bytesAt_append, flatten_append] at hdata
  exact append_inj hdata (bytesAt_length ..)

theorem Holds.offset_index (h : Holds t m (before ++ after)) :
    u16 (recordOffset t m before.length) = (descriptorSize + total before : Nat) := by
  have hfits := h.fits
  have := t.size_le
  rw [total_append] at hfits
  rw [h.recordOffset_eq (by rw [length_append]; omega), take_left]
  exact u16_eq (by omega) (by omega)

theorem Holds.offset_free (h : Holds t m (before ++ after)) :
    u16 (recordOffset t m (numRecords m)) =
      (descriptorSize + total before + total after : Nat) := by
  have hfits := h.fits
  have := t.size_le
  rw [total_append] at hfits
  rw [h.numRecords_eq, h.recordOffset_eq le_rfl, take_length, total_append, ← add_assoc]
  exact u16_eq (by omega) (by omega)

theorem makeHole_spec (h : Holds t m (before ++ after))
    (hroom : descriptorSize + total (before ++ after) + size +
      2 * ((before ++ after).length + 2) ≤ t.nodeSize) :
    Hole t m (makeHole t m before.length size) before after size := by
  have hsize := t.size_le
  have hten : numRecordsAddress = 10 := rfl
  have hdesc : descriptorSize = 14 := rfl
  have htotal := @total_append before after
  obtain ⟨hfront, hback⟩ := h.front
  let moved := moveBytes m (descriptorSize + total before) (descriptorSize + total before + size)
    (total after)
  have hhole : makeHole t m before.length size = insertOffset t moved before.length size := by
    simp only [makeHole, h.offset_index, h.offset_free,
      u16_add_sub (by omega : total after < 2 ^ 16),
      u16_eq (x := (size : Int)) (by omega) (by omega), Int.toNat_natCast, moveBytes_skip, moved]
  have houtside : ∀ x, x < descriptorSize + total before + size ∨
      descriptorSize + total before + size + total after ≤ x → moved x = m x :=
    fun x hx => moveBytes_outside hx
  have htable : Table t moved (before ++ after).length
      (fun i => descriptorSize + total ((before ++ after).take i)) :=
    h.table.congr (by omega) (bytesAt_eq_of_same fun x _ hx => houtside x (by omega))
      fun x hx => houtside x (by omega)
  have hmoved : bytesAt moved (descriptorSize + total before + size) (total after) =
      after.flatten :=
    (bytesAt_moveBytes ..).trans hback
  obtain ⟨htable', hframe⟩ := @insertOffset_table t moved _ _ htable before.length size
    (by rw [length_append]; omega) (by omega) (fun i hi => by
      have := @total_take_le (before ++ after) i
      omega)
  rw [← hhole] at htable' hframe
  refine ⟨htable', ?_, ?_, fun x hx hcount => ?_⟩
  · refine (bytesAt_eq_of_same fun x hx hlt => ?_).trans hfront
    rw [hframe x (by omega) (by omega)]
    exact houtside x (by omega)
  · refine (bytesAt_eq_of_same fun x hx hlt => ?_).trans hmoved
    exact hframe x (by omega) (by omega)
  · rw [hframe x (by omega) hcount]
    exact houtside x (by omega)

theorem Hole.holds {m'' : Node} (hh : Hole t m m' before after r.length)
    (hsizes : ∀ s ∈ before ++ after, s ≠ [] ∧ s.length % 2 = 0)
    (hroom : descriptorSize + total (before ++ after) + r.length +
      2 * ((before ++ after).length + 2) ≤ t.nodeSize)
    (hr : r ≠ []) (heven : r.length % 2 = 0)
    (hrecord : bytesAt m'' (descriptorSize + total before) r.length = r)
    (hsame : ∀ x, x < descriptorSize + total before ∨ descriptorSize + total before + r.length ≤ x →
      m'' x = m' x) :
    Holds t m'' (before ++ r :: after) ∧
        ∀ x < descriptorSize, (x < numRecordsAddress ∨ numRecordsAddress + 2 ≤ x) →
          m'' x = m x := by
  have hten : numRecordsAddress = 10 := rfl
  have hdesc : descriptorSize = 14 := rfl
  have htotal := @total_middle before after r
  have hlen := @length_middle before after r
  have hboth := @total_append before after
  refine ⟨⟨?_, ?_, by omega, ?_⟩, fun x hx hcount => ?_⟩
  · have htable := hh.table.congr (by omega)
      (bytesAt_eq_of_same fun x _ hx => hsame x (by omega)) fun x hx => hsame x (by omega)
    refine ⟨hlen ▸ htable.count, fun j hj => ?_⟩
    rw [hlen] at hj
    rw [htable.offsets j hj, total_take_insert rfl j hj]
  · rw [total_append, total_cons, bytesAt_append, bytesAt_append, flatten_append, flatten_cons,
      hrecord]
    congr 1
    · exact (bytesAt_eq_of_same fun x _ hx => hsame x (by omega)).trans hh.front
    · congr 1
      exact (bytesAt_eq_of_same fun x hx _ => hsame x (by omega)).trans hh.back
  · intro s hs
    rcases mem_append.mp hs with hmem | hmem
    · exact hsizes s (mem_append_left _ hmem)
    · rcases mem_cons.mp hmem with rfl | hmem
      · exact ⟨hr, heven⟩
      · exact hsizes s (mem_append_right _ hmem)
  · rw [hsame x (by omega)]
    exact hh.descriptor x hx hcount

theorem insertRecord_full (hfull : nodeFreeSize t m < r.length + 2) :
    insertRecord t m index r = (false, m) := by
  rw [insertRecord, if_pos hfull]

theorem insertRecord_spec (h : Holds t m (before ++ after)) (hr : r ≠ [])
    (heven : r.length % 2 = 0) (hfree : ¬ nodeFreeSize t m < r.length + 2) :
    ∃ m', insertRecord t m before.length r = (true, m') ∧ Holds t m' (before ++ r :: after) ∧
      ∀ x < descriptorSize, (x < numRecordsAddress ∨ numRecordsAddress + 2 ≤ x) → m' x = m x := by
  have hroom : descriptorSize + total (before ++ after) + r.length +
      2 * ((before ++ after).length + 2) ≤ t.nodeSize := by
    rw [h.nodeFreeSize_eq] at hfree
    omega
  refine ⟨_, by rw [insertRecord, if_neg hfree], ?_⟩
  rw [h.offset_index, Int.toNat_natCast]
  refine (makeHole_spec h hroom).holds h.sizes hroom hr heven (bytesAt_storeBytes ..) fun x hx => ?_
  exact storeBytes_outside hx

/-- A record with its key: the length, the key, zeros up to an even size, and the data. -/
def keyRecord (t : BTree) (keyLength : Nat) (key data : List UInt8) : List UInt8 :=
  leBytes (sizeOfLength t) keyLength ++ key ++
    List.replicate ((keySize t keyLength).toNat - sizeOfLength t - key.length) 0 ++ data

/-- A key that fits its type: at most 520 bytes, or 255 if its length is a byte. -/
structure KeyOk (t : BTree) (keyLength : Nat) (key : List UInt8) : Prop where
  raw : key.length ≤ keyLength
  max : keyLength ≤ 520
  small : t.bigKeys = false → keyLength ≤ 255

theorem keySize_spec (hk : KeyOk t keyLength key) :
    ∃ size, keySize t keyLength = (size : Nat) ∧ size % 2 = 0 ∧ keyLength + sizeOfLength t ≤ size ∧
      size < 600 := by
  have hmax := hk.max
  have hlen : sizeOfLength t ≤ 2 := by
    unfold sizeOfLength
    split <;> omega
  have hu : u16 (keyLength + sizeOfLength t : Int) = (keyLength + sizeOfLength t : Nat) := by
    exact u16_eq (by omega) (by omega)
  unfold keySize
  simp only [hu]
  split
  · refine ⟨keyLength + sizeOfLength t + 1, ?_, by omega, by omega, by omega⟩
    rw [u16_eq (by omega) (by omega)]
    rfl
  · exact ⟨keyLength + sizeOfLength t, rfl, by omega, by omega, by omega⟩

theorem keyRecord_length {keyLength : Nat} {key data : List UInt8} (hk : KeyOk t keyLength key) :
    ((keyRecord t keyLength key data).length : Int) = keySize t keyLength + data.length := by
  obtain ⟨size, hsize, -, hle, -⟩ := keySize_spec hk
  have hraw := hk.raw
  simp only [keyRecord, length_append, leBytes_length, length_replicate, hsize, Int.toNat_natCast]
  omega

theorem insertKeyRecord_full (hk : KeyOk t keyLength key)
    (hfull : nodeFreeSize t m < (keyRecord t keyLength key data).length + 2) :
    insertKeyRecord t m index keyLength key data = (false, m) := by
  rw [keyRecord_length hk] at hfull
  simp [insertKeyRecord, if_pos hfull]

/-- The four stores of a record with its key: the clearing of the pad bytes runs into the data,
which is stored over it. -/
theorem store_keyRecord (m : Node) {base field size : Nat} {count key data : List UInt8}
    (hcount : count.length = field) (hkey : field + key.length ≤ size)
    (hdata : field ≤ data.length) :
    let m' := storeBytes (clearBytes (storeBytes (storeBytes m base count) (base + field) key)
      (base + field + key.length) (size - key.length)) (base + size) data
    bytesAt m' base (size + data.length) =
        count ++ key ++ List.replicate (size - field - key.length) 0 ++ data ∧
      ∀ x, x < base ∨ base + (size + data.length) ≤ x → m' x = m x := by
  intro m'
  have hzeros : (List.replicate (size - key.length) (0 : UInt8)).length = size - key.length :=
    length_replicate
  refine ⟨?_, fun x hx => ?_⟩
  · have hcounted : bytesAt m' base field = count := by
      simp only [m', clearBytes]
      rw [bytesAt_storeBytes_apart (by omega), bytesAt_storeBytes_apart (by omega),
        bytesAt_storeBytes_apart (by omega), ← hcount]
      exact bytesAt_storeBytes ..
    have hkeyed : bytesAt m' (base + field) key.length = key := by
      simp only [m', clearBytes]
      rw [bytesAt_storeBytes_apart (by omega), bytesAt_storeBytes_apart (by omega)]
      exact bytesAt_storeBytes ..
    have hpadded : bytesAt m' (base + field + key.length) (size - field - key.length) =
        List.replicate (size - field - key.length) 0 := by
      simp only [m', clearBytes]
      rw [bytesAt_storeBytes_apart (by omega)]
      have hall := bytesAt_storeBytes (storeBytes (storeBytes m base count) (base + field) key)
        (base + field + key.length) (List.replicate (size - key.length) 0)
      rw [hzeros] at hall
      rw [← bytesAt_take (by omega : size - field - key.length ≤ size - key.length), hall,
        take_replicate, min_eq_left (by omega)]
    have hstored : bytesAt m' (base + size) data.length = data := bytesAt_storeBytes ..
    calc bytesAt m' base (size + data.length)
        = bytesAt m' base (field + key.length + (size - field - key.length)) ++ data := by
          rw [bytesAt_append, hstored, show field + key.length +
            (size - field - key.length) = size by omega]
      _ = _ := by rw [bytesAt_append, bytesAt_append, hcounted, hkeyed, ← add_assoc, hpadded]
  · simp only [m', clearBytes]
    rw [storeBytes_outside (by omega), storeBytes_outside (by omega), storeBytes_outside (by omega),
      storeBytes_outside (by omega)]

theorem insertKeyRecord_spec (h : Holds t m (before ++ after)) (hk : KeyOk t keyLength key)
    (hdata : data ≠ []) (heven : data.length % 2 = 0)
    (hfree : ¬ nodeFreeSize t m < (keyRecord t keyLength key data).length + 2) :
    ∃ m', insertKeyRecord t m before.length keyLength key data = (true, m') ∧
      Holds t m' (before ++ keyRecord t keyLength key data :: after) ∧
      ∀ x < descriptorSize, (x < numRecordsAddress ∨ numRecordsAddress + 2 ≤ x) → m' x = m x := by
  obtain ⟨size, hsize, hsizeEven, hle, hsmall⟩ := keySize_spec hk
  have hraw := hk.raw
  have hpos := length_pos_of_ne_nil hdata
  have hfield : 0 < sizeOfLength t ∧ sizeOfLength t ≤ 2 := by
    unfold sizeOfLength
    split <;> decide
  have hlength : (keyRecord t keyLength key data).length = size + data.length := by
    have := @keyRecord_length t keyLength key data hk
    omega
  have hroom : descriptorSize + total (before ++ after) + (size + data.length) +
      2 * ((before ++ after).length + 2) ≤ t.nodeSize := by
    rw [h.nodeFreeSize_eq] at hfree
    omega
  have hhole := makeHole_spec h hroom
  have hmove : u16 ((size : Int) - key.length) = (size - key.length : Nat) := by
    rw [← Nat.cast_sub (by omega)]
    exact u16_eq (by omega) (by omega)
  have hclear : ((size - key.length : Nat) : Int) ≠ 0 := by omega
  rw [keyRecord_length hk, hsize] at hfree
  simp only [insertKeyRecord, hsize, if_neg hfree, h.offset_index,
    Int.toNat_natCast, hmove, if_neg hclear]
  refine ⟨_, rfl, ?_⟩
  obtain ⟨hrecord, houtside⟩ := @store_keyRecord (makeHole t m before.length (size + data.length))
    (descriptorSize + total before) (sizeOfLength t) size (leBytes (sizeOfLength t) keyLength)
      key data
    (leBytes_length ..) (by omega) (by omega)
  have hbytes : leBytes (sizeOfLength t) keyLength ++ key ++
      List.replicate (size - sizeOfLength t - key.length) 0 ++
        data = keyRecord t keyLength key data := by
    rw [keyRecord, hsize, Int.toNat_natCast]
  rw [hbytes] at hrecord
  rw [← hlength] at hhole hroom hrecord houtside ⊢
  refine hhole.holds h.sizes hroom ?_ (by omega) hrecord houtside
  intro hnil
  rw [hnil, length_nil] at hlength
  omega

theorem total_take_delete (j : Nat) (hj : j ≤ (before ++ after).length) :
    (if j ≤ before.length then descriptorSize + total ((before ++ r :: after).take j)
      else descriptorSize + total ((before ++ r :: after).take (j + 1)) -
        (descriptorSize + total ((before ++ r :: after).take (before.length + 1)) -
          (descriptorSize + total ((before ++ r :: after).take before.length)))) =
      descriptorSize + total ((before ++ after).take j) := by
  have hprefix := @total_take_insert before after r.length r rfl
  have hlength : before.length ≤ (before ++ after).length := by
    rw [length_append]
    omega
  have hat := hprefix before.length (by omega)
  have hbehind := hprefix (before.length + 1) (by omega)
  rw [if_pos le_rfl] at hat
  rw [if_neg (by omega), Nat.add_sub_cancel] at hbehind
  by_cases hle : j ≤ before.length
  · rw [if_pos hle, hprefix j (by omega), if_pos hle]
  have hone := hprefix (j + 1) (by omega)
  rw [if_neg (by omega), Nat.add_sub_cancel] at hone
  rw [if_neg hle]
  omega

/-- The records behind one are moved over it, and its offset is gone. -/
structure Closed (t : BTree) (m m' : Node) (before after : List (List UInt8)) : Prop where
  table : Table t m' (before ++ after).length fun i =>
    descriptorSize + total ((before ++ after).take i)
  data : bytesAt m' descriptorSize (total (before ++ after)) = (before ++ after).flatten
  descriptor : ∀ x < descriptorSize, (x < numRecordsAddress ∨ numRecordsAddress + 2 ≤ x) →
    m' x = m x

/-- The node when the records behind one are moved over it. -/
def closeHole (t : BTree) (m : Node) (before after : List (List UInt8)) (size : Nat) : Node :=
  deleteOffset t (moveBytes m (descriptorSize + total before + size) (descriptorSize + total before)
    (total after)) before.length

theorem closeHole_spec (h : Holds t m (before ++ r :: after)) :
    Closed t m (closeHole t m before after r.length) before after := by
  have hsize := t.size_le
  have hten : numRecordsAddress = 10 := rfl
  have hdesc : descriptorSize = 14 := rfl
  have hfits := h.fits
  rw [total_middle, length_middle] at hfits
  have hboth := @total_append before after
  obtain ⟨hfront, hrest⟩ := h.front
  rw [total_cons, bytesAt_append, flatten_cons] at hrest
  have hback := (append_inj hrest (bytesAt_length ..)).2
  let moved := moveBytes m (descriptorSize + total before + r.length)
    (descriptorSize + total before)
    (total after)
  have houtside : ∀ x, x < descriptorSize + total before ∨
      descriptorSize + total before + total after ≤ x → moved x = m x :=
    fun x hx => moveBytes_outside hx
  have htable : Table t moved ((before ++ after).length + 1)
      (fun i => descriptorSize + total ((before ++ r :: after).take i)) := by
    rw [← @length_middle before after r]
    exact h.table.congr (by rw [length_middle]; omega) (bytesAt_eq_of_same fun x _ hx =>
      houtside x (by omega))
      fun x hx => houtside x (by rw [length_middle] at hx; omega)
  obtain ⟨hnew, hframe⟩ := @deleteOffset_table t moved _ _ htable before.length
    (by rw [length_append]; omega) (by omega) (fun i _ => by
      have hle := @total_take_le (before ++ r :: after) i
      rw [total_middle] at hle
      omega) (fun i hi _ => Nat.add_le_add_left (total_take_mono _ hi) _)
    (Nat.add_le_add_left (total_take_mono _ (Nat.le_succ _)) _)
  refine ⟨⟨hnew.count, fun j hj => ?_⟩, ?_, fun x hx hcount => ?_⟩
  · exact (hnew.offsets j hj).trans (congrArg (leBytes 2) (total_take_delete j hj))
  · rw [total_append, bytesAt_append, flatten_append]
    congr 1
    · refine (bytesAt_eq_of_same fun x hx hlt => ?_).trans hfront
      exact (hframe x (by omega) (by omega)).trans (houtside x (by omega))
    · refine (bytesAt_eq_of_same fun x hx hlt => ?_).trans ((bytesAt_moveBytes ..).trans hback)
      exact hframe x (by omega) (by omega)
  · exact (hframe x (by omega) hcount).trans (houtside x (by omega))

theorem Holds.offset_signed {recs : List (List UInt8)} (h : Holds t m recs) {k : Nat}
    (hk : k ≤ recs.length) :
    i16 (recordOffset t m k) = (descriptorSize + total (recs.take k) : Nat) := by
  have hfits := h.fits
  have hsize := t.size_le
  have hle := @total_take_le recs k
  rw [h.recordOffset_eq hk]
  exact i16_eq (by omega) (by omega)

theorem Holds.delete_offsets (h : Holds t m (before ++ r :: after)) :
    i16 (recordOffset t m before.length) = (descriptorSize + total before : Nat) ∧
      i16 (recordOffset t m (before.length + 1)) =
        (descriptorSize + total before + r.length : Nat) ∧
      i16 (recordOffset t m (numRecords m)) =
        (descriptorSize + total before + r.length + total after : Nat) := by
  refine ⟨?_, ?_, ?_⟩
  · rw [h.offset_signed (by rw [length_append]; omega), take_left]
  · rw [h.offset_signed (by rw [length_append, length_cons]; omega),
      take_length_add_append, take_succ_cons, take_zero, total_append, total_cons,
      add_assoc]
    rfl
  · rw [h.numRecords_eq, h.offset_signed le_rfl, take_length, total_append, total_cons]
    simp [add_assoc]

theorem deleteRecord_eq (h : Holds t m (before ++ r :: after)) :
    deleteRecord t m before.length = clearBytes (closeHole t m before after r.length)
      (descriptorSize + total (before ++ after)) r.length := by
  have hfits := h.fits
  have hsize := t.size_le
  rw [total_append, total_cons] at hfits
  have hafter : total after < 2 ^ 15 := by omega
  have hr : r.length < 2 ^ 15 := by omega
  have hafter64 : total after < 2 ^ 64 := hafter.trans (by decide)
  have hr64 : r.length < 2 ^ 64 := hr.trans (by decide)
  have hclosed := closeHole_spec h
  have hfreed : recordOffset t (closeHole t m before after r.length)
      (numRecords (closeHole t m before after r.length)) =
        (descriptorSize + total (before ++ after) : Nat) := by
    have htotal := @total_append before after
    have hlen := @length_middle before after r
    rw [hclosed.table.numRecords_eq (by omega), recordOffset,
      load16_eq (by rw [take_length]; omega) (hclosed.table.offsets _ le_rfl), take_length]
    exact i16_eq (by omega) (by omega)
  obtain ⟨hindex, hnext, hfree⟩ := h.delete_offsets
  simp only [closeHole] at hfreed ⊢
  simp only [deleteRecord, hindex, hnext, hfree, i16_add_sub hafter,
    i16_add_sub hr, u64_toNat hafter64,
    u64_toNat hr64, Int.toNat_natCast, moveBytes_skip, hfreed]

theorem deleteRecord_spec (h : Holds t m (before ++ r :: after)) :
    Holds t (deleteRecord t m before.length) (before ++ after) ∧
      ∀ x < descriptorSize, (x < numRecordsAddress ∨ numRecordsAddress + 2 ≤ x) →
        deleteRecord t m before.length x = m x := by
  have hten : numRecordsAddress = 10 := rfl
  have hdesc : descriptorSize = 14 := rfl
  have hfits := h.fits
  rw [total_middle, length_middle] at hfits
  have hclosed := closeHole_spec h
  have hkeep : ∀ x, x < descriptorSize + total (before ++ after) ∨
      descriptorSize + total (before ++ after) + r.length ≤ x →
        deleteRecord t m before.length x = closeHole t m before after r.length x := by
    intro x hx
    rw [deleteRecord_eq h]
    exact clearBytes_outside hx
  refine ⟨⟨?_, ?_, by omega, ?_⟩, fun x hx hcount => ?_⟩
  · exact hclosed.table.congr (by omega) (bytesAt_eq_of_same fun x _ hx => hkeep x (by omega))
      fun x hx => hkeep x (by omega)
  · exact (bytesAt_eq_of_same fun x _ hx => hkeep x (.inl hx)).trans hclosed.data
  · intro s hs
    apply h.sizes s
    rcases mem_append.mp hs with hmem | hmem
    · exact mem_append_left _ hmem
    · exact mem_append_right _ (mem_cons_of_mem _ hmem)
  · rw [hkeep x (by omega)]
    exact hclosed.descriptor x hx hcount

end XnuXzs.Hfs
