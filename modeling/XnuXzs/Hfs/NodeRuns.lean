import XnuXzs.Hfs.NodeOps
import XnuXzs.Lib.Runs

/-!
# Runs of the node routines

A node is well formed when its offsets are. Any sequence of insertions and deletions keeps it
so, and does to the list of its records what it should.
-/

namespace XnuXzs.Hfs

open Lib List

variable (t : BTree)

structure WellFormed (m : Node) : Prop where
  first : recordOffset t m 0 = descriptorSize
  increasing : ∀ i < numRecords m, recordOffset t m i < recordOffset t m (i + 1)
  even : ∀ i ≤ numRecords m, recordOffset t m i % 2 = 0
  free : recordOffset t m (numRecords m) + 2 * (numRecords m + 1) ≤ t.nodeSize

/-- The bytes between the offsets. -/
def records (m : Node) : List (List UInt8) :=
  (List.range (numRecords m)).map fun i =>
    bytesAt m (recordOffset t m i).toNat (recordOffset t m (i + 1) - recordOffset t m i).toNat

variable {t} {m : Node} {i : Nat}

theorem records_length : (records t m).length = numRecords m := by
  rw [records, length_map, length_range]

theorem records_getElem (hi : i < (records t m).length) : (records t m)[i] =
    bytesAt m (recordOffset t m i).toNat (recordOffset t m (i + 1) - recordOffset t m i).toNat := by
  simp [records]

section WellFormed

section

variable (h : WellFormed t m) {k : Nat}
include h

theorem WellFormed.mono {j : Nat} (hij : i ≤ j) (hj : j ≤ numRecords m) :
    recordOffset t m i ≤ recordOffset t m j := by
  induction j with
  | zero =>
    obtain rfl : i = 0 := by omega
    exact le_rfl
  | succ j ih =>
    rcases Nat.lt_or_eq_of_le hij with hlt | rfl
    · exact (ih (Nat.le_of_lt_succ hlt) (by omega)).trans (h.increasing j (by omega)).le
    · exact le_rfl

theorem WellFormed.descriptor_le (hi : i ≤ numRecords m) :
    (descriptorSize : Int) ≤ recordOffset t m i := h.first ▸ h.mono (Nat.zero_le i) hi

theorem WellFormed.take_flatten (hk : k ≤ numRecords m) :
    ((records t m).take k).flatten =
      bytesAt m descriptorSize (recordOffset t m k - descriptorSize).toNat := by
  induction k with
  | zero =>
    rw [h.first, sub_self]
    rfl
  | succ k ih =>
    have hlow := h.descriptor_le (i := k) (by omega)
    have hstep := h.increasing k (by omega)
    have hlt : k < (records t m).length := by
      rw [records_length]
      omega
    have hsum : (recordOffset t m (k + 1) - descriptorSize).toNat =
        (recordOffset t m k - descriptorSize).toNat +
          (recordOffset t m (k + 1) - recordOffset t m k).toNat := by omega
    have hat : descriptorSize + (recordOffset t m k - descriptorSize).toNat =
        (recordOffset t m k).toNat := by omega
    rw [take_succ_eq_append_getElem hlt, flatten_append, ih (by omega), records_getElem, hsum,
      bytesAt_append, hat]
    simp

theorem WellFormed.total_take (hk : k ≤ numRecords m) :
    (descriptorSize + total ((records t m).take k) : Nat) = recordOffset t m k := by
  have hlow := h.descriptor_le hk
  rw [total, h.take_flatten hk, bytesAt_length]
  omega

end

theorem load16_bytes (m : Node) (a : Nat) : bytesAt m a 2 = leBytes 2 (load16 m a) := by
  have hbytes := leBytes_leValue (bytesAt m a 2)
  exact hbytes.symm

theorem load16_lt (m : Node) (a : Nat) : load16 m a < 2 ^ 16 := by
  have hlt := leValue_lt (bytesAt m a 2)
  rw [bytesAt_length] at hlt
  exact hlt

theorem WellFormed.holds (h : WellFormed t m) : Holds t m (records t m) := by
  have hwhole : (records t m).take (numRecords m) = records t m :=
    take_of_length_le (by rw [records_length])
  have htotal := h.total_take le_rfl
  rw [hwhole] at htotal
  refine ⟨⟨?_, fun i hi => ?_⟩, ?_, ?_, ?_⟩
  · rw [records_length]
    exact load16_bytes m numRecordsAddress
  · rw [records_length] at hi
    have hoffset := h.total_take hi
    have hlow := h.descriptor_le hi
    have hsame : recordOffset t m i = load16 m (offsetAddress t i) :=
      i16_of_nonneg (Nat.cast_nonneg _) (Nat.cast_lt.mpr (load16_lt ..))
        ((Nat.cast_nonneg descriptorSize).trans hlow)
    rw [hsame] at hoffset
    rw [load16_bytes, Nat.cast_inj.mp hoffset.symm]
  · have hflat := h.take_flatten le_rfl
    rw [hwhole] at hflat
    have hlen := congrArg List.length hflat
    rw [bytesAt_length] at hlen
    rw [total, hlen, ← hflat]
  · have hfree := h.free
    rw [records_length]
    omega
  · intro r hr
    obtain ⟨i, hi, rfl⟩ := getElem_of_mem hr
    have hi' : i < numRecords m := records_length (t := t) (m := m) ▸ hi
    have hstep := h.increasing i hi'
    have heven := h.even i (by omega)
    have heven' := h.even (i + 1) hi'
    rw [records_getElem]
    refine ⟨fun hnil => ?_, ?_⟩
    · have hlen := congrArg List.length hnil
      rw [bytesAt_length, length_nil] at hlen
      omega
    · rw [bytesAt_length]
      omega

theorem total_take_succ {recs : List (List UInt8)} (hi : i < recs.length) :
    total (recs.take (i + 1)) = total (recs.take i) + recs[i].length := by
  rw [take_succ_eq_append_getElem hi, total_append, total_cons]
  rfl

variable {recs : List (List UInt8)} {m' : Node}

theorem Holds.wellFormed (h : Holds t m recs) : WellFormed t m := by
  have hcount := h.numRecords_eq
  have heven : ∀ i ≤ recs.length, total (recs.take i) % 2 = 0 := by
    intro i hi
    induction i with
    | zero => rfl
    | succ i ih =>
      have hsize := (h.sizes _ (getElem_mem hi)).2
      rw [total_take_succ hi]
      omega
  have hdesc : descriptorSize = 14 := rfl
  refine ⟨h.recordOffset_eq (Nat.zero_le _), fun i hi => ?_, fun i hi => ?_, ?_⟩
  · rw [hcount] at hi
    have hpos := length_pos_of_ne_nil (h.sizes _ (getElem_mem hi)).1
    rw [h.recordOffset_eq hi.le, h.recordOffset_eq hi, total_take_succ hi]
    omega
  · rw [hcount] at hi
    have := heven i hi
    rw [h.recordOffset_eq hi]
    omega
  · have hfits := h.fits
    rw [hcount, h.recordOffset_eq le_rfl, take_length]
    omega

theorem Holds.records_eq (h : Holds t m recs) : records t m = recs := by
  have hlen : (records t m).length = recs.length := records_length.trans h.numRecords_eq
  apply ext_getElem hlen
  intro i hi hi'
  have hend := @total_take_le recs (i + 1)
  rw [total_take_succ hi'] at hend
  have hsplit : recs.flatten = (recs.take i).flatten ++
      (recs[i] ++ (recs.drop (i + 1)).flatten) := by
    rw [← flatten_cons, ← drop_eq_getElem_cons hi', ← flatten_append, take_append_drop]
  have hpart : bytesAt m (descriptorSize + total (recs.take i)) recs[i].length = recs[i] := by
    have hdata := congrArg (List.drop (total (recs.take i))) h.data
    have hlength : (recs.take i).flatten.length = total (recs.take i) := rfl
    rw [bytesAt_drop (by omega), hsplit, drop_left' hlength] at hdata
    have hfirst := congrArg (List.take recs[i].length) hdata
    rwa [bytesAt_take (by omega), take_left' rfl] at hfirst
  have hsize : ((descriptorSize + (total (recs.take i) + recs[i].length) : Nat) -
      (descriptorSize + total (recs.take i) : Nat) : Int).toNat = recs[i].length := by
    omega
  rw [records_getElem, h.recordOffset_eq hi'.le, h.recordOffset_eq hi', total_take_succ hi', hsize,
    Int.toNat_natCast, hpart]

/-- The bytes of the descriptor, the records and their offsets. -/
def InUse (t : BTree) (m : Node) (a : Nat) : Prop :=
  (a : Int) < recordOffset t m (numRecords m) ∨
    t.nodeSize - 2 * (numRecords m + 1) ≤ a ∧ a < t.nodeSize

/-- The descriptor apart from the count. -/
def SameDescriptor (m m' : Node) : Prop :=
  ∀ x < descriptorSize, (x < numRecordsAddress ∨ numRecordsAddress + 2 ≤ x) → m' x = m x

theorem eq_of_bytesAt {off n x : Nat} (hsame : bytesAt m' off n = bytesAt m off n)
    (hlow : off ≤ x) (hhigh : x < off + n) : m' x = m x := by
  have hget := congrArg (·[x - off]?) hsame
  have hlt : x - off < n := by omega
  simp only [bytesAt, getElem?_map, getElem?_range hlt, Option.map_some, Option.some.injEq,
    Nat.add_sub_cancel' hlow] at hget
  exact hget

theorem Holds.same_in_use (h : Holds t m recs) (h' : Holds t m' recs)
    (hdescriptor : SameDescriptor m m') {a : Nat} (ha : InUse t m a) : m' a = m a := by
  have hk : kOffsetSize = 2 := rfl
  rw [InUse, h.numRecords_eq, h.recordOffset_eq le_rfl, take_length] at ha
  rcases ha with hlow | ⟨hlow, hhigh⟩
  · by_cases hrecord : descriptorSize ≤ a
    · exact eq_of_bytesAt (h'.data.trans h.data.symm) hrecord (by omega)
    · by_cases hcount : a < numRecordsAddress ∨ numRecordsAddress + 2 ≤ a
      · exact hdescriptor a (by omega) hcount
      · exact eq_of_bytesAt (h'.table.count.trans h.table.count.symm) (by omega) (by omega)
  · -- the offset whose two bytes `a` is one of
    have hi : (t.nodeSize - 1 - a) / 2 ≤ recs.length := by omega
    refine eq_of_bytesAt ((h'.table.offsets _ hi).trans (h.table.offsets _ hi).symm) ?_ ?_
    · rw [offsetAddress]
      omega
    · rw [offsetAddress]
      omega

end WellFormed

inductive NodeOp where
  | insert (index : Nat) (record : List UInt8)
  | insertKey (index keyLength : Nat) (key data : List UInt8)
  | delete (index : Nat)

namespace NodeOp

/-- Records are not empty and of even size, as `CheckInsertParams` and the
callers see to it, keys fit their type, and the index is one of the node. -/
def Valid (t : BTree) (n : Nat) : NodeOp → Prop
  | insert index record => index ≤ n ∧ record ≠ [] ∧ record.length % 2 = 0
  | insertKey index keyLength key data =>
    index ≤ n ∧ KeyOk t keyLength key ∧ data ≠ [] ∧ data.length % 2 = 0
  | delete index => index < n

def run (t : BTree) (m : Node) : NodeOp → Bool × Node
  | insert index record => insertRecord t m index record
  | insertKey index keyLength key data => insertKeyRecord t m index keyLength key data
  | delete index => (true, deleteRecord t m index)

def inserted (t : BTree) : NodeOp → Option (Nat × List UInt8)
  | insert index record => some (index, record)
  | insertKey index keyLength key data => some (index, keyRecord t keyLength key data)
  | delete _ => none

/-- The record and its offset do not fit. -/
def Full (t : BTree) (m : Node) (op : NodeOp) : Prop :=
  ∃ index record, op.inserted t = some (index, record) ∧ nodeFreeSize t m < record.length + 2

def onList (t : BTree) (recs : List (List UInt8)) : NodeOp → List (List UInt8)
  | delete index => recs.eraseIdx index
  | insert index record => recs.insertIdx index record
  | insertKey index keyLength key data => recs.insertIdx index (keyRecord t keyLength key data)

end NodeOp

structure Acts (t : BTree) (m : Node) (op : NodeOp) : Prop where
  wellFormed : WellFormed t (op.run t m).2
  refuses : (op.run t m).1 = false ↔ op.Full t m
  unchanged : op.Full t m → (op.run t m).2 = m
  records : ¬ op.Full t m → records t (op.run t m).2 = op.onList t (records t m)
  descriptor : SameDescriptor m (op.run t m).2
  restores : ∀ index record, op.inserted t = some (index, record) → ¬ op.Full t m →
    ∀ a, InUse t m a → deleteRecord t (op.run t m).2 index a = m a

theorem insertIdx_append_length {α : Type} (before after : List α) (x : α) :
    (before ++ after).insertIdx before.length x = before ++ x :: after := by
  induction before with
  | nil => rfl
  | cons b before ih => simp [ih]

theorem acts_insert (h : WellFormed t m) {op : NodeOp} {index : Nat} {record : List UInt8}
    (hop : op.inserted t = some (index, record)) (hindex : index ≤ numRecords m)
    (hlist : op.onList t (records t m) = (records t m).insertIdx index record)
    (hfull : nodeFreeSize t m < record.length + 2 → op.run t m = (false, m))
    (hfree : ∀ before after, Holds t m (before ++ after) → before.length = index →
      ¬ nodeFreeSize t m < record.length + 2 → ∃ m', op.run t m = (true, m') ∧
        Holds t m' (before ++ record :: after) ∧ SameDescriptor m m') : Acts t m op := by
  have hiff : op.Full t m ↔ nodeFreeSize t m < record.length + 2 := by
    constructor
    · rintro ⟨index', record', hop', hlt⟩
      rw [hop] at hop'
      cases hop'
      exact hlt
    · exact fun hlt => ⟨index, record, hop, hlt⟩
  by_cases hroom : nodeFreeSize t m < record.length + 2
  · have hrun := hfull hroom
    have hisFull := hiff.mpr hroom
    refine ⟨by rw [hrun]; exact h, by rw [hrun]; exact ⟨fun _ => hisFull, fun _ => rfl⟩,
      fun _ => by rw [hrun], absurd hisFull, ?_, fun _ _ _ hnot => absurd hisFull hnot⟩
    rw [hrun]
    exact fun _ _ _ => rfl
  · have hholds := h.holds
    have hsplit := take_append_drop index (records t m)
    have hlen : ((records t m).take index).length = index := by
      rw [length_take, records_length]
      exact min_eq_left hindex
    rw [← hsplit] at hholds
    obtain ⟨m', hrun, hnew, hdescriptor⟩ := hfree _ _ hholds hlen hroom
    have hnotFull : ¬ op.Full t m := fun hf => hroom (hiff.mp hf)
    have hrecs := hnew.records_eq
    refine ⟨by rw [hrun]; exact hnew.wellFormed,
      by rw [hrun]; exact ⟨nofun, fun hf => absurd hf hnotFull⟩,
      fun hf => absurd hf hnotFull, fun _ => ?_, by rw [hrun]; exact hdescriptor, ?_⟩
    · have hins :=
        insertIdx_append_length ((records t m).take index) ((records t m).drop index) record
      rw [hlen, hsplit] at hins
      rw [hrun, hrecs, hlist, hins]
    intro index' record' hop' _ a ha
    rw [hop] at hop'
    cases hop'
    obtain ⟨hback, hsame⟩ := deleteRecord_spec hnew
    rw [hlen] at hback hsame
    rw [hrun]
    refine hholds.same_in_use hback (fun x hx hcount => ?_) ha
    rw [hsame x hx hcount]
    exact hdescriptor x hx hcount

theorem acts_of_valid (h : WellFormed t m) {op : NodeOp} (hvalid : op.Valid t (numRecords m)) :
    Acts t m op := by
  cases op with
  | insert =>
    obtain ⟨hindex, hne, heven⟩ := hvalid
    refine acts_insert h rfl hindex rfl insertRecord_full ?_
    rintro before after hholds rfl hfree
    exact insertRecord_spec hholds hne heven hfree
  | insertKey =>
    obtain ⟨hindex, hkey, hne, heven⟩ := hvalid
    apply acts_insert h rfl hindex rfl (insertKeyRecord_full hkey)
    rintro before after hholds rfl hfree
    exact insertKeyRecord_spec hholds hkey hne heven hfree
  | delete index =>
    have hindex : index < (records t m).length := records_length (t := t) ▸ hvalid
    have hholds := h.holds
    have hsplit : (records t m).take index ++ (records t m)[index] ::
      (records t m).drop (index + 1) =
        records t m := by
      rw [← drop_eq_getElem_cons hindex, take_append_drop]
    have hlen : ((records t m).take index).length = index := by
      rw [length_take]
      exact min_eq_left hindex.le
    rw [← hsplit] at hholds
    obtain ⟨hnew, hdescriptor⟩ := deleteRecord_spec hholds
    rw [hlen] at hnew hdescriptor
    have hnotFull : ¬ (NodeOp.delete index).Full t m := by
      rintro ⟨_, _, hop, -⟩
      cases hop
    have hrun : (NodeOp.delete index).run t m = (true, deleteRecord t m index) := rfl
    generalize deleteRecord t m index = m' at hnew hdescriptor hrun
    have herase : (NodeOp.delete index).onList t (records t m) =
        (records t m).take index ++ (records t m).drop (index + 1) :=
      eraseIdx_eq_take_drop_succ ..
    refine ⟨?_, ?_, fun hf => absurd hf hnotFull, fun _ => ?_, ?_, nofun⟩
    · rw [hrun]
      exact hnew.wellFormed
    · rw [hrun]
      exact ⟨nofun, fun hf => absurd hf hnotFull⟩
    · rw [hrun, hnew.records_eq, herase]
    · rw [hrun]
      exact hdescriptor

/-- A node, and calls on it at valid indices. -/
def nodeSystem (t : BTree) : System Node where
  init := WellFormed t
  step m m' := ∃ op : NodeOp, op.Valid t (numRecords m) ∧ m' = (op.run t m).2

/-- After any sequence of calls the node is well formed, and the next call does to
its list of records what it should. -/
theorem node_calls (t : BTree) : (nodeSystem t).Always fun m =>
    WellFormed t m ∧ ∀ op : NodeOp, op.Valid t (numRecords m) → Acts t m op := by
  have hwell : (nodeSystem t).Always (WellFormed t) := by
    apply System.always_of_step
    · exact fun m hm => hm
    · rintro m m' hm ⟨op, hvalid, rfl⟩
      exact (acts_of_valid hm hvalid).wellFormed
  intro m hm
  exact ⟨hwell m hm, fun op hvalid => acts_of_valid (hwell m hm) hvalid⟩

end XnuXzs.Hfs
