import XnuXzs.Hfs.NodeRuns
import XnuXzs.Hfs.UnicodeCompare

/-!
# Leaves of the catalog

`BTInsertRecord` puts a record where the search for its key has ended. So the records of a
leaf stand in the order of their keys, on which the next search relies.
-/

namespace XnuXzs.Hfs

open Lib List

structure CatalogKey where
  parentID : Nat
  nodeName : List UInt16

variable (table : Nat → UInt16)

def compareExtendedCatalogKeys (searchKey trialKey : CatalogKey) : Int :=
  if searchKey.parentID > trialKey.parentID then 1
  else if searchKey.parentID < trialKey.parentID then -1
  else if searchKey.nodeName.length = 0 ∨ trialKey.nodeName.length = 0 then
    searchKey.nodeName.length - trialKey.nodeName.length
  else fastUnicodeCompare table searchKey.nodeName trialKey.nodeName

/-- `HFSPlusCatalogKey` at an address, after its length. -/
def readCatalogKey (m : Node) (a : Nat) : CatalogKey :=
  ⟨leValue (bytesAt m (a + 2) 4),
    (range (load16 m (a + 6))).map fun i => .ofNat (load16 m (a + (8 + 2 * i)))⟩

/-- The key at the start of a record. -/
def keyOf (record : List UInt8) : CatalogKey := readCatalogKey (record.getD · 0) 0

/-- The key does not go beyond its record. -/
def WholeKey (record : List UInt8) : Prop := 8 + 2 * (keyOf record).nodeName.length ≤ record.length

/-- Case and ignorable characters make no difference, but no name is like the empty one. -/
def SameKey (a b : CatalogKey) : Prop :=
  a.parentID = b.parentID ∧ (a.nodeName = [] ↔ b.nodeName = []) ∧
    folded table a.nodeName = folded table b.nodeName

def Increasing (recs : List (List UInt8)) : Prop :=
  recs.Pairwise fun a b => compareExtendedCatalogKeys table (keyOf a) (keyOf b) < 0

variable (t : BTree)

def searchLeaf : Node → CatalogKey → Bool × Int :=
  searchNode t readCatalogKey (compareExtendedCatalogKeys table)

/-- A leaf that was empty. What is inserted goes where the search for it has ended. -/
def leafSystem : System Node where
  init m := WellFormed t m ∧ numRecords m = 0
  step m m' := ∃ op : NodeOp, op.Valid t (numRecords m) ∧
    (∀ index record, op.inserted t = some (index, record) →
      WholeKey record ∧ searchLeaf table t m (keyOf record) = (false, (index : Int))) ∧
    m' = (op.run t m).2

/-- The search tells whether a record has the key, and which one. -/
def Finds (m : Node) (searchKey : CatalogKey) : Bool × Int → Prop
  | (true, index) => ∃ r, (records t m)[index.toNat]? = some r ∧ SameKey table searchKey (keyOf r)
  | (false, _) => ∀ r ∈ records t m, ¬ SameKey table searchKey (keyOf r)

structure LeafOk (m : Node) : Prop where
  well : WellFormed t m
  whole : ∀ r ∈ records t m, WholeKey r
  increasing : Increasing table (records t m)

variable {table t} {record : List UInt8}

theorem sign_zero {o : Ordering} : sign o = 0 ↔ o = .eq := by cases o <;> decide

theorem fastUnicodeCompare_zero {a b : List UInt16} :
    fastUnicodeCompare table a b = 0 ↔ folded table a = folded table b := by
  rw [fastUnicodeCompare_eq, sign_zero]
  exact Std.LawfulEqOrd.compare_eq_iff_eq

theorem compareExtendedCatalogKeys_order : KeyOrder (compareExtendedCatalogKeys table) := by
  refine ⟨fun a b => ?_, fun {a b c} hab hbc => ?_⟩
  · have := (fastUnicodeCompare_keyOrder table).swap a.nodeName b.nodeName
    simp only [compareExtendedCatalogKeys]
    split_ifs <;> omega
  · have := @(fastUnicodeCompare_keyOrder table).trans a.nodeName b.nodeName c.nodeName
    simp only [compareExtendedCatalogKeys] at hab hbc ⊢
    split_ifs at hab hbc ⊢ <;> omega

theorem compareExtendedCatalogKeys_zero {a b : CatalogKey} :
    compareExtendedCatalogKeys table a b = 0 ↔ SameKey table a b := by
  rw [compareExtendedCatalogKeys, SameKey, ← length_eq_zero_iff, ← length_eq_zero_iff]
  split_ifs with hgt hlt hempty
  · exact iff_of_false (by decide) fun h => by omega
  · exact iff_of_false (by decide) fun h => by omega
  · rw [sub_eq_zero, Nat.cast_inj]
    refine ⟨fun hlen => ?_, fun h => by omega⟩
    have ha := length_eq_zero_iff.1 (show a.nodeName.length = 0 by omega)
    have hb := length_eq_zero_iff.1 (show b.nodeName.length = 0 by omega)
    exact ⟨by omega, by omega, by rw [ha, hb]⟩
  · rw [fastUnicodeCompare_zero]
    exact ⟨fun h => ⟨by omega, by omega, h⟩, fun h => h.2.2⟩

theorem readCatalogKey_eq {m : Node} {a : Nat} (hm : bytesAt m a record.length = record)
    (hwhole : WholeKey record) :
    readCatalogKey m a = keyOf record := by
  have hpart : ∀ {off n}, off + n ≤ record.length →
      bytesAt m (a + off) n = bytesAt (record.getD · 0) (0 + off) n := by
    intro off n hle
    apply bytesAt_congr
    intro c hc
    have hget : record[off + c]? = some (m (a + (off + c))) := by
      rw [← hm, getElem?_eq_getElem (by rw [bytesAt_length]; omega), bytesAt_getElem]
    simp [hget, add_assoc]
  simp only [WholeKey, keyOf, readCatalogKey, length_map, length_range] at hwhole ⊢
  rw [load16, hpart (by omega), hpart (by omega)]
  congr 1
  apply map_congr_left
  intro i hi
  rw [mem_range, ← load16] at hi
  rw [load16, hpart (by omega), load16]

section LeafOk

variable {m : Node} (h : LeafOk table t m)
include h

theorem LeafOk.reads {i : Nat} (hi : i < (records t m).length) :
    trialKey t readCatalogKey m i = keyOf (records t m)[i] := by
  refine readCatalogKey_eq ?_ (h.whole _ (getElem_mem hi))
  have hoffset := h.well.holds.recordOffset_eq hi.le
  rw [h.well.holds.load_offset hi.le, records_getElem, bytesAt_length, hoffset, Int.toNat_natCast]

theorem LeafOk.answers (searchKey : CatalogKey) : Answers t readCatalogKey
    (compareExtendedCatalogKeys table) m searchKey (searchLeaf table t m searchKey) := by
  have hsorted : Sorted t readCatalogKey (compareExtendedCatalogKeys table) m := by
    intro j hj i hij
    rw [← records_length (t := t)] at hj
    rw [h.reads hj, h.reads (hij.trans hj)]
    exact (pairwise_iff_getElem.1 h.increasing i j _ hj hij).le
  exact searchLoop_answers compareExtendedCatalogKeys_order hsorted _ Narrowed.whole (by omega)

theorem LeafOk.finds (searchKey : CatalogKey) :
    Finds table t m searchKey (searchLeaf table t m searchKey) := by
  have hanswers := h.answers searchKey
  generalize searchLeaf table t m searchKey = result at hanswers ⊢
  obtain ⟨_ | _, index⟩ := result
  · obtain ⟨i, -, -, hbefore, hafter⟩ := hanswers
    intro r hr
    obtain ⟨j, hj, rfl⟩ := getElem_of_mem hr
    rw [← compareExtendedCatalogKeys_zero, ← h.reads]
    rcases lt_or_ge j i with hlt | hge
    · exact (hbefore j hlt).ne'
    · exact (hafter j (records_length (t := t) ▸ hj) hge).ne
  · obtain ⟨i, hi, rfl, heq⟩ := hanswers
    rw [← records_length (t := t)] at hi
    rw [h.reads hi, compareExtendedCatalogKeys_zero] at heq
    exact ⟨_, getElem?_eq_getElem hi, heq⟩

theorem LeafOk.insertIdx {index : Nat}
    (hsearch : searchLeaf table t m (keyOf record) = (false, (index : Int))) :
    Increasing table ((records t m).insertIdx index record) := by
  have hanswers := h.answers (keyOf record)
  rw [hsearch] at hanswers
  obtain ⟨i, hi, heq, hbefore, hafter⟩ := hanswers
  obtain rfl : index = i := by omega
  rw [← records_length (t := t)] at hi hafter
  have hins := insertIdx_append_length ((records t m).take index) ((records t m).drop index) record
  rw [length_take, min_eq_left hi, take_append_drop] at hins
  have hold := h.increasing
  rw [Increasing, ← take_append_drop index (records t m), pairwise_append] at hold
  obtain ⟨htake, hdrop, hcross⟩ := hold
  rw [hins, Increasing, pairwise_append, pairwise_cons]
  refine ⟨htake, ⟨fun b hb => ?_, hdrop⟩, fun a ha => forall_mem_cons.2 ⟨?_, hcross a ha⟩⟩
  · obtain ⟨j, hj, rfl⟩ := mem_drop_iff_getElem.1 hb
    rw [← h.reads]
    exact hafter _ (by omega) (by omega)
  · obtain ⟨j, hj, rfl⟩ := mem_take_iff_getElem.1 ha
    rw [← h.reads]
    exact (compareExtendedCatalogKeys_order.swap _ _).1 (hbefore j (by omega))

theorem LeafOk.step {m' : Node} (hstep : (leafSystem table t).step m m') : LeafOk table t m' := by
  obtain ⟨op, hvalid, hsearched, rfl⟩ := hstep
  have hacts := acts_of_valid h.well hvalid
  by_cases hfull : op.Full t m
  · rwa [hacts.unchanged hfull]
  have hinsert {index record} (hop : op.inserted t = some (index, record))
      (hlist : op.onList t (records t m) = (records t m).insertIdx index record) :
      LeafOk table t (op.run t m).2 := by
    obtain ⟨hwhole, hsearch⟩ := hsearched _ _ hop
    refine ⟨hacts.wellFormed, fun r hr => ?_, ?_⟩
    · rw [hacts.records hfull, hlist] at hr
      obtain rfl | hr := eq_or_mem_of_mem_insertIdx hr
      · exact hwhole
      · exact h.whole r hr
    · rw [hacts.records hfull, hlist]
      exact h.insertIdx hsearch
  cases op with
  | insert | insertKey => exact hinsert rfl rfl
  | delete index =>
    have hsub := eraseIdx_sublist (records t m) index
    rw [← show _ = (records t m).eraseIdx index from hacts.records hfull] at hsub
    exact ⟨hacts.wellFormed, fun r hr => h.whole r (hsub.mem hr), h.increasing.sublist hsub⟩

end LeafOk

/-- In every run the keys of a leaf increase, and the search finds those that there are. -/
theorem leaf_searched (table : Nat → UInt16) (t : BTree) : (leafSystem table t).Always fun m =>
    Increasing table (records t m) ∧
      ∀ searchKey, Finds table t m searchKey (searchLeaf table t m searchKey) := by
  have hok : (leafSystem table t).Always (LeafOk table t) := by
    apply System.always_of_step
    · rintro m ⟨well, hcount⟩
      have hnil : records t m = [] := length_eq_zero_iff.1 (records_length.trans hcount)
      exact ⟨well, by simp [hnil], by rw [hnil]; exact .nil⟩
    · exact fun m m' h hstep => h.step hstep
  exact fun m hm => ⟨(hok m hm).increasing, (hok m hm).finds⟩

end XnuXzs.Hfs
