import Mathlib.Tactic

/-! Bytes in memory, little-endian numbers, and segments of a list. `bytesAt` is what stands at
an address, `leBytes k` writes a field, and `SegmentAt` says where a part lies in the whole. -/
namespace XnuXzs.Lib

open List

def bytesAt (m : Nat → UInt8) (off n : Nat) : List UInt8 := (List.range n).map fun c => m (off + c)

/-- The `k` low bytes of a number, least significant first. -/
def leBytes : Nat → Nat → List UInt8
  | 0, _ => []
  | k + 1, v => UInt8.ofNat v :: leBytes k (v / 256)

def leValue : List UInt8 → Nat
  | [] => 0
  | b :: bs => b.toNat + 256 * leValue bs

/-- The unsigned fields at an address. -/
def u16At (m : Nat → UInt8) (p : Nat) : UInt16 := UInt16.ofNat (leValue (bytesAt m p 2))
def u32At (m : Nat → UInt8) (p : Nat) : UInt32 := UInt32.ofNat (leValue (bytesAt m p 4))
def u64At (m : Nat → UInt8) (p : Nat) : UInt64 := UInt64.ofNat (leValue (bytesAt m p 8))

theorem bytesAt_length (m : Nat → UInt8) (off n : Nat) : (bytesAt m off n).length = n := by
  simp [bytesAt]

variable {m : Nat → UInt8} {off n p k : Nat}

theorem bytesAt_congr {m' : Nat → UInt8} {off' : Nat} (h : ∀ c < n, m (off + c) = m' (off' + c)) :
    bytesAt m off n = bytesAt m' off' n := by
  apply map_congr_left
  intro c hc
  exact h c (mem_range.mp hc)

theorem bytesAt_getElem {i : Nat} (h : i < (bytesAt m off n).length) :
    (bytesAt m off n)[i] = m (off + i) := by
  simp [bytesAt]

theorem bytesAt_append (m : Nat → UInt8) (off a b : Nat) :
    bytesAt m off (a + b) = bytesAt m off a ++ bytesAt m (off + a) b := by
  simp [bytesAt, range_add, add_assoc]

theorem bytesAt_eq_of_getElem {bs : List UInt8}
    (h : ∀ i (hi : i < bs.length), m (off + i) = bs[i]) :
    bytesAt m off bs.length = bs := by
  apply ext_getElem (bytesAt_length ..)
  intro i h1 h2
  rw [bytesAt_getElem, h i h2]

theorem leBytes_length (k v : Nat) : (leBytes k v).length = k := by
  induction k generalizing v with
  | zero => rfl
  | succ k ih => simp [leBytes, ih]

theorem leValue_leBytes (k v : Nat) : leValue (leBytes k v) = v % 256 ^ k := by
  induction k generalizing v with
  | zero => simp [leBytes, leValue, Nat.mod_one]
  | succ k ih =>
    have hlow : (UInt8.ofNat v).toNat = v % 256 := UInt8.toNat_ofNat'
    rw [leBytes, leValue, ih, hlow, Nat.pow_succ', Nat.mod_mul]

theorem bytesAt_field {v : Nat} {rest : List UInt8} (h : bytesAt m p n = leBytes k v ++ rest)
    (hk : k ≤ n := by decide) :
    bytesAt m p k = leBytes k v ∧ bytesAt m (p + k) (n - k) = rest := by
  rw [← Nat.add_sub_of_le hk, bytesAt_append] at h
  have hlen : (bytesAt m p k).length = (leBytes k v).length := by
    rw [bytesAt_length, leBytes_length]
  exact append_inj h hlen

theorem u32At_eq {x : UInt32} (h : bytesAt m p 4 = leBytes 4 x.toNat) : u32At m p = x := by
  have hlt : x.toNat < 256 ^ 4 := x.toNat_lt
  rw [u32At, h, leValue_leBytes, Nat.mod_eq_of_lt hlt, UInt32.ofNat_toNat]

theorem u64At_eq {x : UInt64} (h : bytesAt m p 8 = leBytes 8 x.toNat) : u64At m p = x := by
  have hlt : x.toNat < 256 ^ 8 := x.toNat_lt
  rw [u64At, h, leValue_leBytes, Nat.mod_eq_of_lt hlt, UInt64.ofNat_toNat]

theorem toNat_ofNat32 (h : n < 2 ^ 32) : (UInt32.ofNat n).toNat = n :=
  UInt32.toNat_ofNat_of_lt' h

theorem toNat_ofNat64 (h : n < 2 ^ 64) : (UInt64.ofNat n).toNat = n :=
  UInt64.toNat_ofNat_of_lt' h

variable {α β : Type} {whole seg : List α}

/-- `seg` is part of `whole`, from index `off` on. -/
def SegmentAt (whole : List α) (off : Nat) (seg : List α) : Prop :=
  ∃ pre post, whole = pre ++ seg ++ post ∧ pre.length = off

theorem segmentAt_append_left (a b : List α) : SegmentAt (a ++ b) 0 a :=
  ⟨[], b, by simp, rfl⟩

theorem segmentAt_append_right (a b : List α) : SegmentAt (a ++ b) a.length b :=
  ⟨a, [], by simp, rfl⟩

theorem SegmentAt.trans {sub : List α} {a b : Nat} (h : SegmentAt whole a seg)
    (h' : SegmentAt seg b sub) : SegmentAt whole (a + b) sub := by
  obtain ⟨pre, post, rfl, rfl⟩ := h
  obtain ⟨pre', post', rfl, rfl⟩ := h'
  exact ⟨pre ++ pre', post' ++ post, by simp, by simp⟩

theorem SegmentAt.length_le (h : SegmentAt whole off seg) :
    off + seg.length ≤ whole.length := by
  obtain ⟨pre, post, rfl, rfl⟩ := h
  simp

theorem SegmentAt.take_drop (h : SegmentAt whole off seg) :
    (whole.drop off).take seg.length = seg := by
  obtain ⟨pre, post, rfl, rfl⟩ := h
  simp

theorem segmentAt_flatMap (f : α → List β) (xs : List α) (hk : k < xs.length) :
    SegmentAt (xs.flatMap f) ((xs.take k).flatMap f).length (f xs[k]) := by
  refine ⟨(xs.take k).flatMap f, (xs.drop (k + 1)).flatMap f, ?_, rfl⟩
  rw [← flatMap_singleton f xs[k], ← flatMap_append, ← flatMap_append,
    append_assoc, singleton_append, getElem_cons_drop, take_append_drop]

theorem flatMap_take_length_le (f : α → List β) (xs : List α) {j : Nat} (hj : j < xs.length)
    (hjk : j < k) : ((xs.take j).flatMap f).length + (f xs[j]).length ≤
      ((xs.take k).flatMap f).length := by
  have hseg := segmentAt_flatMap f (xs.take k) (k := j) (by rw [length_take]; omega)
  have := hseg.length_le
  rwa [getElem_take, take_take, min_eq_left (le_of_lt hjk)] at this

theorem flatMap_length_const {f : α → List β} {c : Nat} (h : ∀ x, (f x).length = c)
    (xs : List α) : (xs.flatMap f).length = c * xs.length := by
  induction xs with
  | nil => rfl
  | cons x xs ih => rw [flatMap_cons, length_append, h, ih, length_cons]; ring

theorem SegmentAt.bytesAt {whole seg : List UInt8} (h : SegmentAt whole off seg)
    (hm : bytesAt m p whole.length = whole) : bytesAt m (p + off) seg.length = seg := by
  obtain ⟨pre, post, rfl, rfl⟩ := h
  rw [length_append, length_append, bytesAt_append, bytesAt_append] at hm
  have hleft := (append_inj hm (by simp [bytesAt_length])).1
  exact (append_inj hleft (by simp [bytesAt_length])).2

end XnuXzs.Lib
