import XnuXzs.DeviceTree.Decode
import XnuXzs.DeviceTree.Adt

/-!
# Reading what was written

On the bytes of a property or of a tree the steps go from one item to the next, and the searches
find the first item that was asked for.
-/

namespace XnuXzs.DeviceTree

open Lib List

variable {r : Region} {p : Nat} {α : Type} {enc : α → List UInt8} {xs : List α} {s : List UInt8}

structure Holds (r : Region) (p : Nat) (bytes : List UInt8) : Prop where
  lo : r.start ≤ p
  hi : p + bytes.length ≤ r.stop
  eq : bytesAt r.mem p bytes.length = bytes

theorem holds_append {xs ys : List UInt8} (h : Holds r p (xs ++ ys)) :
    Holds r p xs ∧ Holds r (p + xs.length) ys := by
  obtain ⟨lo, hi, eq⟩ := h
  rw [length_append] at hi eq
  rw [bytesAt_append] at eq
  obtain ⟨hxs, hys⟩ := append_inj eq (bytesAt_length ..)
  exact ⟨⟨lo, by omega, hxs⟩, ⟨by omega, by omega, hys⟩⟩

theorem Holds.byte {b : UInt8} {bytes : List UInt8} (h : Holds r p (b :: bytes)) :
    r.byte p = .ok b := by
  have hlen : (b :: bytes).length = 1 + bytes.length := add_comm _ _
  have hi := h.hi
  have eq := h.eq
  rw [hlen] at hi eq
  rw [bytesAt_append] at eq
  have hb : r.mem p = b := (List.cons.inj eq).1
  rw [Region.byte, if_pos ⟨h.lo, by omega⟩, hb]

theorem Holds.word {v : Nat} (h : Holds r p (leBytes 4 v)) (hv : v < 2 ^ 32) :
    r.word p = .ok v := by
  have hi := h.hi
  have eq := h.eq
  rw [leBytes_length] at hi eq
  have hword := u32At_eq (by rw [toNat_ofNat32 hv, eq])
  rw [Region.word, if_pos ⟨h.lo, hi⟩, hword, toNat_ofNat32 hv]

theorem strEq_of_holds {cs rest : List UInt8} (h : Holds r p (cs ++ 0 :: rest)) (hcs : 0 ∉ cs)
    (hs : 0 ∉ s) : strEq r p s = .ok (decide (cs = s)) := by
  induction cs generalizing p s with
  | nil =>
    have hb := h.byte
    cases s with
    | nil =>
      rw [strEq, hb]
      rfl
    | cons d s =>
      have hd : ¬ (0 : UInt8) = d := fun h => hs (h ▸ mem_cons_self)
      rw [strEq, hb, ok_bind, if_neg hd, decide_eq_false (cons_ne_nil d s).symm]
  | cons c cs ih =>
    have hb := h.byte
    have hc : ¬ c = 0 := fun h => hcs (h ▸ mem_cons_self)
    cases s with
    | nil =>
      rw [strEq, hb, decide_eq_false (cons_ne_nil c cs)]
      simp [Except.map, hc]
    | cons d s =>
      rw [strEq, hb, ok_bind]
      by_cases hcd : c = d
      · have htail : Holds r (p + 1) (cs ++ 0 :: rest) := (@holds_append r p [c] _ h).2
        rw [if_pos hcd, ih htail (fun h => hcs (mem_cons_of_mem c h))
          fun h => hs (mem_cons_of_mem d h)]
        simp [hcd]
      · rw [if_neg hcd]
        simp [hcd]

theorem assertIn_ok (hlo : r.start ≤ p) (hhi : p ≤ r.stop) : assertIn r p = .ok () :=
  rejectIf_ok.mpr (by omega)

theorem strCopyPad_length (s : List UInt8) : (strCopyPad s 32).length = 32 := by
  simp only [strCopyPad, length_append, length_replicate, length_take]
  omega

theorem strCopyPad_eq (x : Property) : ∃ rest, strCopyPad x.name 32 = x.name ++ 0 :: rest := by
  have hshort := x.short
  have htake := take_of_length_le hshort
  obtain ⟨k, hk⟩ : ∃ k, 32 - x.name.length = k + 1 := ⟨31 - x.name.length, by omega⟩
  exact ⟨List.replicate k 0, by rw [strCopyPad, htake, hk, replicate_succ]⟩

theorem encodeProp_length {x : Property} (hx : x.value.length ≤ 2 ^ 32 - 4) :
    (encodeProp x).length = propSize + (x.value.length + 3) / 4 * 4 := by
  simp only [encodeProp, length_append, strCopyPad_length, leBytes_length,
    length_replicate, paddedLen_eq hx, propSize]
  omega

structure PropAt (r : Region) (p : Nat) (x : Property) : Prop where
  aligned : p % 4 = 0
  padded : x.value.length ≤ 2 ^ 32 - 4
  holds : Holds r p (encodeProp x)

namespace PropAt

variable {x : Property}

section

variable (h : PropAt r p x)
include h

theorem parts : Holds r p (strCopyPad x.name 32) ∧
    Holds r (p + lengthAt) (leBytes 4 x.value.length) ∧ Holds r (p + propSize) x.value := by
  obtain ⟨hname, hrest⟩ := holds_append h.holds
  obtain ⟨hlen, hrest⟩ := holds_append hrest
  rw [strCopyPad_length] at hlen
  rw [strCopyPad_length, leBytes_length] at hrest
  exact ⟨hname, hlen, (holds_append hrest).1⟩

theorem length : r.word (p + lengthAt) = .ok x.value.length :=
  h.parts.2.1.word x.fits

theorem bounds : r.start ≤ p ∧
    p + (propSize + (x.value.length + 3) / 4 * 4) ≤ r.stop := by
  have hi := h.holds.hi
  rw [encodeProp_length h.padded] at hi
  exact ⟨h.holds.lo, hi⟩

/-- The end is aligned, so rounding the address up does not carry it over the top. -/
theorem no_overflow : p + x.value.length + (propSize + 3) < 2 ^ 64 := by
  have htop := r.top
  obtain ⟨-, hi⟩ := h.bounds
  have haligned := h.aligned
  simp only [propSize] at hi ⊢
  omega

theorem assertProp : assertProp r p = .ok () := by
  obtain ⟨hlo, hhi⟩ := h.bounds
  have hover := h.no_overflow
  have hfirst : assertIn r p = .ok () := assertIn_ok hlo (by omega)
  have hheader : assertIn r (p + propSize) = .ok () := assertIn_ok (by omega) (by omega)
  have hend : assertIn r (p + propSize + x.value.length) = .ok () :=
    assertIn_ok (by omega) (by omega)
  have hsum : rejectIf Fault.panics (2 ^ 64 ≤ p + propSize + x.value.length) = .ok () :=
    rejectIf_ok.mpr (by omega)
  rw [DeviceTree.assertProp, hfirst, ok_bind, hheader, ok_bind, h.length, ok_bind, hsum, ok_bind,
    hend]

theorem nextProp : nextProp r p = .ok (p + (encodeProp x).length) := by
  obtain ⟨hlo, hhi⟩ := h.bounds
  have hover := h.no_overflow
  have haligned := h.aligned
  have hheader : assertIn r (p + propSize) = .ok () := assertIn_ok (by omega) (by omega)
  have hsum : rejectIf Fault.panics (2 ^ 64 ≤ p + x.value.length + (propSize + 3)) = .ok () :=
    rejectIf_ok.mpr (by omega)
  have hround : (p + x.value.length + (propSize + 3)) / 4 * 4 = p + (encodeProp x).length := by
    rw [encodeProp_length h.padded]
    simp only [propSize]
    omega
  rw [DeviceTree.nextProp, hheader, ok_bind, h.length, ok_bind, hsum, ok_bind, hround]
  rfl

theorem name (hs : 0 ∉ s) : strEq r p s = .ok (decide (x.name = s)) := by
  obtain ⟨rest, hrest⟩ := strCopyPad_eq x
  have hname := h.parts.1
  rw [hrest] at hname
  exact strEq_of_holds hname x.nulFree hs

end

end PropAt

/-- The items with their addresses, where they stand one behind the other. -/
def placed (enc : α → List UInt8) : Nat → List α → List (Nat × α)
  | _, [] => []
  | p, x :: xs => (p, x) :: placed enc (p + (enc x).length) xs

theorem holds_placed (hlen : ∀ x ∈ xs, (enc x).length % 4 = 0) (hp : p % 4 = 0)
    (h : Holds r p (xs.flatMap enc)) :
    ∀ y ∈ placed enc p xs, y.1 % 4 = 0 ∧ Holds r y.1 (enc y.2) := by
  induction xs generalizing p with
  | nil =>
    intro y hy
    cases hy
  | cons x xs ih =>
    rw [flatMap_cons] at h
    obtain ⟨hx, hxs⟩ := holds_append h
    have hx4 := hlen x mem_cons_self
    intro y hy
    rw [placed, mem_cons] at hy
    obtain rfl | hy := hy
    · exact ⟨hp, hx⟩
    · exact ih (fun z hz => hlen z (mem_cons_of_mem x hz)) (by omega) hxs y hy

theorem mem_placed {y : Nat × α} (hy : y ∈ placed enc p xs) : y.2 ∈ xs := by
  induction xs generalizing p with
  | nil => cases hy
  | cons x xs ih =>
    rw [placed, mem_cons] at hy
    obtain rfl | hy := hy
    · exact mem_cons_self
    · exact mem_cons_of_mem x (ih hy)

/-- A step that goes over each item goes over all of them. -/
theorem times_placed {step : Nat → Except Fault Nat}
    (h : ∀ y ∈ placed enc p xs, step y.1 = .ok (y.1 + (enc y.2).length)) :
    times step xs.length p = .ok (p + (xs.flatMap enc).length) := by
  induction xs generalizing p with
  | nil => rfl
  | cons x xs ih =>
    have hx := h (p, x) mem_cons_self
    have hxs := ih fun y hy => h y (mem_cons_of_mem (p, x) hy)
    rw [length_cons, times, hx, ok_bind, hxs, flatMap_cons, length_append, add_assoc]

end XnuXzs.DeviceTree
