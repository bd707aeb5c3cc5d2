import XnuXzs.Lib.Guard

/-!
# Pointers into a C string

A pointer into a string is what is left of it, the zero at its end included; the empty list may
be held but not read. A scan whose test stops at the zero never reads further.
-/

namespace XnuXzs.Lib

open List

inductive Fault where
  /-- a read behind the end -/
  | overread
  /-- a loop that has not ended -/
  | hang
  deriving DecidableEq, Repr

/-- `*p`. -/
def deref : List UInt8 → Except Fault UInt8
  | [] => .error .overread
  | c :: _ => .ok c

/-- `while (test(*p)) p++`. -/
def skipWhile (test : UInt8 → Bool) : List UInt8 → Except Fault (List UInt8)
  | [] => .error .overread
  | c :: p => if test c then skipWhile test p else .ok (c :: p)

/-- `strncmp(p, q, n) == 0`. -/
def strncmpEq : Nat → List UInt8 → List UInt8 → Except Fault Bool
  | 0, _, _ => .ok true
  | n + 1, p, q => do
    let a ← deref p
    let b ← deref q
    if a ≠ b then .ok false
    else if a = 0 then .ok true
    else strncmpEq n p.tail q.tail

/-- A pointer that may be read, up to the zero. -/
def CStr (p : List UInt8) : Prop := ∃ s, 0 ∉ s ∧ p = s ++ [0]

/-- A computation that ends, without a fault, in a result that meets `Q`. -/
abbrev Safely {α : Type} (x : Except Fault α) (Q : α → Prop) : Prop := Yields (fun _ => False) x Q

variable {p q : List UInt8} {c : UInt8} {test : UInt8 → Bool}

theorem cStr_zero : CStr [0] := ⟨[], not_mem_nil, rfl⟩

theorem CStr.cases (h : CStr p) : p = [0] ∨ ∃ c q, p = c :: q ∧ c ≠ 0 ∧ CStr q := by
  obtain ⟨s, hs, rfl⟩ := h
  cases s with
  | nil => exact .inl rfl
  | cons c s =>
    rw [mem_cons, not_or] at hs
    exact .inr ⟨c, s ++ [0], rfl, Ne.symm hs.1, s, hs.2, rfl⟩

theorem CStr.tail (h : CStr (c :: q)) (hc : c ≠ 0) : CStr q := by
  rcases h.cases with h | ⟨c', q', h, -, hq⟩
  · exact absurd (List.cons.inj h).1 hc
  · obtain ⟨-, rfl⟩ := List.cons.inj h
    exact hq

theorem CStr.deref (h : CStr p) : Safely (deref p) fun c => ∃ q, p = c :: q := by
  rcases h.cases with rfl | ⟨c, q, rfl, -⟩
  · exact ⟨[], rfl⟩
  · exact ⟨q, rfl⟩

/-- A scan that stops at the zero passes what passes the test, up to the first that does not. -/
theorem CStr.skipWhile (h : CStr p) (hstop : test 0 = false) :
    Safely (skipWhile test p) fun q => CStr q ∧ (∃ c t, q = c :: t ∧ test c = false) ∧
      ∃ l, p = l ++ q ∧ ∀ c ∈ l, test c = true := by
  induction p with
  | nil =>
    obtain ⟨s, -, h⟩ := h
    cases s <;> cases h
  | cons c p ih =>
    rw [Lib.skipWhile]
    split_ifs with hc
    · have hne : c ≠ 0 := by
        rintro rfl
        rw [hstop] at hc
        cases hc
      apply (ih (h.tail hne)).mono
      rintro q ⟨hq, hhead, l, rfl, hl⟩
      refine ⟨hq, hhead, c :: l, rfl, ?_⟩
      exact forall_mem_cons.mpr ⟨hc, hl⟩
    · exact ⟨h, ⟨c, p, rfl, Bool.not_eq_true _ ▸ hc⟩, [], rfl, nofun⟩

/-- Two strings of which the first has `n` characters in front: they are equal if the second
begins with these. -/
theorem CStr.strncmpEq {l : List UInt8} (hl : 0 ∉ l) (hq : CStr q) (p : List UInt8) :
    Safely (strncmpEq l.length (l ++ p) q) fun b => b = true ↔ l <+: q := by
  induction l generalizing q with
  | nil => exact iff_of_true rfl nil_prefix
  | cons a l ih =>
    rw [mem_cons, not_or] at hl
    rcases hq.cases with rfl | ⟨b, q, rfl, -, hq⟩
    · change Safely (if a ≠ 0 then _ else _) _
      rw [if_pos (Ne.symm hl.1)]
      refine iff_of_false Bool.false_ne_true fun hpre => hl.1 ?_
      exact (cons_prefix_cons.mp hpre).1.symm
    change Safely (if a ≠ b then _ else if a = 0 then _ else Lib.strncmpEq l.length (l ++ p) q) _
    by_cases hab : a = b
    · rw [if_neg (not_not.mpr hab), if_neg (Ne.symm hl.1)]
      refine (ih hl.2 hq).mono fun r hr => ?_
      rw [hr, hab, cons_prefix_cons, and_iff_right rfl]
    · rw [if_pos hab]
      refine iff_of_false Bool.false_ne_true fun hpre => hab ?_
      exact (cons_prefix_cons.mp hpre).1

end XnuXzs.Lib
