import XnuXzs.Hfs.SearchNode

/-!
# The order of names

`FastUnicodeCompare` compares names without regard to case. The table is a parameter: for each
high byte zero or the start of a subtable, then the subtables.
-/

namespace XnuXzs.Hfs

def latinCaseFold (c : UInt16) : UInt16 :=
  if c = 0 then 0xFFFF
  else if 0x41 ≤ c ∧ c ≤ 0x5A ∨ c = 0xC6 ∨ c = 0xD0 ∨ c = 0xD8 ∨ c = 0xDE then c + 0x20
  else c

variable (table : Nat → UInt16) {c : UInt16} {o : Ordering}

def lowerCase (c : UInt16) : UInt16 :=
  let temp := table (c >>> 8).toNat
  if temp ≠ 0 then table (temp.toNat + (c &&& 0xFF).toNat) else c

/-- The next character that is not ignorable and what follows it; zero at the end. A Latin
character ends the search even if it maps to zero. -/
def nextValidChar : List UInt16 → UInt16 × List UInt16
  | [] => (0, [])
  | c :: str =>
    if c < 0x100 then (latinCaseFold c, str)
    else if lowerCase table c = 0 then nextValidChar str
    else (lowerCase table c, str)

def compareLoop : Nat → List UInt16 → List UInt16 → Int
  | 0, _, _ => 0
  | fuel + 1, str1, str2 =>
    let (c1, str1) := nextValidChar table str1
    let (c2, str2) := nextValidChar table str2
    if c1 ≠ c2 then if c1 < c2 then -1 else 1
    else if c1 = 0 then 0
    else compareLoop fuel str1 str2

def fastUnicodeCompare (str1 str2 : List UInt16) : Int :=
  compareLoop table (str1.length + 1) str1 str2

def caseFold (c : UInt16) : UInt16 :=
  if c < 0x100 then latinCaseFold c else lowerCase table c

/-- The characters that count. -/
def folded (str : List UInt16) : List UInt16 := (str.map (caseFold table)).filter (· ≠ 0)

def sign : Ordering → Int
  | .lt => -1
  | .eq => 0
  | .gt => 1

theorem latinCaseFold_ne_zero (hc : c < 0x100) : latinCaseFold c ≠ 0 := by
  unfold latinCaseFold
  split_ifs with hzero hupper
  · decide
  · rw [UInt16.lt_iff_toNat_lt] at hc
    rw [Ne, ← UInt16.toNat_inj, UInt16.toNat_add]
    simp at hc ⊢
    omega
  · exact hzero

theorem nextValidChar_spec {str rest : List UInt16} (h : nextValidChar table str = (c, rest)) :
    c = 0 ∧ folded table str = [] ∨
    c ≠ 0 ∧ folded table str = c :: folded table rest := by
  induction str with
  | nil =>
    cases h
    exact .inl ⟨rfl, rfl⟩
  | cons d str ih =>
    rw [nextValidChar] at h
    rw [folded, List.map_cons, caseFold]
    split_ifs at h ⊢ with hlatin hzero
    · cases h
      have hne := latinCaseFold_ne_zero hlatin
      exact .inr ⟨hne, List.filter_cons_of_pos (by simpa)⟩
    · rw [List.filter_cons_of_neg (by simpa)]
      exact ih h
    · cases h
      exact .inr ⟨hzero, List.filter_cons_of_pos (by simpa)⟩

theorem compareLoop_eq (fuel : Nat) (str1 str2 : List UInt16)
    (hfuel : (folded table str1).length < fuel) :
    compareLoop table fuel str1 str2 = sign (compare (folded table str1) (folded table str2)) := by
  induction fuel generalizing str1 str2 with
  | zero => omega
  | succ fuel ih =>
    rw [compareLoop]
    rcases hnext1 : nextValidChar table str1 with ⟨c1, rest1⟩
    rcases hnext2 : nextValidChar table str2 with ⟨c2, rest2⟩
    dsimp only
    obtain ⟨rfl, h1⟩ | ⟨hc1, h1⟩ := nextValidChar_spec table hnext1 <;>
      obtain ⟨rfl, h2⟩ | ⟨hc2, h2⟩ := nextValidChar_spec table hnext2 <;>
      rw [h1, h2]
    · rfl
    · rw [if_pos hc2.symm, if_pos (UInt16.pos_iff_ne_zero.2 hc2)]
      rfl
    · rw [if_pos hc1, if_neg (UInt16.not_lt.2 UInt16.zero_le)]
      rfl
    · rw [h1, List.length_cons] at hfuel
      rw [List.compare_cons_cons, ih rest1 rest2 (by omega)]
      obtain rfl | hne := eq_or_ne c1 c2
      · rw [if_neg (by simp), if_neg hc1, Std.ReflOrd.compare_self]
        rfl
      · rw [if_pos hne]
        split_ifs with hlt
        · rw [Std.compare_eq_lt.2 hlt]
          rfl
        · rw [Std.compare_eq_gt.2 (UInt16.lt_of_le_of_ne (UInt16.not_lt.1 hlt) hne.symm)]
          rfl

theorem fastUnicodeCompare_eq (str1 str2 : List UInt16) :
    fastUnicodeCompare table str1 str2 =
      sign (compare (folded table str1) (folded table str2)) := by
  apply compareLoop_eq
  have := List.length_filter_le (· ≠ 0) (str1.map (caseFold table))
  rw [List.length_map] at this
  exact Nat.lt_succ_of_le this

theorem sign_pos : 0 < sign o ↔ o = .gt := by cases o <;> decide
theorem sign_neg : sign o < 0 ↔ o = .lt := by cases o <;> decide
theorem sign_le : sign o ≤ 0 ↔ o.isLE := by cases o <;> decide

theorem fastUnicodeCompare_keyOrder : KeyOrder (fastUnicodeCompare table) := by
  refine ⟨fun a b => ?_, fun {a b c} hab hbc => ?_⟩
  · rw [fastUnicodeCompare_eq, fastUnicodeCompare_eq, sign_pos, sign_neg]
    exact Std.OrientedCmp.gt_iff_lt
  · rw [fastUnicodeCompare_eq, sign_le] at hab hbc ⊢
    exact Std.TransOrd.isLE_trans hab hbc

theorem fastUnicodeCompare_order :
    (∀ str1 str2, fastUnicodeCompare table str1 str2 =
      sign (compare (folded table str1) (folded table str2))) ∧
    KeyOrder (fastUnicodeCompare table) :=
  ⟨fastUnicodeCompare_eq table, fastUnicodeCompare_keyOrder table⟩

end XnuXzs.Hfs
