import Mathlib.Tactic

/-!
# Extents laid over one another

An extent sends an interval of addresses to consecutive positions. A list of extents is a
partial map; laying a new one over it replaces the map on the new interval only.
-/

namespace XnuXzs.Lib

open List Option

structure Extent (P : Type) where
  start : Int
  len : Int
  pos : P

variable {P : Type}

def Extent.stop (e : Extent P) : Int := e.start + e.len

variable (shift : P → Int → P) {s : Int}

def Extent.at (e : Extent P) (x : Int) : Option P :=
  if e.start ≤ x ∧ x < e.stop then some (shift e.pos (x - e.start)) else none

def extentsAt (l : List (Extent P)) (x : Int) : Option P := l.findSome? (Extent.at shift · x)

def Extent.below (s : Int) (e : Extent P) : List (Extent P) :=
  if e.stop ≤ s then [e]
  else if e.start < s then [⟨e.start, s - e.start, e.pos⟩]
  else []

def Extent.above (s : Int) (e : Extent P) : List (Extent P) :=
  if s ≤ e.start then [e]
  else if s < e.stop then [⟨s, e.stop - s, shift e.pos (s - e.start)⟩]
  else []

variable {e : Extent P}

theorem Extent.below_whole (h : e.stop ≤ s) : e.below s = [e] :=
  if_pos h

theorem Extent.below_part (h : e.start < s) (h' : s < e.stop) :
    e.below s = [⟨e.start, s - e.start, e.pos⟩] := by
  rw [Extent.below, if_neg (not_le.mpr h'), if_pos h]

theorem Extent.below_none (h : s ≤ e.start) (pos : 0 < e.len) : e.below s = [] := by
  rw [Extent.below, if_neg (by simp only [Extent.stop]; omega), if_neg (not_lt.mpr h)]

theorem Extent.above_whole (h : s ≤ e.start) : e.above shift s = [e] :=
  if_pos h

theorem Extent.above_part (h : e.start < s) (h' : s < e.stop) :
    e.above shift s = [⟨s, e.stop - s, shift e.pos (s - e.start)⟩] := by
  rw [Extent.above, if_neg (not_le.mpr h), if_pos h']

theorem Extent.above_none (h : e.start < s) (h' : e.stop ≤ s) : e.above shift s = [] := by
  rw [Extent.above, if_neg (not_le.mpr h), if_neg (not_lt.mpr h')]

def overlay (l : List (Extent P)) (n : Extent P) : List (Extent P) :=
  l.flatMap (Extent.below n.start) ++ n :: l.flatMap (Extent.above shift n.stop)

def Ordered (l : List (Extent P)) : Prop := l.Pairwise fun a b => a.stop ≤ b.start

variable {shift : P → Int → P} {x : Int} {l : List (Extent P)} {f : Extent P → List (Extent P)}
  {p : P}

theorem extentsAt_nil (x : Int) : extentsAt shift ([] : List (Extent P)) x = none := rfl

theorem extentsAt_append (a b : List (Extent P)) (x : Int) :
    extentsAt shift (a ++ b) x = (extentsAt shift a x).or (extentsAt shift b x) :=
  findSome?_append

theorem extentsAt_single (e : Extent P) (x : Int) : extentsAt shift [e] x = e.at shift x := by
  simp [extentsAt]

theorem extentsAt_cons (e : Extent P) (l : List (Extent P)) (x : Int) :
    extentsAt shift (e :: l) x = (e.at shift x).or (extentsAt shift l x) := by
  rw [← extentsAt_single, ← extentsAt_append, singleton_append]

theorem Extent.at_inside (h : e.start ≤ x) (h' : x < e.stop) :
    e.at shift x = some (shift e.pos (x - e.start)) :=
  if_pos ⟨h, h'⟩

theorem Extent.at_outside (h : x < e.start ∨ e.stop ≤ x) : e.at shift x = none :=
  if_neg (by omega)

theorem below_at (s x : Int) (e : Extent P) :
    extentsAt shift (e.below s) x = if x < s then e.at shift x else none := by
  unfold Extent.below
  split_ifs with whole early part early' early''
  · exact extentsAt_single e x
  · rw [extentsAt_single, Extent.at_outside (by omega)]
  · rw [extentsAt_single]
    by_cases h : e.start ≤ x
    · rw [Extent.at_inside (e := ⟨e.start, s - e.start, e.pos⟩) h
        (by simp only [Extent.stop]; omega), Extent.at_inside h (by omega)]
    · rw [Extent.at_outside (by dsimp only; omega), Extent.at_outside (by omega)]
  · rw [extentsAt_single, Extent.at_outside (by simp only [Extent.stop]; omega)]
  · rw [extentsAt_nil, Extent.at_outside (by omega)]
  · rfl

/-- Positions further on, taken in two steps or in one. -/
def Additive (shift : P → Int → P) : Prop :=
  ∀ p a b, 0 ≤ a → 0 ≤ b → shift (shift p a) b = shift p (a + b)

theorem above_at (add : Additive shift) (s x : Int) (e : Extent P) :
    extentsAt shift (e.above shift s) x = if s ≤ x then e.at shift x else none := by
  unfold Extent.above
  split_ifs with whole late part late' late''
  · exact extentsAt_single e x
  · rw [extentsAt_single, Extent.at_outside (by omega)]
  · rw [extentsAt_single]
    by_cases h : x < e.stop
    · rw [Extent.at_inside late' (by simp only [Extent.stop] at *; omega),
        Extent.at_inside (by omega) h, add _ _ _ (by omega) (by dsimp only; omega)]
      congr 2
      dsimp only
      omega
    · rw [Extent.at_outside (by simp only [Extent.stop] at *; omega), Extent.at_outside (by omega)]
  · rw [extentsAt_single, Extent.at_outside (by dsimp only; omega)]
  · rw [extentsAt_nil, Extent.at_outside (by omega)]
  · rfl

theorem extentsAt_flatMap {c : Prop} [Decidable c]
    (h : ∀ e, extentsAt shift (f e) x = if c then e.at shift x else none) (l : List (Extent P)) :
    extentsAt shift (l.flatMap f) x = if c then extentsAt shift l x else none := by
  induction l with
  | nil => simp [extentsAt_nil]
  | cons e l ih =>
    rw [flatMap_cons, extentsAt_append, h, ih, extentsAt_cons]
    split_ifs <;> rfl

/-- The new extent decides on its interval, the old ones elsewhere. -/
theorem overlay_at (add : Additive shift) (l : List (Extent P)) (n : Extent P) (x : Int) :
    extentsAt shift (overlay shift l n) x = (n.at shift x).or (extentsAt shift l x) := by
  rw [overlay, extentsAt_append, extentsAt_cons, extentsAt_flatMap (below_at n.start x),
    extentsAt_flatMap (above_at add n.stop x)]
  split
  · rename_i before
    rw [Extent.at_outside (.inl before), none_or, none_or]
    split_ifs
    · exact or_self
    · exact or_none
  rw [none_or]
  by_cases after : n.stop ≤ x
  · rw [if_pos after]
  · rw [if_neg after, Extent.at_inside (by omega) (by omega)]
    rfl

/-- After any number of overlays the last one that covers an address decides. -/
theorem overlays_at (add : Additive shift) (ns l : List (Extent P)) (x : Int) :
    extentsAt shift (ns.foldl (overlay shift) l) x =
      (extentsAt shift ns.reverse x).or (extentsAt shift l x) := by
  induction ns generalizing l with
  | nil => rfl
  | cons n ns ih =>
    rw [foldl_cons, ih, overlay_at add, reverse_cons, extentsAt_append,
      extentsAt_single, Option.or_assoc]

theorem mem_below {x : Extent P} (h : x ∈ e.below s) (pos : 0 < e.len) :
    e.start ≤ x.start ∧ x.stop ≤ e.stop ∧ x.stop ≤ s ∧ 0 < x.len := by
  unfold Extent.below at h
  split_ifs at h with whole part
  · cases mem_singleton.mp h
    exact ⟨le_rfl, le_rfl, whole, pos⟩
  · cases mem_singleton.mp h
    simp only [Extent.stop] at whole ⊢
    omega
  · cases h

theorem mem_above {x : Extent P} (h : x ∈ e.above shift s) (pos : 0 < e.len) :
    e.start ≤ x.start ∧ x.stop = e.stop ∧ s ≤ x.start ∧ 0 < x.len := by
  unfold Extent.above at h
  split_ifs at h with whole part
  · cases mem_singleton.mp h
    exact ⟨le_rfl, rfl, whole, pos⟩
  · cases mem_singleton.mp h
    simp only [Extent.stop] at part ⊢
    omega
  · cases h

theorem Extent.at_eq_some :
    e.at shift x = some p ↔ e.start ≤ x ∧ x < e.stop ∧ shift e.pos (x - e.start) = p := by
  unfold Extent.at
  split_ifs with h
  · simp [h]
  constructor
  · exact nofun
  · rintro ⟨h₁, h₂, _⟩
    exact absurd ⟨h₁, h₂⟩ h

theorem Ordered.extentsAt_iff (h : Ordered l) :
    extentsAt shift l x = some p ↔ ∃ e ∈ l, e.at shift x = some p := by
  induction l with
  | nil => simp [extentsAt_nil]
  | cons e l ih =>
    obtain ⟨later, h'⟩ := pairwise_cons.mp h
    rw [extentsAt_cons]
    constructor
    · intro found
      cases hat : e.at shift x with
      | some q =>
        rw [hat] at found
        exact ⟨e, mem_cons_self .., hat.trans found⟩
      | none =>
        rw [hat, none_or] at found
        obtain ⟨a, ha, hx⟩ := (ih h').mp found
        exact ⟨a, mem_cons_of_mem _ ha, hx⟩
    · rintro ⟨a, ha, hx⟩
      cases mem_cons.mp ha with
      | inl same => rw [← same, hx, some_or]
      | inr behind =>
        have := later a behind
        have inside := Extent.at_eq_some.mp hx
        rw [Extent.at_outside (.inr (by omega)), none_or]
        exact (ih h').mpr ⟨a, behind, hx⟩

theorem ordered_flatMap (h : Ordered l)
    (piece : ∀ e ∈ l, ∀ x ∈ f e, e.start ≤ x.start ∧ x.stop ≤ e.stop)
    (single : ∀ e, (f e).length ≤ 1) : Ordered (l.flatMap f) := by
  refine pairwise_flatMap.mpr ⟨fun e _ => ?_, ?_⟩
  · cases hf : f e with
    | nil => exact .nil
    | cons x rest =>
      have := single e
      rw [hf, length_cons] at this
      rw [length_eq_zero_iff.mp (by omega : rest.length = 0)]
      exact pairwise_singleton _ _
  · refine List.Pairwise.imp_of_mem ?_ h
    intro a b ha hb hab x hx y hy
    have := (piece a ha x hx).2
    have := (piece b hb y hy).1
    omega

theorem overlay_ordered {n : Extent P} (h : Ordered l) (pos : ∀ e ∈ l, 0 < e.len) (hn : 0 < n.len) :
    Ordered (overlay shift l n) := by
  have lower : Ordered (l.flatMap (Extent.below n.start)) := by
    apply ordered_flatMap h
    · intro e he x hx
      have := mem_below hx (pos e he)
      exact ⟨this.1, this.2.1⟩
    · intro e
      unfold Extent.below
      split_ifs <;> simp
  have upper : Ordered (l.flatMap (Extent.above shift n.stop)) := by
    apply ordered_flatMap h
    · intro e he x hx
      have := mem_above hx (pos e he)
      exact ⟨this.1, this.2.1.le⟩
    · intro e
      unfold Extent.above
      split_ifs <;> simp
  have under {x : Extent P} (hx : x ∈ l.flatMap (Extent.below n.start)) : x.stop ≤ n.start := by
    obtain ⟨e, he, hx⟩ := mem_flatMap.mp hx
    exact (mem_below hx (pos e he)).2.2.1
  have past {x : Extent P} (hx : x ∈ l.flatMap (Extent.above shift n.stop)) : n.stop ≤ x.start := by
    obtain ⟨e, he, hx⟩ := mem_flatMap.mp hx
    exact (mem_above hx (pos e he)).2.2.1
  refine pairwise_append.mpr ⟨lower, pairwise_cons.mpr ⟨fun x hx => past hx, upper⟩, ?_⟩
  intro x hx y hy
  cases mem_cons.mp hy with
  | inl same => rw [same]; exact under hx
  | inr later =>
    have := under hx
    have := past later
    simp only [Extent.stop] at *
    omega

end XnuXzs.Lib
