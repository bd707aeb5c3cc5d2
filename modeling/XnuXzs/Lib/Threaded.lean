import Mathlib.Tactic

/-!
# Lists that are threaded late

A list to which elements are appended in two stores: the first makes an element the last, the
second links it to its predecessor. In between that link is null.
-/

namespace XnuXzs.Lib

open List

variable {α : Type} {q : Option α} {e : α}

inductive Link (α : Type) where
  | null
  | to (a : α)
  | other
  deriving DecidableEq

/-- The list `xs` stands behind `p`; there is no link yet to the elements of `un`. -/
def Threaded (f : Option α → Link α) (un : α → Prop) : Option α → List α → Prop
  | p, [] => f p = .null
  | p, y :: ys => (un y ∧ f p = .null ∨ ¬ un y ∧ f p = .to y) ∧ Threaded f un (some y) ys

/-- The elements of a list with their predecessors. -/
def pairs : Option α → List α → List (Option α × α)
  | _, [] => []
  | p, y :: ys => (p, y) :: pairs (some y) ys

/-- The last element, or what is in front of the list. -/
def lastOr (p : Option α) (xs : List α) : Option α := xs.getLast?.or p

theorem lastOr_cons (p : Option α) (x : α) (xs : List α) :
    lastOr p (x :: xs) = lastOr (some x) xs := by
  rw [lastOr, lastOr, getLast?_cons]
  cases xs.getLast? <;> rfl

theorem pairs_append (p : Option α) (xs : List α) (e : α) :
    pairs p (xs ++ [e]) = pairs p xs ++ [(lastOr p xs, e)] := by
  induction xs generalizing p with
  | nil => rfl
  | cons x xs ih => rw [cons_append, pairs, ih, pairs, lastOr_cons, cons_append]

theorem mem_of_pairs {p : Option α} {xs : List α} (h : (q, e) ∈ pairs p xs) :
    e ∈ xs ∧ (q = p ∨ ∃ x ∈ xs, q = some x) := by
  induction xs generalizing p with
  | nil => cases h
  | cons x xs ih =>
    rw [pairs, mem_cons] at h
    obtain h | h := h
    · cases h
      exact ⟨mem_cons_self, .inl rfl⟩
    · obtain ⟨he, hq | ⟨y, hy, rfl⟩⟩ := ih h
      · exact ⟨mem_cons_of_mem x he, .inr ⟨x, mem_cons_self, hq⟩⟩
      · exact ⟨mem_cons_of_mem x he, .inr ⟨y, mem_cons_of_mem x hy, rfl⟩⟩

variable {f f' : Option α → Link α} {un un' : α → Prop} {p : Option α} {xs : List α}

theorem Threaded.congr (h : Threaded f un p xs) (hp : f' p = f p)
    (hf : ∀ x ∈ xs, f' (some x) = f (some x)) (hun : ∀ x ∈ xs, un' x ↔ un x) :
    Threaded f' un' p xs := by
  induction xs generalizing p with
  | nil => exact hp.trans h
  | cons x xs ih =>
    obtain ⟨hx, hxs⟩ := h
    refine ⟨?_, ih hxs (hf x mem_cons_self) (fun y hy => hf y (mem_cons_of_mem x hy))
      fun y hy => hun y (mem_cons_of_mem x hy)⟩
    rw [hp, hun x mem_cons_self]
    exact hx

theorem Threaded.append (h : Threaded f un p xs) (hp : f' p = f p)
    (hf : ∀ x ∈ xs, f' (some x) = f (some x)) (hun : ∀ x ∈ xs, un' x ↔ un x) (he : un' e)
    (hnull : f' (some e) = .null) : Threaded f' un' p (xs ++ [e]) := by
  induction xs generalizing p with
  | nil => exact ⟨.inl ⟨he, hp.trans h⟩, hnull⟩
  | cons x xs ih =>
    obtain ⟨hx, hxs⟩ := h
    refine ⟨?_, ih hxs (hf x mem_cons_self) (fun y hy => hf y (mem_cons_of_mem x hy))
      fun y hy => hun y (mem_cons_of_mem x hy)⟩
    rw [hp, hun x mem_cons_self]
    exact hx

theorem Threaded.link (h : Threaded f un p xs) (hpair : (q, e) ∈ pairs p xs)
    (hp : ∀ x ∈ xs, p ≠ some x) (hnodup : xs.Nodup) (hq : f' q = .to e) (hf : ∀ x ≠ q, f' x = f x)
    (hun : ∀ x, un' x ↔ un x ∧ x ≠ e) :
    Threaded f' un' p xs := by
  induction xs generalizing p with
  | nil => cases hpair
  | cons x xs ih =>
    obtain ⟨hx, hxs⟩ := h
    obtain ⟨hxfresh, hnodup⟩ := nodup_cons.mp hnodup
    have htail : ∀ y ∈ xs, some x ≠ some y := fun y hy heq => hxfresh (Option.some.inj heq ▸ hy)
    rw [pairs, mem_cons] at hpair
    obtain hpair | hpair := hpair
    · cases hpair
      refine ⟨.inr ⟨fun h => ((hun e).mp h).2 rfl, hq⟩, hxs.congr ?_ ?_ ?_⟩
      · exact hf _ (hp e mem_cons_self).symm
      · intro y hy
        exact hf _ (hp y (mem_cons_of_mem e hy)).symm
      · intro y hy
        rw [hun]
        exact and_iff_left fun heq => hxfresh (heq ▸ hy)
    · refine ⟨?_, ih hxs hpair htail hnodup⟩
      obtain ⟨he, hqin⟩ := mem_of_pairs hpair
      have hpq : p ≠ q := by
        rintro rfl
        obtain heq | ⟨y, hy, heq⟩ := hqin
        · exact hp x mem_cons_self heq
        · exact hp y (mem_cons_of_mem x hy) heq
      have hxe : x ≠ e := fun heq => hxfresh (heq ▸ he)
      rw [hf p hpq, hun, and_iff_left hxe]
      exact hx

theorem Threaded.follow (h : Threaded f un p xs) {y : α} (hy : f p = .to y) :
    ∃ ys, xs = y :: ys ∧ ¬ un y ∧ Threaded f un (some y) ys := by
  cases xs with
  | nil =>
    rw [Threaded, hy] at h
    cases h
  | cons x xs =>
    obtain ⟨⟨-, hx⟩ | ⟨hun, hx⟩, hxs⟩ := h
    · rw [hy] at hx
      cases hx
    · rw [hy] at hx
      cases hx
      exact ⟨xs, rfl, hun, hxs⟩

end XnuXzs.Lib
