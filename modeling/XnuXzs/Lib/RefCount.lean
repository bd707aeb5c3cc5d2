import Mathlib.Tactic

/-!
# Counted references

A heap of cells with a count and a body that refers to other cells. At zero a cell is freed and
its references released in turn. A count at `peg` stays there; `Balanced` says that every other
one is right.
-/

namespace XnuXzs.Lib

open List

structure Cell (α : Type*) where
  body : α
  refs : Nat
  deriving DecidableEq, Repr

/-- What a body refers to, whether it cannot be freed, and the count that no longer changes. -/
structure Counting (α : Type*) where
  points : α → List Nat
  stuck : α → Bool
  peg : Nat
  one_lt_peg : 1 < peg

variable {α : Type*} (k : Counting α)

/-- The count of a cell; that of a cell that is not there is zero. -/
def refsAt (h : List (Cell α)) (i : Nat) : Nat := (h[i]?.map Cell.refs).getD 0

/-- What a cell refers to. A freed one refers to nothing. -/
def Cell.outgoing (c : Cell α) : List Nat := if c.refs = 0 then [] else k.points c.body

/-- All the references from inside the heap. -/
def inside (h : List (Cell α)) : List Nat := h.flatMap (Cell.outgoing k)

/-- Each count below the peg is the number of references, those in `held` included. -/
def Balanced (h : List (Cell α)) (held : List Nat) : Prop :=
  ∀ i, refsAt h i ≠ k.peg → refsAt h i = (held ++ inside k h).count i

/-- `c` is alive and refers to `i`. -/
def Contains (h : List (Cell α)) (c i : Nat) : Prop :=
  ∃ cell, h[c]? = some cell ∧ i ∈ cell.outgoing k

def Cell.retain (c : Cell α) : Cell α :=
  if c.refs = k.peg then c else { c with refs := c.refs + 1 }

/-- One reference less, and what is to be released because of it. -/
def Cell.drop (c : Cell α) : Cell α × List Nat :=
  if c.refs = k.peg then (c, [])
  else ({ c with refs := c.refs - 1 }, if c.refs = 1 then k.points c.body else [])

/-- Releases the cells of a list in turn; `none` is the release of a freed cell, or of the last
reference to one that cannot be freed. Each round takes one from the references left. -/
def release : Nat → List Nat → List (Cell α) → Option (List (Cell α))
  | _, [], h => some h
  | 0, _ :: _, _ => none
  | n + 1, i :: rest, h =>
    match h[i]? with
    | none => none
    | some c =>
      if c.refs = 0 ∨ c.refs = 1 ∧ k.stuck c.body then none
      else release n ((c.drop k).2 ++ rest) (h.set i (c.drop k).1)

def releaseAll (l : List Nat) (h : List (Cell α)) : Option (List (Cell α)) :=
  release k (l.length + (inside k h).length) l h

section Set

variable {h : List (Cell α)} {i : Nat} {c : Cell α}

section

variable (hi : h[i]? = some c)
include hi

theorem refsAt_of_getElem? : refsAt h i = c.refs := by
  simp [refsAt, hi]

theorem refsAt_set (c' : Cell α) (j : Nat) :
    refsAt (h.set i c') j = if j = i then c'.refs else refsAt h j := by
  obtain ⟨hlt, -⟩ := List.getElem?_eq_some_iff.mp hi
  by_cases hj : j = i
  · subst hj
    simp [refsAt, hlt]
  · rw [if_neg hj, refsAt, refsAt, getElem?_set_ne (Ne.symm hj)]

theorem split_at (c' : Cell α) : ∃ a b, h = a ++ c :: b ∧ h.set i c' = a ++ c' :: b := by
  obtain ⟨hlt, rfl⟩ := List.getElem?_eq_some_iff.mp hi
  refine ⟨h.take i, h.drop (i + 1), ?_, ?_⟩
  · rw [getElem_cons_drop, take_append_drop]
  · exact set_eq_take_append_cons_drop.trans (if_pos hlt)

theorem inside_set (c' : Cell α) (j : Nat) :
    (inside k (h.set i c')).count j + (c.outgoing k).count j =
      (inside k h).count j + (c'.outgoing k).count j := by
  obtain ⟨a, b, ha, hset⟩ := split_at hi c'
  rw [hset]
  conv_rhs => rw [ha]
  simp only [inside, flatMap_append, flatMap_cons, count_append]
  omega

theorem inside_set_length (c' : Cell α) :
    (inside k (h.set i c')).length + (c.outgoing k).length =
      (inside k h).length + (c'.outgoing k).length := by
  obtain ⟨a, b, ha, hset⟩ := split_at hi c'
  rw [hset]
  conv_rhs => rw [ha]
  simp only [inside, flatMap_append, flatMap_cons, length_append]
  omega

end

theorem Cell.drop_outgoing (hlive : c.refs ≠ 0) :
    (c.drop k).2 ++ (c.drop k).1.outgoing k = c.outgoing k := by
  unfold Cell.drop
  split
  · rfl
  by_cases hone : c.refs = 1
  · simp [Cell.outgoing, hone]
  · have hmore : ¬ c.refs - 1 = 0 := by omega
    simp [Cell.outgoing, hone, hlive, hmore]

theorem Cell.retain_outgoing (hlive : c.refs ≠ 0) : (c.retain k).outgoing k = c.outgoing k := by
  unfold Cell.retain
  split
  · rfl
  · simp [Cell.outgoing, hlive]

theorem Cell.retain_body (c : Cell α) : (c.retain k).body = c.body := by
  unfold Cell.retain
  split <;> rfl

end Set

section Balance

variable {k} {h : List (Cell α)} {held : List Nat} {i : Nat} {c : Cell α} {body : α}

theorem Balanced.congr {held' : List Nat} (hb : Balanced k h held)
    (hsame : ∀ j, held'.count j = held.count j) : Balanced k h held' := by
  intro j hj
  rw [hb j hj, count_append, count_append, hsame]

theorem Balanced.refs_ne_zero (hb : Balanced k h held) (hi : i ∈ held ++ inside k h) :
    refsAt h i ≠ 0 := by
  intro hzero
  have hpeg : refsAt h i ≠ k.peg := by
    have := k.one_lt_peg
    omega
  have hcount := hb i hpeg
  rw [hzero] at hcount
  exact (count_eq_zero.mp hcount.symm) hi

theorem lt_length_of_refs (hi : refsAt h i ≠ 0) : i < h.length := by
  by_contra hge
  simp [refsAt, getElem?_eq_none (Nat.le_of_not_lt hge)] at hi

theorem Balanced.alive (hb : Balanced k h held) (hi : i ∈ held) :
    ∃ c, h[i]? = some c ∧ c.refs ≠ 0 := by
  have hrefs := hb.refs_ne_zero (mem_append_left _ hi)
  have hlt := lt_length_of_refs hrefs
  have hcell := getElem?_eq_getElem hlt
  rw [refsAt_of_getElem? hcell] at hrefs
  exact ⟨h[i], hcell, hrefs⟩

theorem Balanced.push (hb : Balanced k h held) (hnew : k.points body = []) :
    Balanced k (h ++ [⟨body, 1⟩]) (h.length :: held) := by
  intro j hpeg
  have hinside : inside k (h ++ [⟨body, 1⟩]) = inside k h := by
    simp [inside, Cell.outgoing, hnew]
  rw [hinside, cons_append, count_cons]
  by_cases hj : j = h.length
  · subst hj
    have hnone : (held ++ inside k h).count h.length = 0 := by
      rw [count_eq_zero]
      exact fun hmem => absurd (lt_length_of_refs (hb.refs_ne_zero hmem)) (lt_irrefl _)
    simp [refsAt, hnone]
  · have hsame : refsAt (h ++ [⟨body, 1⟩]) j = refsAt h j := by
      rcases lt_or_gt_of_ne hj with hlt | hgt
      · rw [refsAt, refsAt, getElem?_append_left hlt]
      have hshort : (h ++ [(⟨body, 1⟩ : Cell α)]).length ≤ j := by
        rw [length_append, length_singleton]
        exact hgt
      rw [refsAt, refsAt, getElem?_eq_none hshort, getElem?_eq_none hgt.le]
    rw [hsame] at hpeg ⊢
    rw [hb j hpeg]
    simp [Ne.symm hj]

theorem Balanced.retain (hb : Balanced k h held) (hi : h[i]? = some c) (hlive : c.refs ≠ 0) :
    Balanced k (h.set i (c.retain k)) (i :: held) := by
  intro j hpeg
  have hinside := inside_set k hi (c.retain k) j
  rw [Cell.retain_outgoing k hlive] at hinside
  rw [refsAt_set hi] at hpeg ⊢
  rw [cons_append, count_cons, count_append]
  by_cases heq : j = i
  · subst heq
    simp only [if_true, beq_self_eq_true] at hpeg ⊢
    have hbelow : c.refs ≠ k.peg := by
      intro hat
      simp [Cell.retain, hat] at hpeg
    have hj := hb j (by rwa [refsAt_of_getElem? hi])
    rw [refsAt_of_getElem? hi, count_append] at hj
    have hrefs : (c.retain k).refs = c.refs + 1 := by simp [Cell.retain, hbelow]
    omega
  · simp only [heq, if_false, beq_iff_eq, Ne.symm heq] at hpeg ⊢
    have hj := hb j hpeg
    rw [count_append] at hj
    omega

theorem Balanced.store {put : List Nat} (hb : Balanced k h (put ++ held)) (hi : h[i]? = some c)
    (hlive : c.refs ≠ 0)
    (hmove : ∀ j, (k.points body).count j = (k.points c.body).count j + put.count j) :
    Balanced k (h.set i { c with body }) held := by
  intro j hpeg
  have hinside := inside_set k hi { c with body } j
  have hrefs : refsAt (h.set i { c with body }) j = refsAt h j := by
    rw [refsAt_set hi]
    split_ifs with hj
    · rw [hj, refsAt_of_getElem? hi]
    · rfl
  rw [hrefs] at hpeg ⊢
  simp only [Cell.outgoing, hlive, if_false] at hinside
  have hj := hb j hpeg
  have hm := hmove j
  simp only [count_append] at hj ⊢
  omega

/-- One holder less, and what a freed cell referred to is left to be released. -/
theorem Balanced.drop (hb : Balanced k h (i :: held)) (hi : h[i]? = some c) :
    Balanced k (h.set i (c.drop k).1) ((c.drop k).2 ++ held) := by
  obtain ⟨c', hc', hlive⟩ := hb.alive (mem_cons_self ..)
  obtain rfl : c = c' := Option.some.inj (hi.symm.trans hc')
  intro j hpeg
  have hinside := inside_set k hi (c.drop k).1 j
  rw [← Cell.drop_outgoing k hlive, count_append] at hinside
  rw [refsAt_set hi] at hpeg ⊢
  rw [count_append, count_append]
  by_cases heq : j = i
  · subst heq
    simp only [if_true] at hpeg ⊢
    have hbelow : c.refs ≠ k.peg := by
      intro hat
      simp [Cell.drop, hat] at hpeg
    have hj := hb j (by rwa [refsAt_of_getElem? hi])
    rw [refsAt_of_getElem? hi, cons_append, count_cons_self, count_append] at hj
    have hrefs : (c.drop k).1.refs = c.refs - 1 := by simp [Cell.drop, hbelow]
    omega
  · simp only [heq, if_false] at hpeg ⊢
    have hj := hb j hpeg
    rw [cons_append, count_cons_of_ne (Ne.symm heq), count_append] at hj
    omega

end Balance

section Release

variable {k} {h h' : List (Cell α)} {held work : List Nat} {i n : Nat} {s : Set Nat} {c : Cell α}

/-- The bodies are as they were, and the counts no higher. -/
structure Shrinks (h h' : List (Cell α)) : Prop where
  length : h'.length = h.length
  body : ∀ {i : Nat} {c' : Cell α}, h'[i]? = some c' →
    ∃ c : Cell α, h[i]? = some c ∧ c'.body = c.body ∧ c'.refs ≤ c.refs

theorem Shrinks.refl (h : List (Cell α)) : Shrinks h h :=
  ⟨rfl, fun hi => ⟨_, hi, rfl, le_rfl⟩⟩

theorem Shrinks.trans {h'' : List (Cell α)} (ha : Shrinks h h') (hb : Shrinks h' h'') :
    Shrinks h h'' := by
  refine ⟨hb.length.trans ha.length, ?_⟩
  intro i c'' hi
  obtain ⟨c', hi', hbody, hrefs⟩ := hb.body hi
  obtain ⟨c, hic, hbody', hrefs'⟩ := ha.body hi'
  exact ⟨c, hic, hbody.trans hbody', hrefs.trans hrefs'⟩

theorem Shrinks.drop {i : Nat} {c : Cell α} (hi : h[i]? = some c) :
    Shrinks h (h.set i (c.drop k).1) := by
  refine ⟨length_set, ?_⟩
  intro j c' hj
  by_cases heq : j = i
  · subst heq
    obtain ⟨hlt, -⟩ := List.getElem?_eq_some_iff.mp hi
    rw [getElem?_set_self hlt] at hj
    cases hj
    refine ⟨c, hi, ?_⟩
    unfold Cell.drop
    split
    · exact ⟨rfl, le_rfl⟩
    · exact ⟨rfl, Nat.sub_le _ _⟩
  · rw [getElem?_set_ne (Ne.symm heq)] at hj
    exact ⟨c', hj, rfl, le_rfl⟩

theorem Contains.mem_inside {c : Nat} (hc : Contains k h c i) : i ∈ inside k h := by
  obtain ⟨cell, hcell, hi⟩ := hc
  exact mem_flatMap.mpr ⟨cell, mem_of_getElem? hcell, hi⟩

/-- Each of the cells is held or referred to by one of them. -/
def Kept (k : Counting α) (h : List (Cell α)) (held : List Nat) (s : Set Nat) : Prop :=
  ∀ i ∈ s, i ∈ held ∨ ∃ c ∈ s, Contains k h c i

theorem Kept.set {c' : Cell α} (hs : Kept k h held s) (hi : h[i]? = some c)
    (hsame : i ∈ s → c'.outgoing k = c.outgoing k) :
    Kept k (h.set i c') held s := by
  intro j hj
  rcases hs j hj with hheld | ⟨d, hd, cell, hcell, hmem⟩
  · exact .inl hheld
  right
  by_cases heq : d = i
  · subst heq
    obtain rfl : c = cell := Option.some.inj (hi.symm.trans hcell)
    obtain ⟨hlt, -⟩ := List.getElem?_eq_some_iff.mp hi
    exact ⟨d, hd, c', getElem?_set_self hlt, by rwa [hsame hd]⟩
  · exact ⟨d, hd, cell, by rwa [getElem?_set_ne (Ne.symm heq)], hmem⟩

/-- What is released of a kept cell is not its last reference. -/
theorem Kept.refs_ne_one (hs : Kept k h held s) (hb : Balanced k h (i :: work ++ held))
    (hi : h[i]? = some c) (his : i ∈ s) : c.refs ≠ 1 := by
  intro hone
  have hcount := hb i (by rw [refsAt_of_getElem? hi, hone]; exact k.one_lt_peg.ne)
  rw [refsAt_of_getElem? hi, hone, cons_append, cons_append, count_cons_self, count_append,
    count_append] at hcount
  rcases hs i his with hheld | ⟨d, -, hd⟩
  · have := count_pos_iff.mpr hheld
    omega
  · have := count_pos_iff.mpr hd.mem_inside
    omega

theorem release_step {rest : List Nat} (hi : h[i]? = some c) (hlive : c.refs ≠ 0)
    (hfree : c.refs = 1 → k.stuck c.body = false) :
    release k (n + 1) (i :: rest) h =
      release k n ((c.drop k).2 ++ rest) (h.set i (c.drop k).1) := by
  have hno : ¬(c.refs = 0 ∨ c.refs = 1 ∧ k.stuck c.body = true) := by
    rintro (hzero | ⟨hone, hstuck⟩)
    · exact hlive hzero
    · simp [hfree hone] at hstuck
  simp [release, hi, hno]

/-- Releasing what is held never meets a freed cell, and cells that keep each other are never
freed. The induction is on the references left. -/
theorem release_balanced (hn : work.length + (inside k h).length ≤ n)
    (hb : Balanced k h (work ++ held)) (hs : Kept k h held s)
    (hstuck : ∀ i c, h[i]? = some c → k.stuck c.body = true → i ∈ s) :
    ∃ h', release k n work h = some h' ∧ Balanced k h' held ∧ Shrinks h h' := by
  induction n generalizing h work with
  | zero =>
    obtain rfl : work = [] := eq_nil_of_length_eq_zero (by omega)
    exact ⟨h, rfl, hb, Shrinks.refl h⟩
  | succ n ih =>
    cases work with
    | nil => exact ⟨h, rfl, hb, Shrinks.refl h⟩
    | cons i rest =>
      obtain ⟨c, hi, hlive⟩ := hb.alive (mem_append_left _ (mem_cons_self ..))
      have hmore := hs.refs_ne_one hb hi
      have hdrop := @Balanced.drop α k h (rest ++ held) i c hb hi
      rw [← append_assoc] at hdrop
      have hlength := inside_set_length k hi (c.drop k).1
      rw [← Cell.drop_outgoing k hlive, length_append] at hlength
      rw [length_cons] at hn
      have hless : ((c.drop k).2 ++ rest).length + (inside k (h.set i (c.drop k).1)).length ≤
          n := by
        rw [length_append]
        omega
      have hshrinks : Shrinks h (h.set i (c.drop k).1) := .drop hi
      have hs' : Kept k (h.set i (c.drop k).1) held s := by
        refine hs.set hi fun his => ?_
        have hnothing : (c.drop k).2 = [] := by
          unfold Cell.drop
          split
          · rfl
          · exact if_neg (hmore his)
        rw [← Cell.drop_outgoing k hlive, hnothing, nil_append]
      obtain ⟨h', hrel, hb', hsh⟩ := ih hless hdrop hs' fun j c' hj hc' => by
        obtain ⟨d, hd, hbody, -⟩ := hshrinks.body hj
        exact hstuck j d hd (hbody ▸ hc')
      refine ⟨h', (release_step hi hlive fun hone => ?_).trans hrel, hb', hshrinks.trans hsh⟩
      by_contra hc
      exact hmore (hstuck i c hi (Bool.of_not_eq_false hc)) hone

theorem releaseAll_balanced (hb : Balanced k h (work ++ held)) (hs : Kept k h held s)
    (hstuck : ∀ i c, h[i]? = some c → k.stuck c.body = true → i ∈ s) :
    ∃ h', releaseAll k work h = some h' ∧ Balanced k h' held ∧ Shrinks h h' :=
  release_balanced le_rfl hb hs hstuck

end Release

end XnuXzs.Lib
