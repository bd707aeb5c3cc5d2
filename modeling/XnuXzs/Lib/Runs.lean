import Mathlib.Tactic

/-!
# Runs of a system

What holds at the start and is kept by every step holds in every state of every run, and a
system that simulates another only shows what the other may show.
-/

namespace XnuXzs.Lib

variable {σ τ : Type*}

structure System (σ : Type*) where
  init : σ → Prop
  step : σ → σ → Prop

namespace System

inductive Reachable (S : System σ) : σ → Prop
  | start {s : σ} (hinit : S.init s) : S.Reachable s
  | next {s t : σ} (hs : S.Reachable s) (hstep : S.step s t) : S.Reachable t

def Always (S : System σ) (P : σ → Prop) : Prop := ∀ s, S.Reachable s → P s

variable {S : System σ} {A : System τ}

theorem always_of_step {P : σ → Prop} (hinit : ∀ s, S.init s → P s)
    (hstep : ∀ s t, P s → S.step s t → P t) : S.Always P := by
  intro s hs
  induction hs with
  | start h => exact hinit _ h
  | next _ h ih => exact hstep _ _ ih h

/-- Each step of the one is some steps of the other, or none. -/
structure Simulates (S : System σ) (A : System τ) (R : σ → τ → Prop) : Prop where
  init : ∀ s, S.init s → ∃ a, A.init a ∧ R s a
  step : ∀ s t a, S.Reachable s → R s a → S.step s t → ∃ b, Relation.ReflTransGen A.step a b ∧ R t b

theorem Reachable.steps {a b : τ} (ha : A.Reachable a) (hab : Relation.ReflTransGen A.step a b) :
    A.Reachable b := by
  induction hab with
  | refl => exact ha
  | tail _ hlast ih => exact .next ih hlast

theorem Simulates.reachable {R : σ → τ → Prop} (hsim : S.Simulates A R) {s : σ}
    (hs : S.Reachable s) : ∃ a, A.Reachable a ∧ R s a := by
  induction hs with
  | start h =>
    obtain ⟨a, ha, hR⟩ := hsim.init _ h
    exact ⟨a, .start ha, hR⟩
  | next hs h ih =>
    obtain ⟨a, ha, hR⟩ := ih
    obtain ⟨b, hab, hR'⟩ := hsim.step _ _ a hs hR h
    exact ⟨b, ha.steps hab, hR'⟩

end System

/-- All that was put in, and what was taken out. -/
structure Queue (α : Type*) where
  sent : List α
  delivered : List α

variable {α : Type*}

inductive Queue.Step : Queue α → Queue α → Prop
  | push (q : Queue α) (x : α) : Step q { q with sent := q.sent ++ [x] }
  | pop (q : Queue α) (x : α) (hx : q.sent[q.delivered.length]? = some x) :
      Step q { q with delivered := q.delivered ++ [x] }

def fifo (α : Type*) : System (Queue α) where
  init q := q.sent = [] ∧ q.delivered = []
  step := Queue.Step

/-- Elements come out in the order in which they went in, each of them once. -/
theorem fifo_ordered : (fifo α).Always fun q => q.delivered <+: q.sent := by
  apply System.always_of_step
  · rintro q ⟨hsent, hdelivered⟩
    rw [hdelivered]
    exact List.nil_prefix
  intro q q' hq hstep
  cases hstep with
  | push => exact hq.trans (List.prefix_append ..)
  | pop x hx =>
    obtain ⟨rest, hrest⟩ := hq
    simp only [← hrest, List.getElem?_append_right le_rfl, Nat.sub_self] at hx
    obtain ⟨tail, rfl⟩ := List.head?_eq_some_iff.mp (List.head?_eq_getElem? ▸ hx)
    exact ⟨tail, by rw [← hrest, List.append_assoc, List.singleton_append]⟩

end XnuXzs.Lib
