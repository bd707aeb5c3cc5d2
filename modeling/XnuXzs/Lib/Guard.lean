import Mathlib.Tactic

/-! Validators written as early returns: `if (bad) return err;` becomes `rejectIf`, a `for` loop
of such tests `forUpTo`. A validator succeeds exactly when no test fired. -/
namespace XnuXzs.Lib

variable {ε α β : Type} {f : Unit → Except ε β} {x : Except ε Unit} {e : ε} {bad : Prop} {b : β}

/-- Return the error `e` when the test holds. -/
def rejectIf (e : ε) (bad : Prop) [Decidable bad] : Except ε Unit :=
  if bad then .error e else .ok ()

/-- `for (i = 0; i < n; i++)` over a test, stopping at the first error. -/
def forUpTo (n : Nat) (test : Nat → Except ε Unit) : Except ε Unit :=
  forM (List.range n) test

theorem rejectIf_ok [Decidable bad] {u : Unit} :
    rejectIf e bad = .ok u ↔ ¬ bad := by
  unfold rejectIf
  split <;> simp_all

theorem bind_ok {x : Except ε α} {f : α → Except ε β} :
    (x >>= f) = .ok b ↔ ∃ a, x = .ok a ∧ f a = .ok b := by
  cases x <;> simp [bind, Except.bind]

theorem ok_bind (a : α) (f : α → Except ε β) : ((.ok a : Except ε α) >>= f) = f a := rfl

theorem seq_ok : (x >>= f) = .ok b ↔ x = .ok () ∧ f () = .ok b := by
  rw [bind_ok]
  exact ⟨fun ⟨(), h⟩ => h, fun h => ⟨(), h⟩⟩

theorem rejectIf_error {e' : ε} [Decidable bad] :
    rejectIf e bad = .error e' ↔ bad ∧ e = e' := by
  unfold rejectIf
  split <;> simp_all

theorem seq_error : (x >>= f) = .error e ↔ x = .error e ∨ x = .ok () ∧ f () = .error e := by
  cases x <;> simp [bind, Except.bind]

theorem forM_ok (xs : List Nat) (test : Nat → Except ε Unit) :
    forM xs test = .ok () ↔ ∀ i ∈ xs, test i = .ok () := by
  induction xs with
  | nil => simp [pure, Except.pure]
  | cons x xs ih =>
    rw [List.forM_cons, seq_ok, ih]
    simp

theorem mapM_ok_of_forall (xs : List α) {f : α → Except ε β} (g : α → β)
    (h : ∀ x ∈ xs, f x = .ok (g x)) : xs.mapM f = .ok (xs.map g) := by
  induction xs with
  | nil => rfl
  | cons x xs ih =>
    have hx := h x List.mem_cons_self
    have hxs := ih fun y hy => h y (List.mem_cons_of_mem x hy)
    simp [List.mapM_cons, hx, hxs, bind, Except.bind, pure, Except.pure]

theorem forUpTo_ok {n : Nat} {test : Nat → Except ε Unit} :
    forUpTo n test = .ok () ↔ ∀ i < n, test i = .ok () := by
  simp [forUpTo, forM_ok]

/-- The result meets `Q`, or there is an error of an expected kind. -/
def Yields (expected : ε → Prop) (x : Except ε α) (Q : α → Prop) : Prop :=
  match x with
  | .ok a => Q a
  | .error e => expected e

variable {expected : ε → Prop} {x : Except ε α} {f : α → Except ε β} {P : α → Prop} {Q : β → Prop}
  {a : α}

theorem Yields.bind (hx : Yields expected x P) (hf : ∀ a, P a → Yields expected (f a) Q) :
    Yields expected (x >>= f) Q := by
  cases x with
  | ok a => exact hf a hx
  | error => exact hx

theorem Yields.mono {P' : α → Prop} (hx : Yields expected x P) (hP : ∀ a, P a → P' a) :
    Yields expected x P' := by
  cases x with
  | ok a => exact hP a hx
  | error => exact hx

theorem Yields.of_ok (hx : Yields expected x P) (ha : x = .ok a) : P a := by
  rw [ha] at hx
  exact hx

theorem yields_eq (hx : x = .ok a) : Yields expected x (· = a) := by
  rw [hx]
  rfl

theorem yields_rejectIf (he : expected e) [Decidable bad] :
    Yields expected (rejectIf e bad) fun _ => ¬ bad := by
  unfold rejectIf
  split
  · exact he
  · assumption

end XnuXzs.Lib
