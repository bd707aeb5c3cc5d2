import XnuXzs.Lib.Machine

/-!
# Refilling a ledger entry

`ledger_refill` pays the limit of an entry back for every period since the last refill. The
count of periods may wrap and is put right; the product with the limit is not.
-/

namespace XnuXzs.Ledger

open Lib

/-- An entry, with the flags that a refill looks at. -/
structure Entry where
  credit : Int
  debit : Int
  limit : Int
  refillPeriod : Nat
  lastRefill : Nat
  trackCreditOnly : Bool
  refillInProgress : Bool
  panicOnNegative : Bool

def limitInfinity : Int := 2 ^ 63 - 1

/-- The loop for one or two periods, by rounds left: the periods counted, and the time left. -/
def countPeriods (period : Nat) : Nat → Nat → Nat × Nat
  | 0, elapsed => (0, elapsed)
  | rounds + 1, elapsed =>
    if 0 < elapsed then
      let r := countPeriods period rounds ((elapsed + 2 ^ 64 - period) % 2 ^ 64)
      (r.1 + 1, r.2)
    else (0, elapsed)

/-- `ledger_refill`, or `none` if an assertion fails. -/
def ledgerRefill (now : Nat) (e : Entry) : Option Entry :=
  if e.limit = limitInfinity then none
  else if e.trackCreditOnly then
    if e.debit = 0 then some e else none
  else if e.refillInProgress ∨ now ≤ e.lastRefill then some e
  else
    let elapsed := now - e.lastRefill
    if e.refillPeriod = 0 ∨ elapsed < e.refillPeriod then some e
    else
      let r := countPeriods e.refillPeriod 2 elapsed
      let periods := if 0 < r.2 then elapsed / e.refillPeriod else r.1
      let balance := i64 (e.credit - e.debit)
      let due := i64 (periods * e.limit)
      let due := if i64 (balance - due) < 0 then balance else due
      if due < 0 ∧ e.panicOnNegative then none
      else
        let debit := i64 (e.debit + due)
        if debit < 0 then none
        else some { e with
          debit := debit
          lastRefill := if balance = due then now
            else (e.lastRefill + e.refillPeriod * periods) % 2 ^ 64 }

def Entry.balance (e : Entry) : Int := e.credit - e.debit

def Entry.periods (e : Entry) (now : Nat) : Nat := (now - e.lastRefill) / e.refillPeriod

/-- What the whole periods pay back, without a bound on the numbers. -/
def Entry.owed (e : Entry) (now : Nat) : Int := e.periods now * e.limit

structure Entry.Ok (e : Entry) : Prop where
  credit : 0 ≤ e.credit ∧ e.credit < 2 ^ 63
  debit : 0 ≤ e.debit ∧ e.debit < 2 ^ 63
  limit : 0 < e.limit
  period : 0 < e.refillPeriod

/-- A run of credits and calls: the entry, the latest timestamp and the sum refilled. -/
inductive Run (start : Entry) : Entry → Nat → Int → Prop
  | start : Run start start start.lastRefill 0
  | credit {e : Entry} {time : Nat} {total : Int} (amount : Nat) (hrun : Run start e time total)
      (hfits : e.credit + amount < 2 ^ 63) :
      Run start { e with credit := e.credit + amount } time total
  | call {e e' : Entry} {time now : Nat} {total : Int} (hrun : Run start e time total)
      (htime : time ≤ now) (hnow : now < 2 ^ 64) (hcall : ledgerRefill now e = some e') :
      Run start e' now (total + (e'.debit - e.debit))

/-- When a call leaves the balance it should. -/
def Entry.Suits (e : Entry) (now : Nat) : Prop :=
  ¬ (e.limit = limitInfinity ∨ e.trackCreditOnly ∧ e.debit ≠ 0) ∧
  (e.periods now = 0 ∨ if e.trackCreditOnly ∨ e.refillInProgress then e.balance = 0
    else (e.balance < 0 → ¬ e.panicOnNegative) ∧
      (0 ≤ e.balance ∧ e.owed now < 2 ^ 63 ∨ i64 (e.balance - e.owed now) ≤ 0))

variable {e e' : Entry} {now : Nat}

theorem countPeriods_eq {period elapsed : Nat} (hpos : 0 < period) (hle : period ≤ elapsed)
    (hlt : elapsed < 2 ^ 64) :
    (if 0 < (countPeriods period 2 elapsed).2 then elapsed / period
      else (countPeriods period 2 elapsed).1) = elapsed / period := by
  have hfirst : (elapsed + 2 ^ 64 - period) % 2 ^ 64 = elapsed - period := by omega
  simp only [countPeriods, hfirst, hpos.trans_le hle, if_true]
  split_ifs
  · rfl
  · exact (Nat.div_eq_of_lt_le (by omega) (by omega)).symm
  · exact (Nat.div_eq_of_lt_le (by omega) (by omega)).symm

/-- What is taken from the balance. -/
def Entry.due (e : Entry) (now : Nat) : Int :=
  if i64 (e.balance - e.owed now) < 0 then e.balance else i64 (e.owed now)

def Entry.pay (e : Entry) (now : Nat) : Option Entry :=
  if e.due now < 0 ∧ e.panicOnNegative then none
  else if i64 (e.debit + e.due now) < 0 then none
  else some { e with
    debit := i64 (e.debit + e.due now)
    lastRefill := if e.balance = e.due now then now else e.lastRefill +
      e.refillPeriod * e.periods now }

theorem ledgerRefill_eq (h : e.Ok) (hnow : now < 2 ^ 64) :
    ledgerRefill now e =
      if e.limit = limitInfinity ∨ e.trackCreditOnly ∧ e.debit ≠ 0 then none
      else if e.periods now = 0 ∨ e.trackCreditOnly ∨ e.refillInProgress then some e
      else e.pay now := by
  obtain ⟨⟨hcredit, hcredit'⟩, ⟨hdebit, hdebit'⟩, -, hpos⟩ := h
  have hzero : e.periods now = 0 ↔ now - e.lastRefill < e.refillPeriod := by
    rw [Entry.periods, Nat.div_eq_zero_iff, or_iff_right hpos.ne']
  unfold ledgerRefill
  by_cases hlimit : e.limit = limitInfinity
  · simp [hlimit]
  by_cases htrack : e.trackCreditOnly
  · simp [hlimit, htrack]
  by_cases hprogress : e.refillInProgress
  · simp [hlimit, htrack, hprogress]
  by_cases hless : now - e.lastRefill < e.refillPeriod
  · simp [hlimit, htrack, hzero, hless]
  have hcount := @countPeriods_eq _ (now - e.lastRefill) hpos (by omega) (by omega)
  change _ = e.periods now at hcount
  have hbalance : i64 (e.credit - e.debit) = e.balance := i64_eq (by omega) (by omega)
  have hwrap : ∀ x y, i64 (x - i64 y) = i64 (x - y) := by
    intro x y
    unfold i64
    omega
  have hlast : (e.lastRefill + e.refillPeriod * e.periods now) % 2 ^ 64 =
      e.lastRefill + e.refillPeriod * e.periods now := by
    have hmul : e.refillPeriod * e.periods now ≤ now - e.lastRefill := Nat.mul_div_le ..
    exact Nat.mod_eq_of_lt (by omega)
  have hlater : ¬ now ≤ e.lastRefill := by omega
  simp only [hlimit, htrack, hprogress, hless, hlater, hzero,
    hpos.ne', hcount, hbalance, hwrap, hlast, if_false, or_self,
    false_and, Bool.false_eq_true, Entry.pay, Entry.due, Entry.owed]
  rfl

theorem owed_pos (h : e.Ok) (hperiods : ¬ e.periods now = 0) : 0 < e.owed now :=
  mul_pos (Int.natCast_pos.mpr (Nat.pos_of_ne_zero hperiods)) h.limit

theorem due_iff (h : e.Ok) (hperiods : ¬ e.periods now = 0) :
    (0 ≤ i64 (e.debit + e.due now) ∧ e.credit - i64 (e.debit + e.due now) =
      max 0 (e.balance - e.owed now) ↔
      0 ≤ e.balance ∧ e.owed now < 2 ^ 63 ∨ i64 (e.balance - e.owed now) ≤ 0) ∧
    (e.credit - i64 (e.debit + e.due now) = max 0 (e.balance - e.owed now) →
      (e.due now < 0 ↔ e.balance < 0)) ∧ i64 (e.debit + e.due now) - e.debit ≤ e.owed now := by
  have howed := owed_pos h hperiods
  obtain ⟨⟨hcredit, hcredit'⟩, ⟨hdebit, hdebit'⟩, -, -⟩ := h
  have hbalance : e.balance = e.credit - e.debit := rfl
  unfold Entry.due i64
  split
  · omega
  · omega

theorem suits_iff (h : e.Ok) (hnow : now < 2 ^ 64) :
    (∃ e', ledgerRefill now e = some e' ∧ e'.balance = if e.periods now = 0 then e.balance
      else max 0 (e.balance - e.owed now)) ↔ e.Suits now := by
  rw [ledgerRefill_eq h hnow, Entry.Suits]
  by_cases hnone : e.limit = limitInfinity ∨ e.trackCreditOnly ∧ e.debit ≠ 0
  · simp [hnone]
  by_cases hperiods : e.periods now = 0
  · simp [hnone, hperiods]
  have howed := owed_pos h hperiods
  obtain ⟨hright, hneg, -⟩ := due_iff h hperiods
  simp only [hnone, hperiods, if_false, false_or, not_false_eq_true, true_and]
  split
  · simp only [Option.some.injEq, exists_eq_left']
    omega
  unfold Entry.pay
  constructor
  · rintro ⟨e', hpay, hbalance⟩
    split_ifs at hpay with hpanic hless <;> cases hpay
    all_goals exact ⟨fun hlt hflag => hpanic ⟨(hneg hbalance).mpr hlt, hflag⟩,
      hright.mp ⟨not_lt.mp hless, hbalance⟩⟩
  · rintro ⟨hflag, hsuits⟩
    obtain ⟨hless, hbalance⟩ := hright.mpr hsuits
    rw [if_neg fun hpanic => hflag ((hneg hbalance).mp hpanic.1) hpanic.2,
      if_neg (not_lt.mpr hless)]
    exact ⟨_, rfl, hbalance⟩

/-- What a call, and a run, keeps; the limit is paid for periods up to the new refill time. -/
structure Keeps (e : Entry) (now : Nat) (e' : Entry) (total : Int) : Prop where
  ok : e'.Ok
  limit : e'.limit = e.limit
  period : e'.refillPeriod = e.refillPeriod
  last : e'.lastRefill ≤ now
  paid : ∃ j : Nat, e.lastRefill + e.refillPeriod * j ≤ e'.lastRefill ∧ total ≤ j * e.limit

theorem ledgerRefill_keeps (h : e.Ok) (hlast : e.lastRefill ≤ now) (hnow : now < 2 ^ 64)
    (hcall : ledgerRefill now e = some e') : Keeps e now e' (e'.debit - e.debit) := by
  rw [ledgerRefill_eq h hnow] at hcall
  split_ifs at hcall with _ hkept
  · cases hcall
    exact ⟨h, rfl, rfl, hlast, 0, by simp, by simp⟩
  have hmul : e.refillPeriod * e.periods now ≤ now - e.lastRefill := Nat.mul_div_le ..
  have hpaid := (due_iff h (not_or.mp hkept).1).2.2
  have hdebit : i64 (e.debit + e.due now) < 2 ^ 63 := by
    unfold i64
    omega
  unfold Entry.pay at hcall
  split_ifs at hcall with _ hless <;> cases hcall
  all_goals
    exact ⟨⟨h.credit, ⟨not_lt.mp hless, hdebit⟩, h.limit, h.period⟩, rfl, rfl, by dsimp only; omega,
      e.periods now, by dsimp only; omega, hpaid⟩

theorem Run.keeps {start : Entry} {time : Nat} {total : Int} (hrun : Run start e time total)
    (h : start.Ok) : Keeps start time e total := by
  induction hrun with
  | start => exact ⟨h, rfl, rfl, le_rfl, 0, by simp, by simp⟩
  | @credit e _ _ amount _ hfits ih =>
    have hcredit := ih.ok.credit
    exact { ih with ok := { ih.ok with credit := by dsimp only; omega } }
  | @call e e' time now total _ htime hnow hcall ih =>
    have hcalled := ledgerRefill_keeps ih.ok (ih.last.trans htime) hnow hcall
    obtain ⟨j, hj, hpaid⟩ := ih.paid
    obtain ⟨k, hk, hpaid'⟩ := hcalled.paid
    rw [ih.limit] at hpaid'
    rw [ih.period] at hk
    refine ⟨hcalled.ok, hcalled.limit.trans ih.limit, hcalled.period.trans ih.period,
      hcalled.last, j + k, ?_, ?_⟩
    · rw [mul_add]
      omega
    · push_cast
      rw [add_mul]
      omega

/-- **The refills of a run.** The refill time is behind the one at the start and not behind the
latest timestamp, the sum is at most the limit for every whole period, and the next call leaves
the balance it should, all that if and only if the call suits. -/
theorem ledgerRefill_iff {start : Entry} {time : Nat} {total : Int} (h : start.Ok)
    (hrun : Run start e time total) (htime : time ≤ now) (hnow : now < 2 ^ 64) :
    (start.lastRefill ≤ e.lastRefill ∧ e.lastRefill ≤ time ∧
      total ≤ ((time - start.lastRefill) / start.refillPeriod : Nat) * start.limit ∧
      ∃ e', ledgerRefill now e = some e' ∧ e.lastRefill ≤ e'.lastRefill ∧ e'.lastRefill ≤ now ∧
        e'.balance = if e.periods now = 0 then e.balance else max 0 (e.balance - e.owed now)) ↔
      e.Suits now := by
  obtain ⟨hok, hlimit, hperiod, hlast, j, hj, hpaid⟩ := hrun.keeps h
  rw [← suits_iff hok hnow]
  constructor
  · rintro ⟨-, -, -, e', hcall, -, -, hbalance⟩
    exact ⟨e', hcall, hbalance⟩
  · rintro ⟨e', hcall, hbalance⟩
    have hcalled := ledgerRefill_keeps hok (hlast.trans htime) hnow hcall
    obtain ⟨k, hk, -⟩ := hcalled.paid
    have hwhole : j ≤ (time - start.lastRefill) / start.refillPeriod := by
      rw [Nat.le_div_iff_mul_le h.period, mul_comm]
      omega
    refine ⟨by omega, hlast, hpaid.trans ?_, e', hcall, by omega, hcalled.last, hbalance⟩
    exact mul_le_mul_of_nonneg_right (Int.ofNat_le.mpr hwhole) h.limit.le

def large (debit : Int) : Entry := ⟨debit + 5, debit, 2 ^ 62, 1, 0, false, false, false⟩

/-- After a credit of 7. -/
theorem ledgerRefill_one_period : ∃ e', ledgerRefill 1 { large 0 with credit := 12 } = some e' ∧
    e'.balance = 0 := by
  have hok : (large 0).Ok := ⟨by decide, by decide, by decide, by decide⟩
  have hrun : Run (large 0) { large 0 with credit := 12 } 0 0 := .credit 7 .start (by decide)
  obtain ⟨-, -, -, e', hcall, -, -, hbalance⟩ :=
    (ledgerRefill_iff hok hrun (Nat.zero_le 1) (by decide)).mpr ⟨by decide, .inr (by decide)⟩
  exact ⟨e', hcall, hbalance.trans (by decide)⟩

/-- Three periods: the product is a negative number, and the balance of 5 grows by 2^62. -/
theorem ledgerRefill_three_periods : (large (2 ^ 62)).Ok ∧
    ¬∃ e', ledgerRefill 3 (large (2 ^ 62)) = some e' ∧
      e'.balance = max 0 ((large (2 ^ 62)).balance - (large (2 ^ 62)).owed 3) := by
  refine ⟨⟨by decide, by decide, by decide, by decide⟩, ?_⟩
  rintro ⟨e', hcall, hbalance⟩
  have hgrows : (ledgerRefill 3 (large (2 ^ 62))).map Entry.balance = some (5 + 2 ^ 62) := by decide
  rw [hcall, Option.map_some, hbalance] at hgrows
  exact absurd hgrows (by decide)

end XnuXzs.Ledger
