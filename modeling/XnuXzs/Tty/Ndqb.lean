import Mathlib.Tactic

/-!
# Counting in a clist

A clist is a ring of characters with a quote bit for each. `ndqb` counts the
characters at its front that can be taken as one block. Positions are counted
from the start of the ring.
-/

namespace XnuXzs.Tty

open List

def ttyQuote : UInt32 := 0x100

/-- The pointers of an empty clist are null. -/
structure Clist where
  cc : Nat
  cn : Nat
  cf : Nat
  cl : Nat
  cs : Nat → UInt8
  cq : Nat → Bool
  size_int : cn < 2 ^ 31
  count_le : cc ≤ cn
  first_lt : cc ≠ 0 → cf < cn
  last_eq : cc ≠ 0 → cl = (cf + cc) % cn

variable (c : Clist) (flag : UInt32)

def flagged (i : Nat) : Bool := (c.cs i).toUInt32 &&& (flag &&& ~~~ttyQuote) != 0

def quoting : Bool := flag &&& ttyQuote != 0

/-- The positions a round reads. The index is advanced between character and quote bit. -/
def reads (i : Nat) : List Nat := if quoting flag then [i, i + 1] else [i]

/-- Both loops of `ndqb`, with and without the quote bits: the count, and what was read. -/
def scan : Nat → Nat → Nat × List Nat
  | 0, _ => (0, [])
  | cc + 1, i =>
    if flagged c flag i then (0, [i])
    else if quoting flag && c.cq (i + 1) then (0, reads flag i)
    else if i + 1 = c.cn then (1, reads flag i)
    else ((scan cc (i + 1)).1 + 1, reads flag i ++ (scan cc (i + 1)).2)

/-- The difference of the pointers becomes unsigned before it is tested. -/
def ndqb : Nat × List Nat :=
  if c.cc = 0 then (0, [])
  else if flag = 0 then
    let count := ((c.cl - c.cf : Int) % 2 ^ 64).toNat
    let count := if count ≤ 0 then c.cn - c.cf else count
    (if count > 2 ^ 31 - 1 then 0 else count, [])
  else scan c flag c.cc c.cf

/-- From `i` on, `n` of `r` places are passed before the scan stops. -/
def Stops (p : Nat → Prop) (i r n : Nat) : Prop := n ≤ r ∧ (∀ k < n, ¬p (i + k)) ∧
    (n < r → p (i + n))

/-- How many of the queued characters are contiguous. -/
def contiguous : Nat := min c.cc (c.cn - c.cf)

def Queued (i : Nat) : Prop := ∃ k < c.cc, i = (c.cf + k) % c.cn

/-- A character that must not be passed. -/
def Blocked (i : Nat) : Prop := flagged c flag i ∨ quoting flag && c.cq i

/-- A character that the loop does not pass. -/
def Refused (i : Nat) : Prop := flagged c flag i ∨ quoting flag && c.cq (i + 1)

/-- The count is that of the longest front, and only queued characters are looked at. -/
def Counted : Prop :=
  Stops (Blocked c flag) c.cf (contiguous c) (ndqb c flag).1 ∧ ∀ i ∈ (ndqb c flag).2, Queued c i

/-- No character up to the first flagged one is quoted, or that is the first one, or
the first two characters are quoted. -/
def QuotesAgree : Prop :=
  (∃ n < contiguous c, flagged c flag (c.cf + n) ∧
    ∀ k < n, ¬flagged c flag (c.cf + k) ∧ ¬c.cq (c.cf + k) ∧ ¬c.cq (c.cf + k + 1)) ∨
  1 < contiguous c ∧ c.cq c.cf ∧ c.cq (c.cf + 1)

/-- When the count is right. If quote bits are not looked at it is wrong only for a
wrapped queue and no flag. -/
def Favourable : Prop :=
  c.cc = 0 ∨ flag = 0 ∧ c.cf ≤ c.cl ∨ flag ≠ 0 ∧ quoting flag = false ∨
    quoting flag ∧ QuotesAgree c flag

variable {c flag} {p q : Nat → Prop} {i r n : Nat}

theorem Stops.unique {n' : Nat} (h : Stops p i r n) (h' : Stops p i r n') :
    n = n' := by
  obtain hlt | rfl | hgt := lt_trichotomy n n'
  · exact absurd (h.2.2 (hlt.trans_le h'.1)) (h'.2.1 n hlt)
  · rfl
  · exact absurd (h'.2.2 (hgt.trans_le h.1)) (h.2.1 n' hgt)

theorem Stops.succ (hp : ¬p i) (h : Stops p (i + 1) r n) :
    Stops p i (r + 1) (n + 1) := by
  obtain ⟨hle, hpassed, hstop⟩ := h
  refine ⟨by omega, fun k hk => ?_, fun hlt => ?_⟩
  · cases k with
    | zero => exact hp
    | succ k =>
      rw [Nat.add_comm k, ← Nat.add_assoc]
      exact hpassed k (by omega)
  · rw [Nat.add_comm n, ← Nat.add_assoc]
    exact hstop (by omega)

theorem scan_stops (cc : Nat) {i : Nat} (hi : i < c.cn) :
    Stops (Refused c flag) i (min cc (c.cn - i)) (scan c flag cc i).1 := by
  induction cc generalizing i with
  | zero => simp [Stops, scan]
  | succ cc ih =>
    rw [scan]
    split_ifs with hflag hquote hend
    · exact ⟨Nat.zero_le _, by simp, fun _ => .inl hflag⟩
    · exact ⟨Nat.zero_le _, by simp, fun _ => .inr hquote⟩
    · obtain hr : min (cc + 1) (c.cn - i) = 0 + 1 := by omega
      rw [hr]
      exact .succ (not_or.2 ⟨hflag, hquote⟩) ⟨le_rfl, by simp, by simp⟩
    · obtain hr : min (cc + 1) (c.cn - i) = min cc (c.cn - (i + 1)) + 1 := by omega
      rw [hr]
      exact .succ (not_or.2 ⟨hflag, hquote⟩) (ih (by omega))

theorem scan_reads_plain (hplain : quoting flag = false) (cc : Nat) (hi : i < c.cn)
    (hq : ∀ x, i ≤ x → x < i + min cc (c.cn - i) → q x) :
    ∀ x ∈ (scan c flag cc i).2, q x := by
  induction cc generalizing i with
  | zero => simp [scan]
  | succ cc ih =>
    have hhere := hq i le_rfl (by omega)
    simp only [scan, hplain, reads, Bool.false_and, Bool.false_eq_true, if_false]
    split_ifs with hflag hend
    · simpa
    · simpa
    · rw [singleton_append, forall_mem_cons]
      exact ⟨hhere, ih (by omega) fun x hx hlt => hq x (by omega) (by omega)⟩

/-- A scan for quoted characters stays within the queue, up to `e`, only if it stops at a
flagged one or before the last. -/
theorem scan_reads (hquoting : quoting flag) (cc : Nat) {e : Nat} (hi : i < c.cn)
    (he : e = i + min cc (c.cn - i)) (hlt : i < e) (hq : ∀ x, i ≤ x → x ≤ e → (q x ↔ x < e)) :
    (∀ x ∈ (scan c flag cc i).2, q x) ↔ i + (scan c flag cc i).1 < e ∧
      (flagged c flag (i + (scan c flag cc i).1) ∨ i + (scan c flag cc i).1 + 1 < e) := by
  induction cc generalizing i with
  | zero => omega
  | succ cc ih =>
    have hhere := (hq i le_rfl hlt.le).2 hlt
    have hnext := hq (i + 1) (by omega) hlt
    simp only [scan, hquoting, reads, Bool.true_and, if_true]
    split_ifs with hflag hquote hend
    · simp [hflag, hhere, hlt]
    · simp [hflag, hhere, hlt, hnext]
    · simp [hhere, hnext]
      omega
    · simp only [forall_mem_append, forall_mem_cons]
      by_cases hmore : i + 1 < e
      · rw [ih (by omega) (by omega) hmore fun x hx => hq x (by omega)]
        simp [hhere, hnext, hmore, ← Nat.add_assoc, Nat.add_right_comm i 1]
      · simp [hhere, hnext, hmore]
        omega

theorem queued_iff (hc : c.cc ≠ 0) {x : Nat} (hlo : c.cf ≤ x) (hhi : x ≤ c.cf + contiguous c) :
    Queued c x ↔ x < c.cf + contiguous c := by
  have hfirst := c.first_lt hc
  unfold contiguous at *
  constructor
  · rintro ⟨k, hk, rfl⟩
    by_cases hin : c.cf + k < c.cn
    · rw [Nat.mod_eq_of_lt hin]
      omega
    · have := Nat.mod_lt (c.cf + k) (by omega : 0 < c.cn)
      omega
  · intro hlt
    exact ⟨x - c.cf, by omega, by rw [Nat.mod_eq_of_lt] <;> omega⟩

theorem counted_quoting_iff (hc : c.cc ≠ 0) (hquoting : quoting flag) :
    Counted c flag ↔ ∃ n < contiguous c, Stops (Blocked c flag) c.cf (contiguous c) n ∧
      Stops (Refused c flag) c.cf (contiguous c) n ∧
      (flagged c flag (c.cf + n) ∨ n + 1 < contiguous c) := by
  have hfirst := c.first_lt hc
  have hstops := @scan_stops c flag c.cc _ hfirst
  have hreads := scan_reads hquoting c.cc hfirst rfl (by omega) fun x => queued_iff hc
  have hflag : flag ≠ 0 := by
    rintro rfl
    simp [quoting] at hquoting
  rw [Counted, ndqb, if_neg hc, if_neg hflag, hreads, ← contiguous] at *
  constructor
  · rintro ⟨hspec, hlt, hor⟩
    exact ⟨_, by omega, hspec, hstops, hor.imp_right fun h => by omega⟩
  · rintro ⟨n, hlt, hspec, hcode, hor⟩
    obtain rfl := hcode.unique hstops
    exact ⟨hspec, by omega, hor.imp_right fun h => by omega⟩

theorem counted_quoting (hc : c.cc ≠ 0) (hquoting : quoting flag) :
    Counted c flag ↔ QuotesAgree c flag := by
  rw [counted_quoting_iff hc hquoting]
  simp only [QuotesAgree, Stops, Blocked, Refused, hquoting, Bool.true_and, not_or]
  constructor
  · rintro ⟨n, hlt, ⟨-, hspec, hblocked⟩, ⟨-, hcode, hstopped⟩, hor⟩
    by_cases hflag : flagged c flag (c.cf + n)
    · exact .inl ⟨n, hlt, hflag, fun k hk => ⟨(hspec k hk).1, (hspec k hk).2, (hcode k hk).2⟩⟩
    · have hquoted := (hblocked hlt).resolve_left hflag
      cases n with
      | zero => exact .inr ⟨hor.resolve_left hflag, hquoted, (hstopped hlt).resolve_left hflag⟩
      | succ n => exact absurd hquoted (hcode n (by omega)).2
  · rintro (⟨n, hlt, hflag, hpassed⟩ | ⟨hlt, hfirst, hsecond⟩)
    · refine ⟨n, hlt, ⟨hlt.le, fun k hk => ?_, fun _ => .inl hflag⟩,
        ⟨hlt.le, fun k hk => ?_, fun _ => .inl hflag⟩, .inl hflag⟩
      · exact ⟨(hpassed k hk).1, (hpassed k hk).2.1⟩
      · exact ⟨(hpassed k hk).1, (hpassed k hk).2.2⟩
    · exact ⟨0, by omega, ⟨by omega, by simp, fun _ => .inr hfirst⟩,
        ⟨by omega, by simp, fun _ => .inr hsecond⟩, .inr hlt⟩

theorem counted_no_flag (hc : c.cc ≠ 0) : Counted c 0 ↔ c.cf ≤ c.cl := by
  have hfirst := c.first_lt hc
  have hlast := c.last_eq hc
  have hsize := c.size_int
  have hcount := c.count_le
  have hfree (i : Nat) : ¬Blocked c 0 i := by simp [Blocked, flagged, quoting]
  rw [Counted, ndqb, if_neg hc, if_pos rfl]
  simp only [Stops, hfree, not_false_eq_true, implies_true, true_and,
    not_mem_nil, false_implies, and_true,
    imp_false, not_lt, contiguous]
  obtain hin | hout := lt_or_ge (c.cf + c.cc) c.cn
  · rw [Nat.mod_eq_of_lt hin] at hlast
    split_ifs <;> omega
  · rw [Nat.mod_eq_sub_mod hout, Nat.mod_eq_of_lt (by omega)] at hlast
    split_ifs <;> omega

theorem counted_plain (hc : c.cc ≠ 0) (hflag : flag ≠ 0) (hplain : quoting flag = false) :
    Counted c flag := by
  have hfirst := c.first_lt hc
  have hstops := @scan_stops c flag c.cc _ hfirst
  rw [Counted, ndqb, if_neg hc, if_neg hflag]
  constructor
  · simpa only [Stops, Refused, Blocked, contiguous, hplain, Bool.false_and] using hstops
  · refine scan_reads_plain hplain c.cc hfirst fun x hlo hhi => ?_
    exact (queued_iff hc hlo hhi.le).2 hhi

theorem ndqb_counted_iff (c : Clist) (flag : UInt32) : Counted c flag ↔ Favourable c flag := by
  unfold Favourable
  by_cases hc : c.cc = 0
  · simp [Counted, ndqb, Stops, contiguous, hc]
  by_cases hflag : flag = 0
  · subst hflag
    simp [counted_no_flag hc, hc, quoting]
  cases hquoting : quoting flag with
  | false => simp [counted_plain hc hflag hquoting, hflag]
  | true => simp [counted_quoting hc hquoting, hc, hflag]

/-- Of three characters that wrap around, and of two of which the second is quoted, none is
counted. -/
theorem ndqb_miscounts :
    ¬Counted ⟨3, 4, 2, 1, fun _ => 97, fun _ =>
      false, by decide, by decide, by decide, by decide⟩ 0 ∧
    ¬Counted ⟨2, 4, 0, 2, fun _ => 97, fun i => i = 1, by decide, by decide, by decide, by decide⟩
      ttyQuote := by
  refine ⟨?_, ?_⟩ <;>
  · rintro ⟨⟨-, -, hstop⟩, -⟩
    revert hstop
    unfold Blocked
    decide

end XnuXzs.Tty
