import XnuXzs.SysvSem.Adjustment

/-!
# Adjustments are dropped

`semctl` drops the adjustments for a semaphore that it sets, and those for all
semaphores of a set that it sets as a whole or removes.
-/

namespace XnuXzs.SysvSem

open Function List

/-- The entries of a process and their count. -/
structure UndoList where
  cnt : Nat
  entries : List Entry
  deriving DecidableEq

/-- The loop of `semundo_clear` over a list, behind the first `i` entries. -/
def clearFrom (semid : Nat) (semnum : Int) (i cnt : Nat) : List Entry → UndoList
  | [] => ⟨cnt, []⟩
  | e :: es =>
    if cnt ≤ i then ⟨cnt, e :: es⟩
    else if e.id ≠ semid then
      let rest := clearFrom semid semnum (i + 1) cnt es
      ⟨rest.cnt, e :: rest.entries⟩
    else if semnum = -1 ∨ e.num.toInt = semnum then clearFrom semid semnum i (cnt - 1) es
    else ⟨cnt, e :: es⟩

def semundoClear (semid : Nat) (semnum : Int) (undo : List UndoList) : List UndoList :=
  undo.map fun su => clearFrom semid semnum 0 su.cnt su.entries

def semvmx : UInt32 := 32767

inductive Command where
  | rmid
  | setval (semnum : Int) (val : UInt32)
  /-- With the values as far as they can be copied in. -/
  | setall (vals : Nat → Option UInt16)

structure Control where
  semid : Nat
  seq : Nat
  pid : Int
  inRange : Bool
  mac : Option Errno
  permission : Option Errno
  cmd : Command

/-- The loop of `SETALL` over `n` semaphores from `i` on. -/
def setFrom (pid : Int) (vals : Nat → Option UInt16) :
    Nat → Nat → (Nat → Sem) → (Nat → Sem) × Option Errno
  | 0, _, sems => (sems, none)
  | n + 1, i, sems =>
    match vals i with
    | none => (sems, some (.other 14))
    | some val => setFrom pid vals n (i + 1) (update sems i { sems i with val := val, pid := pid })

/-- `semctl`, with `EFAULT` (14) from `copyin` and `ERANGE` (34). -/
def semctl (c : Control) (sets : Nat → SemSet) (undo : List UndoList) :
    (Nat → SemSet) × List UndoList × Option Errno :=
  let set := sets c.semid
  if !c.inRange || !set.allocated || set.seq ≠ c.seq then (sets, undo, some .einval)
  else
    match c.mac <|> c.permission with
    | some e => (sets, undo, some e)
    | none =>
      match c.cmd with
      | .rmid => (update sets c.semid { set with allocated := false },
          semundoClear c.semid (-1) undo, none)
      | .setval semnum val =>
        if semnum < 0 ∨ (set.nsems.toNat : Int) ≤ semnum then (sets, undo, some .einval)
        else if semvmx < val then (sets, undo, some (.other 34))
        else
          let sem := { set.sems semnum.toNat with val := val.toUInt16, pid := c.pid }
          (update sets c.semid { set with sems := update set.sems semnum.toNat sem },
            semundoClear c.semid semnum undo, none)
      | .setall vals =>
        let (sems, error) := setFrom c.pid vals set.nsems.toNat 0 set.sems
        (update sets c.semid { set with sems := sems }, semundoClear c.semid (-1) undo, error)

/-- The semaphore whose entries are cleared, -1 for all. -/
def Command.semnum : Command → Int
  | .setval semnum _ => semnum
  | _ => -1

/-- The entry is one for the semaphore, whose number it holds as far as that fits. -/
def Entry.Names (semid : Nat) (semnum : Int) (e : Entry) : Bool :=
  e.id = semid ∧ e.num = Int16.ofInt semnum

def Command.drops (semid : Nat) : Command → Entry → Bool
  | .setval semnum _ => Entry.Names semid semnum
  | _ => fun e => e.id = semid

/-- Exactly these entries are gone, and the count is right. -/
def Cleared (drops : Entry → Bool) (su su' : UndoList) : Prop :=
  su'.entries = su.entries.filter (!drops ·) ∧ su'.cnt = su'.entries.length

/-- The number fits if there is an entry for the semaphore, and no other entry of the set is in
front of one for it. -/
def Reached (semid : Nat) (semnum : Int) (es : List Entry) : Prop :=
  (∀ e ∈ es, e.Names semid semnum → Fits semnum) ∧
    es.Pairwise fun a b => a.id = semid → b.Names semid semnum → a.Names semid semnum

variable {semid i : Nat} {semnum : Int} {es : List Entry}

theorem clearFrom_cons (semid : Nat) (semnum : Int) (i : Nat) (e : Entry) (es : List Entry) :
    clearFrom semid semnum i (i + (e :: es).length) (e :: es) =
      if e.id ≠ semid then
        let rest := clearFrom semid semnum (i + 1) (i + 1 + es.length) es
        ⟨rest.cnt, e :: rest.entries⟩
      else if semnum = -1 ∨ e.num.toInt = semnum then clearFrom semid semnum i (i + es.length) es
      else ⟨i + (e :: es).length, e :: es⟩ := by
  rw [clearFrom, if_neg (by simp), length_cons, Nat.add_right_comm]
  simp [add_assoc]

theorem clearFrom_cnt (semid : Nat) (semnum : Int) (i : Nat) (es : List Entry) :
    (clearFrom semid semnum i (i + es.length) es).cnt =
      i + (clearFrom semid semnum i (i + es.length) es).entries.length := by
  induction es generalizing i with
  | nil => rfl
  | cons e es ih =>
    rw [clearFrom_cons]
    split
    · simp only [ih, length_cons]
      omega
    · split
      · exact ih i
      · rfl

theorem clearFrom_all (semid i : Nat) (es : List Entry) :
    (clearFrom semid (-1) i (i + es.length) es).entries = es.filter fun e => e.id ≠ semid := by
  induction es generalizing i with
  | nil => rfl
  | cons e es ih =>
    rw [clearFrom_cons]
    by_cases hid : e.id = semid <;> simp [hid, ih]

theorem clearFrom_one (hsemnum : 0 ≤ semnum) :
    (clearFrom semid semnum i (i + es.length) es).entries = es.filter (!·.Names semid semnum) ↔
      Reached semid semnum es := by
  induction es generalizing i with
  | nil => simp [clearFrom, Reached]
  | cons e es ih =>
    rw [clearFrom_cons]
    by_cases hid : e.id = semid
    · by_cases hnum : e.num.toInt = semnum
      · have hnames : e.Names semid semnum := by simp [Entry.Names, hid, ← hnum]
        have hfits : Fits semnum := ⟨hsemnum, hnum ▸ e.num.toInt_lt⟩
        simp [hid, hnum, hnames, ih, Reached, hfits]
      -- the loop ends here
      have hother : Fits semnum → ¬ e.Names semid semnum := by
        intro hfits hnames
        simp only [Entry.Names, decide_eq_true_eq] at hnames
        exact hnum (by rw [hnames.2, toInt_ofInt_of_fits hfits])
      have hone : semnum ≠ -1 := by omega
      simp only [hid, ne_eq, not_true, if_false, hone, hnum, or_self, Reached]
      rw [eq_comm, filter_eq_self]
      constructor
      · intro hnone
        exact ⟨by grind, pairwise_of_forall_mem_list (by grind)⟩
      · rintro ⟨hfits, hpair⟩ x hx
        have hfirst := (pairwise_cons.mp hpair).1
        grind
    · have hnames : e.Names semid semnum = false := by simp [Entry.Names, hid]
      simp [hid, hnames, ih, Reached]

theorem semctl_undo {c : Control} {sets : Nat → SemSet} {undo : List UndoList}
    (hok : (semctl c sets undo).2.2 = none) :
    (semctl c sets undo).2.1 = semundoClear c.semid c.cmd.semnum undo ∧
      ∀ semnum val, c.cmd = .setval semnum val → 0 ≤ semnum := by
  unfold semctl at hok ⊢
  by_cases hset : (!c.inRange || !(sets c.semid).allocated || (sets c.semid).seq ≠ c.seq) = true
  · simp only [if_pos hset] at hok
    cases hok
  simp only [if_neg hset] at hok ⊢
  split at hok
  · cases hok
  cases hcmd : c.cmd with
  | rmid | setall => exact ⟨rfl, nofun⟩
  | setval semnum val =>
    simp only [hcmd] at hok ⊢
    split_ifs at hok ⊢ with hnum hval
    rw [not_or, not_lt] at hnum
    exact ⟨rfl, by rintro _ _ ⟨⟩; exact hnum.1⟩

/-- **What is left of the adjustments.** A command that succeeds drops exactly the entries
for what it sets or removes, if and only if each entry for a semaphore that `SETVAL` sets
can be reached. -/
theorem semctl_clears_iff (c : Control) (sets : Nat → SemSet) (undo : List UndoList)
    (hcnt : ∀ su ∈ undo, su.cnt = su.entries.length) (hok : (semctl c sets undo).2.2 = none) :
    Forall₂ (Cleared (c.cmd.drops c.semid)) undo (semctl c sets undo).2.1 ↔
      ∀ semnum val, c.cmd = .setval semnum val →
        ∀ su ∈ undo, Reached c.semid semnum su.entries := by
  obtain ⟨hundo, hsemnum⟩ := semctl_undo hok
  have hcleared : Forall₂ (Cleared (c.cmd.drops c.semid)) undo (semctl c sets undo).2.1 ↔
      ∀ su ∈ undo, (clearFrom c.semid c.cmd.semnum 0 (0 + su.entries.length) su.entries).entries =
        su.entries.filter (!c.cmd.drops c.semid ·) := by
    rw [hundo, semundoClear, forall₂_map_right_iff, forall₂_same]
    refine forall₂_congr fun su hsu => ?_
    have hright := clearFrom_cnt c.semid c.cmd.semnum 0 su.entries
    rw [zero_add, zero_add] at hright
    rw [Cleared, hcnt su hsu, zero_add]
    exact and_iff_left hright
  rw [hcleared]
  cases hcmd : c.cmd with
  | setval semnum val =>
    have hone : _ ↔ ∀ su ∈ undo, Reached c.semid semnum su.entries :=
      forall₂_congr fun su _ => clearFrom_one (i := 0) (hsemnum semnum val hcmd)
    exact hone.trans ⟨by rintro h _ _ ⟨⟩; exact h, fun h => h semnum val rfl⟩
  | rmid | setall => simp only [Command.semnum, Command.drops, clearFrom_all]; simp

/-- A call that sets the first semaphore to 0. -/
def setFirst : Control := ⟨0, 0, 1, true, none, none, .setval 0 0⟩

def twoSemaphores : Nat → SemSet := fun _ => ⟨true, 0, 2, 0, fun _ => ⟨0, 0, 0, 0⟩⟩

/-- A process has adjusted the first semaphore, then the second one: both entries stay. -/
theorem semctl_leaves : (semctl setFirst twoSemaphores [⟨2, [⟨1, 1, 0⟩, ⟨1, 0, 0⟩]⟩]).2.2 = none ∧
    ¬Forall₂ (Cleared (setFirst.cmd.drops 0)) [⟨2, [⟨1, 1, 0⟩, ⟨1, 0, 0⟩]⟩]
      (semctl setFirst twoSemaphores [⟨2, [⟨1, 1, 0⟩, ⟨1, 0, 0⟩]⟩]).2.1 := by
  refine ⟨by decide, ?_⟩
  rintro (_ | ⟨⟨hentries, -⟩, -⟩)
  revert hentries
  decide

/-- The same in the other order. -/
theorem semctl_clears_last : Forall₂ (Cleared (setFirst.cmd.drops 0)) [⟨2, [⟨1, 0, 0⟩, ⟨1, 1, 0⟩]⟩]
    (semctl setFirst twoSemaphores [⟨2, [⟨1, 0, 0⟩, ⟨1, 1, 0⟩]⟩]).2.1 := by
  apply (semctl_clears_iff setFirst twoSemaphores _ (by decide) (by decide)).mpr
  rintro _ _ ⟨⟩
  simp [Reached, setFirst]
  decide

end XnuXzs.SysvSem
