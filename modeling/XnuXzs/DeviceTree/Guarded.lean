import XnuXzs.DeviceTree.Checked

/-!
# When a comparison stays inside of the region

A comparison leaves the region exactly where the bytes up to its end are all the same. A lookup
is safe when none of the names it compares runs off the end in this way.
-/

namespace XnuXzs.DeviceTree

open Lib List

variable {r : Region} {p child cur q : Nat} {α β : Type} {x : Except Fault α} {s buf : List UInt8}
  {path : List UInt8}

/-- The call panics or returns; no read is outside of the region. -/
def Safe (x : Except Fault α) : Prop := Checked x fun _ => True

theorem Checked.safe {Q : α → Prop} (h : Checked x Q) : Safe x :=
  h.mono fun _ _ => trivial

theorem safe_ok (a : α) : Safe (.ok a : Except Fault α) := trivial

theorem safe_bind {f : α → Except Fault β} :
    Safe (x >>= f) ↔ Safe x ∧ ∀ a, x = .ok a → Safe (f a) := by
  cases x with
  | ok a =>
    refine ⟨fun h => ⟨trivial, ?_⟩, fun h => h.2 a rfl⟩
    rintro b ⟨⟩
    exact h
  | error e =>
    refine ⟨fun h => ⟨h, ?_⟩, fun h => h.1⟩
    intro a ha
    cases ha

theorem safe_map {f : α → β} : Safe (x.map f) ↔ Safe x := by
  cases x <;> rfl

theorem safe_word : Safe (r.word p) ↔ r.start ≤ p ∧ p + 4 ≤ r.stop := by
  rw [Region.word]
  split_ifs with h
  · exact iff_of_true trivial h
  · exact iff_of_false (fun hsafe => by cases hsafe) h

/-- All the bytes from an address to the end of the region are those of the string. -/
def RunsOff (r : Region) (p : Nat) (s : List UInt8) : Prop := bytesAt r.mem p (r.stop - p) <+: s

theorem runsOff_behind (h : ¬ p < r.stop) : RunsOff r p s := by
  rw [RunsOff, Nat.sub_eq_zero_of_le (by omega)]
  exact nil_prefix

theorem bytesAt_stop (h : p < r.stop) :
    bytesAt r.mem p (r.stop - p) = r.mem p :: bytesAt r.mem (p + 1) (r.stop - (p + 1)) := by
  obtain ⟨n, hn⟩ : ∃ n, r.stop - p = 1 + n := ⟨r.stop - p - 1, by omega⟩
  have htail : r.stop - (p + 1) = n := by omega
  rw [hn, htail, bytesAt_append]
  rfl

theorem runsOff_nil (h : p < r.stop) : ¬ RunsOff r p [] := by
  rw [RunsOff, bytesAt_stop h, prefix_nil]
  exact cons_ne_nil _ _

theorem runsOff_cons {c : UInt8} {cs : List UInt8} (h : p < r.stop) :
    RunsOff r p (c :: cs) ↔ r.mem p = c ∧ RunsOff r (p + 1) cs := by
  rw [RunsOff, bytesAt_stop h, cons_prefix_cons, RunsOff]

theorem byte_behind (h : ¬ p < r.stop) : r.byte p = .error .outside := if_neg fun hin => h hin.2

theorem byte_inside (hlo : r.start ≤ p) (h : p < r.stop) :
    r.byte p = .ok (r.mem p) := if_pos ⟨hlo, h⟩

theorem safe_strEq (hlo : r.start ≤ p) : Safe (strEq r p s) ↔ ¬ RunsOff r p s := by
  induction s generalizing p with
  | nil =>
    rw [strEq]
    by_cases hin : p < r.stop
    · rw [byte_inside hlo hin]
      exact iff_of_true trivial (runsOff_nil hin)
    · rw [byte_behind hin]
      exact iff_of_false (fun h => by cases h) (fun h => h (runsOff_behind hin))
  | cons c cs ih =>
    rw [strEq]
    by_cases hin : p < r.stop
    · rw [byte_inside hlo hin, ok_bind, runsOff_cons hin]
      split
      · rename_i heq
        rw [ih (by omega)]
        simp [heq]
      · rename_i hne
        exact iff_of_true trivial fun h => hne h.1
    · rw [byte_behind hin]
      exact iff_of_false (fun h => by cases h) (fun h => h (runsOff_behind hin))

/-- `memcmp` stops at the length, also where nothing ends the bytes. -/
theorem safe_memEq (hlo : r.start ≤ p) :
    Safe (memEq r p s) ↔ ¬ (r.stop - p < s.length ∧ RunsOff r p s) := by
  induction s generalizing p with
  | nil => exact iff_of_true trivial fun h => Nat.not_lt_zero _ h.1
  | cons c cs ih =>
    rw [memEq, length_cons]
    by_cases hin : p < r.stop
    · have hlen : r.stop - p < cs.length + 1 ↔ r.stop - (p + 1) < cs.length := by omega
      rw [byte_inside hlo hin, ok_bind, runsOff_cons hin, hlen]
      split
      · rename_i heq
        rw [ih (by omega)]
        simp [heq]
      · rename_i hne
        exact iff_of_true trivial fun h => hne h.2.1
    · rw [byte_behind hin]
      exact iff_of_false (fun h => by cases h) (fun h => h ⟨by omega, runsOff_behind hin⟩)

/-- The search among a child and the `k` behind it compares the name at `v`. -/
inductive Compared (r : Region) (buf : List UInt8) : Nat → Nat → Nat → Prop where
  | here {k child v size : Nat} : getProperty r child nameKey = .ok (some (v, size)) →
      Compared r buf k child v
  | later {k child v size next w : Nat} : getProperty r child nameKey = .ok (some (v, size)) →
      strEq r v buf = .ok false → getNextChild r child = .ok next → Compared r buf k next w →
      Compared r buf (k + 1) child w

section

variable (hchild : From r.start child) {k : Nat}
include hchild

theorem safe_nameRound (next : Except Fault Nat) :
    Safe (getProperty r child nameKey >>= fun found =>
      match found with
      | none => pure 0
      | some (str, _) => strEq r str buf >>= fun same => if same then pure child else next) ↔
    ∀ v size, getProperty r child nameKey = .ok (some (v, size)) →
      ¬ RunsOff r v buf ∧ (strEq r v buf = .ok false → Safe next) := by
  have hget := checked_getProperty hchild (by decide : nameKey.length < propNameLength)
  rw [safe_bind]
  constructor
  · intro h v size hv
    have hlo := hget.of_ok hv _ rfl
    obtain ⟨hcmp, hnext⟩ := safe_bind.mp (h.2 _ hv)
    exact ⟨(safe_strEq hlo).mp hcmp, hnext false⟩
  intro h
  refine ⟨hget.safe, fun found hfound => ?_⟩
  match found, hfound with
  | none, _ => exact safe_ok 0
  | some (v, size), hfound =>
    have hlo := hget.of_ok hfound _ rfl
    obtain ⟨hoff, hnext⟩ := h v size hfound
    refine safe_bind.mpr ⟨(safe_strEq hlo).mpr hoff, fun same hsame => ?_⟩
    cases same with
    | true => exact safe_ok child
    | false => exact hnext hsame

theorem safe_findChildLoop :
    Safe (findChildLoop r buf k child) ↔ ∀ v, Compared r buf k child v → ¬ RunsOff r v buf := by
  induction k generalizing child with
  | zero =>
    refine (safe_nameRound hchild (.ok 0)).trans ⟨fun h v hv => ?_, fun h v size hv => ?_⟩
    · cases hv with
      | here hget => exact (h v _ hget).1
    · exact ⟨h v (.here hv), fun _ => safe_ok 0⟩
  | succ k ih =>
    have hnext := checked_getNextChild hchild
    refine (safe_nameRound hchild (getNextChild r child >>= findChildLoop r buf k)).trans
      ⟨fun h v hv => ?_, fun h v size hv => ?_⟩
    · cases hv with
      | here hget => exact (h v _ hget).1
      | later hget hne hadv hrest =>
        have hsafe := (safe_bind.mp ((h _ _ hget).2 hne)).2 _ hadv
        exact (ih (hnext.of_ok hadv)).mp hsafe v hrest
    · refine ⟨h v (.here hv), fun hne => safe_bind.mpr ⟨hnext.safe, fun q hq => ?_⟩⟩
      exact (ih (hnext.of_ok hq)).mpr fun w hw => h w (.later hv hne hq hw)

theorem findChildLoop_from (h : findChildLoop r buf k child = .ok q) : From r.start q := by
  induction k generalizing child with
  | zero =>
    obtain ⟨found, -, h⟩ := bind_ok.mp h
    match found, h with
    | none, h => exact .inl (Except.ok.inj h).symm
    | some (v, size), h =>
      obtain ⟨same, -, h⟩ := bind_ok.mp h
      cases same with
      | true => exact Except.ok.inj h ▸ hchild
      | false => exact .inl (Except.ok.inj h).symm
  | succ k ih =>
    obtain ⟨found, -, h⟩ := bind_ok.mp h
    match found, h with
    | none, h => exact .inl (Except.ok.inj h).symm
    | some (v, size), h =>
      obtain ⟨same, -, h⟩ := bind_ok.mp h
      cases same with
      | true => exact Except.ok.inj h ▸ hchild
      | false =>
        obtain ⟨next, hnext, h⟩ := bind_ok.mp h
        exact ih ((checked_getNextChild hchild).of_ok hnext) h

end

/-- The search among the children of a node compares the name at `v`. -/
def ComparedIn (r : Region) (buf : List UInt8) (cur v : Nat) : Prop :=
  ∃ k child, cur + nodeSize ≤ r.stop ∧ r.word (cur + nChildrenAt) = .ok (k + 1) ∧
    skipProperties r cur = .ok child ∧ Compared r buf k child v

theorem assertIn_eq_ok : assertIn r p = .ok () ↔ r.start ≤ p ∧ p ≤ r.stop := by
  rw [assertIn, rejectIf_ok]
  omega

theorem skipProperties_from (hcur : r.start ≤ cur) (h : skipProperties r cur = .ok child) :
    From r.start child :=
  ((checked_skipProperties (.inr hcur)).of_ok h).imp_right (by omega)

theorem safe_findChild (hcur : r.start ≤ cur) :
    Safe (findChild r cur buf) ↔ ∀ v, ComparedIn r buf cur v → ¬ RunsOff r v buf := by
  rw [findChild, safe_bind]
  constructor
  · rintro ⟨-, h⟩ v ⟨k, child, hheader, hk, hchild, hcmp⟩
    have h := (safe_bind.mp (h () (assertIn_eq_ok.mpr ⟨by omega, hheader⟩))).2 _ hk
    have hloop := (safe_bind.mp h).2 _ hchild
    exact (safe_findChildLoop (skipProperties_from hcur hchild)).mp hloop v hcmp
  · intro h
    refine ⟨checked_assertIn.safe, fun _ hheader => ?_⟩
    have hin := (assertIn_eq_ok.mp hheader).2
    simp only [nodeSize] at hin
    refine safe_bind.mpr ⟨(checked_word (by omega) (by simp only [nChildrenAt]; omega)).safe,
      fun n hn => ?_⟩
    split
    · exact safe_ok 0
    rename_i hn0
    obtain ⟨k, rfl⟩ := Nat.exists_eq_succ_of_ne_zero hn0
    refine safe_bind.mpr ⟨(checked_skipProperties (.inr hcur)).safe, fun child hchild => ?_⟩
    refine (safe_findChildLoop (skipProperties_from hcur hchild)).mpr fun v hv => ?_
    exact h v ⟨k, child, hin, hn, hchild, hv⟩

theorem findChild_from (hcur : r.start ≤ cur) (h : findChild r cur buf = .ok q) :
    From r.start q := by
  obtain ⟨-, h⟩ := seq_ok.mp h
  obtain ⟨n, -, h⟩ := bind_ok.mp h
  split at h
  · exact .inl (Except.ok.inj h).symm
  · obtain ⟨child, hchild, h⟩ := bind_ok.mp h
    exact findChildLoop_from (skipProperties_from hcur hchild) h

/-- The lookup of a path compares its component `buf` with the name at `v`. -/
inductive Asks (r : Region) : Nat → List UInt8 → List UInt8 → Nat → Prop where
  | here {cur v : Nat} {path : List UInt8} : (getNextComponent [] path).1 ≠ [] →
      ComparedIn r (getNextComponent [] path).1 cur v →
        Asks r cur path (getNextComponent [] path).1 v
  | later {cur next v : Nat} {path buf : List UInt8} : (getNextComponent [] path).1 ≠ [] →
      findChild r cur (getNextComponent [] path).1 = .ok next → next ≠ 0 →
      Asks r next (getNextComponent [] path).2 buf v → Asks r cur path buf v

theorem safe_lookupLoop (hcur : r.start ≤ cur) :
    Safe (lookupLoop r cur path) ↔ ∀ buf v, Asks r cur path buf v → ¬ RunsOff r v buf := by
  induction hlen : path.length using Nat.strong_induction_on generalizing cur path with
  | h len ih =>
  subst hlen
  rw [lookupLoop]
  split
  · rename_i hempty
    refine iff_of_true (safe_ok _) fun buf v hasks => ?_
    cases hasks with
    | here hne | later hne => exact absurd hempty hne
  rename_i hne
  have hlt := getNextComponent_lt hne
  have hnext : ∀ next, findChild r cur (getNextComponent [] path).1 = .ok next → next ≠ 0 →
      (Safe (lookupLoop r next (getNextComponent [] path).2) ↔
        ∀ buf v, Asks r next (getNextComponent [] path).2 buf v → ¬ RunsOff r v buf) :=
    fun next hfind hnull => ih _ hlt ((findChild_from hcur hfind).resolve_left hnull) rfl
  rw [safe_bind, safe_findChild hcur]
  constructor
  · rintro ⟨hfirst, hrest⟩ buf v hasks
    cases hasks with
    | here _ hcmp => exact hfirst v hcmp
    | later _ hfind hnull hasks =>
      have hsafe := hrest _ hfind
      rw [if_neg hnull] at hsafe
      exact (hnext _ hfind hnull).mp hsafe buf v hasks
  · intro h
    refine ⟨fun v hcmp => h _ v (.here hne hcmp), fun next hfind => ?_⟩
    split_ifs with hnull
    · exact safe_ok none
    · exact (hnext next hfind hnull).mpr fun buf v hasks => h buf v (.later hne hfind hnull hasks)

def dropSlash (path : List UInt8) : List UInt8 :=
  if path.head? = some slash then path.tail else path

/-- A `DTEntry` as the routines hand it out: null, or an address of the region. -/
structure Entry (r : Region) where
  addr : Nat
  ok : addr = 0 ∨ r.start ≤ addr ∧ addr ≤ r.stop

/-- The entry itself, or the root for a null pointer. -/
def Entry.orRoot (e : Entry r) : Nat := if e.addr = 0 then r.start else e.addr

theorem Entry.orRoot_in (e : Entry r) : r.start ≤ e.orRoot ∧ e.orRoot ≤ r.stop := by
  have hle := r.le
  have hok := e.ok
  rw [Entry.orRoot]
  split <;> omega

theorem safe_lookupEntry (e : Entry r) :
    Safe (lookupEntry r e.addr path) ↔
      ∀ buf v, Asks r e.orRoot (dropSlash path) buf v → ¬ RunsOff r v buf := by
  obtain ⟨hlo, hhi⟩ := e.orRoot_in
  have hin : assertIn r e.orRoot = .ok () := assertIn_eq_ok.mpr ⟨hlo, hhi⟩
  have hunfold : lookupEntry r e.addr path = (assertIn r e.orRoot >>= fun _ =>
      if path.head? = some slash then
        if path.tail = [] then pure (some e.orRoot) else lookupLoop r e.orRoot path.tail
      else lookupLoop r e.orRoot path) := rfl
  rw [← safe_lookupLoop hlo, hunfold, hin, ok_bind, dropSlash]
  split
  · split_ifs with hroot
    · rw [hroot, lookupLoop, dif_pos (by rfl)]
      exact iff_of_true (safe_ok _) (safe_ok _)
    · rfl
  · rfl

/-- The entry iterators that the routines make. -/
inductive EntryIterator.Made (r : Region) : EntryIterator → Prop where
  | init (e : Entry r) : Made r (initEntryIterator r e.addr)
  | enter {iter : EntryIterator} (e : Entry r) : Made r iter → Made r (enterEntry iter e.addr)
  | exit {iter : EntryIterator} : Made r iter → Made r (exitEntry iter)
  | restart {iter : EntryIterator} : Made r iter → Made r (restartEntryIteration iter)
  | next {iter iter' : EntryIterator} {found : Option Nat} : Made r iter →
      iterateEntries r iter = .ok (found, iter') → Made r iter'

/-- A scope, with the entry that is the last one given if there is one. -/
def ScopeIn (r : Region) (scope entry index : Nat) : Prop :=
  r.start ≤ scope ∧ (index = 0 ∨ r.start ≤ entry)

variable {iter : EntryIterator}

theorem nextEntry_checked (h : ScopeIn r iter.currentScope iter.currentEntry iter.currentIndex) :
    Safe (nextEntry r iter) := by
  rw [nextEntry]
  split_ifs with hindex
  · exact (checked_skipProperties (.inr h.1)).safe
  · exact (checked_getNextChild (.inr (h.2.resolve_left hindex))).safe

theorem EntryIterator.Made.scopes (h : iter.Made r) :
    ScopeIn r iter.currentScope iter.currentEntry iter.currentIndex ∧
      ∀ saved ∈ iter.savedScope, ScopeIn r saved.1 saved.2.1 saved.2.2 := by
  induction h with
  | init e => exact ⟨⟨e.orRoot_in.1, .inl rfl⟩, fun _ hmem => by cases hmem⟩
  | enter e _ ih =>
    rw [enterEntry]
    split
    · exact ih
    rename_i hnull
    refine ⟨⟨(e.ok.resolve_left hnull).1, .inl rfl⟩, fun saved hmem => ?_⟩
    obtain rfl | hmem := mem_cons.mp hmem
    · exact ih.1
    · exact ih.2 saved hmem
  | @exit iter _ ih =>
    rw [exitEntry]
    split
    · exact ih
    · rename_i scope entry index saved hsaved
      rw [hsaved] at ih
      exact ⟨ih.2 _ mem_cons_self, fun y hy => ih.2 y (mem_cons_of_mem _ hy)⟩
  | restart _ ih => exact ⟨⟨ih.1.1, .inl rfl⟩, ih.2⟩
  | @next iter iter' found _ hiter ih =>
    obtain ⟨n, -, hiter⟩ := bind_ok.mp hiter
    split at hiter
    · cases hiter
      exact ih
    obtain ⟨entry, -, hiter⟩ := bind_ok.mp hiter
    obtain ⟨hin, hiter⟩ := seq_ok.mp hiter
    cases hiter
    exact ⟨⟨ih.1.1, .inr (assertIn_eq_ok.mp hin).1⟩, ih.2⟩

/-- The count of children is read unchecked; everything behind it is checked. -/
theorem safe_iterateEntries (h : iter.Made r) :
    Safe (iterateEntries r iter) ↔ iter.currentScope + nodeSize ≤ r.stop := by
  obtain ⟨hscope, -⟩ := h.scopes
  have hlo := hscope.1
  rw [iterateEntries, safe_bind, safe_word, nChildrenAt, nodeSize]
  constructor
  · rintro ⟨⟨-, hhi⟩, -⟩
    omega
  intro hhi
  refine ⟨⟨by omega, by omega⟩, fun n _ => ?_⟩
  split
  · exact safe_ok _
  · refine safe_bind.mpr ⟨nextEntry_checked hscope, fun entry _ => ?_⟩
    exact safe_bind.mpr ⟨checked_assertIn.safe, fun _ _ => safe_ok _⟩

/-- The property iterators that the routines make on an entry. -/
inductive PropertyIterator.Made (r : Region) : PropertyIterator → Prop where
  | init {e : Nat} : r.start ≤ e → e ≤ r.stop → Made r (initPropertyIterator e)
  | restart {iter : PropertyIterator} : Made r iter → Made r (restartPropertyIteration iter)
  | next {iter iter' : PropertyIterator} {found : Option Nat} : Made r iter →
      iterateProperties r iter = .ok (found, iter') → Made r iter'

theorem PropertyIterator.Made.scope {iter : PropertyIterator} (h : iter.Made r) :
    ScopeIn r iter.entry iter.currentProperty iter.currentIndex := by
  induction h with
  | init hlo => exact ⟨hlo, .inl rfl⟩
  | restart _ ih => exact ⟨ih.1, .inl rfl⟩
  | @next iter iter' found _ hiter ih =>
    obtain ⟨n, -, hiter⟩ := bind_ok.mp hiter
    split at hiter
    · cases hiter
      exact ih
    obtain ⟨prop, -, hiter⟩ := bind_ok.mp hiter
    obtain ⟨hin, hiter⟩ := seq_ok.mp hiter
    cases hiter
    exact ⟨ih.1, .inr (checked_assertProp.of_ok hin).1⟩

theorem nextProperty_checked {iter : PropertyIterator}
    (h : ScopeIn r iter.entry iter.currentProperty iter.currentIndex) :
    Safe (nextProperty r iter) := by
  rw [nextProperty]
  split_ifs with hindex
  · exact safe_ok _
  · exact (checked_nextProp (h.2.resolve_left hindex)).safe

theorem safe_iterateProperties {iter : PropertyIterator} (h : iter.Made r) :
    Safe (iterateProperties r iter) ↔ iter.entry + 4 ≤ r.stop := by
  rw [iterateProperties, safe_bind, safe_word]
  constructor
  · rintro ⟨⟨-, hhi⟩, -⟩
    exact hhi
  intro hhi
  refine ⟨⟨h.scope.1, hhi⟩, fun n _ => ?_⟩
  split
  · exact safe_ok _
  · refine safe_bind.mpr ⟨nextProperty_checked h.scope, fun prop _ => ?_⟩
    exact safe_bind.mpr ⟨checked_assertProp.safe, fun _ _ => safe_ok _⟩

end XnuXzs.DeviceTree
