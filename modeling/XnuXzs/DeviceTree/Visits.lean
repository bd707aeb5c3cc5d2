import XnuXzs.DeviceTree.Guarded

/-!
# What a search of the whole tree visits

A search goes from property to property and from node to node until it finds something. It
is safe exactly when each node and each property that it comes to can be read.
-/

namespace XnuXzs.DeviceTree

open Lib

variable {r : Region} {p q : Nat}

/-- A loop from `p` of at most `k` rounds comes to `q`. -/
inductive Reached (round : Nat → Except Fault (Option Nat × Nat)) : Nat → Nat → Nat → Prop where
  | here {k p : Nat} : Reached round (k + 1) p p
  | next {k p p' q : Nat} : round p = .ok (none, p') → Reached round k p' q →
      Reached round (k + 1) p q

variable {round : Nat → Except Fault (Option Nat × Nat)} {k : Nat}

theorem search_none {found : Option Nat × Nat} (h : search round (k + 1) p = .ok found)
    (hnone : found.1 = none) : ∃ p', round p = .ok (none, p') ∧ search round k p' = .ok found := by
  obtain ⟨⟨hit, p'⟩, hround, h⟩ := bind_ok.mp h
  cases hit with
  | some e =>
    cases h
    cases hnone
  | none => exact ⟨p', hround, h⟩

theorem safe_search : Safe (search round k p) ↔ ∀ q, Reached round k p q → Safe (round q) := by
  induction k generalizing p with
  | zero => exact iff_of_true (safe_ok _) fun q hq => by cases hq
  | succ k ih =>
    rw [search, safe_bind]
    constructor
    · rintro ⟨hfirst, hrest⟩ q hq
      cases hq with
      | here => exact hfirst
      | next hround hq => exact ih.mp (hrest _ hround) q hq
    intro h
    refine ⟨h p .here, ?_⟩
    rintro ⟨hit, p'⟩ hround
    cases hit with
    | some => exact safe_ok _
    | none => exact ih.mpr fun q hq => h q (.next hround hq)

def Forward (round : Nat → Except Fault (Option Nat × Nat)) : Prop :=
  ∀ p q, round p = .ok (none, q) → p ≤ q

theorem Forward.search (hfwd : Forward round) (h : search round k p = .ok (none, q)) : p ≤ q := by
  induction k generalizing p with
  | zero =>
    cases h
    exact le_rfl
  | succ k ih =>
    obtain ⟨p', hround, h⟩ := search_none h rfl
    exact (hfwd p p' hround).trans (ih h)

theorem Forward.reached (hfwd : Forward round) (h : Reached round k p q) : p ≤ q := by
  induction h with
  | here => exact le_rfl
  | next hround _ ih => exact (hfwd _ _ hround).trans ih

variable {enter hit : Nat → Except Fault Bool} {depth m p' : Nat}

theorem propRound_forward : Forward (propRound r hit) := by
  intro p q h
  obtain ⟨found, -, h⟩ := bind_ok.mp h
  cases found with
  | true => cases h
  | false =>
    obtain ⟨length, -, h⟩ := bind_ok.mp h
    cases h
    omega

/-- What a search does with a node that it enters, up to its children. -/
inductive Descends (r : Region) (enter hit : Nat → Except Fault Bool) (m k p : Nat) : Prop where
  | mk (n : Nat) : enter m = .ok true → r.word m = .ok n →
      search (propRound r hit) n (m + nodeSize) = .ok (none, p) →
      r.word (m + nChildrenAt) = .ok k → Descends r enter hit m k p

theorem Descends.forward (h : Descends r enter hit m k p) : m + nodeSize ≤ p := by
  obtain ⟨n, -, -, hprops, -⟩ := h
  exact propRound_forward.search hprops

theorem walk_forward : Forward (walk r enter hit depth) := by
  induction depth with
  | zero =>
    intro p q h
    cases h
  | succ depth ih =>
    intro p q h
    obtain ⟨entered, henter, h⟩ := bind_ok.mp h
    cases entered with
    | false =>
      cases h
      exact le_rfl
    | true =>
      obtain ⟨n, -, h⟩ := bind_ok.mp h
      obtain ⟨⟨found, p'⟩, hprops, h⟩ := bind_ok.mp h
      cases found with
      | some => cases h
      | none =>
        obtain ⟨k, -, h⟩ := bind_ok.mp h
        have hprops' := propRound_forward.search hprops
        exact (Nat.le_add_right p nodeSize).trans (hprops'.trans (ih.search h))

/-- The search from `p` comes to the node at `m`. -/
inductive Visits (r : Region) (enter hit : Nat → Except Fault Bool) : Nat → Nat → Nat → Prop where
  | self {depth p : Nat} : Visits r enter hit (depth + 1) p p
  | child {depth p p' k c m : Nat} : Descends r enter hit p k p' →
      Reached (walk r enter hit depth) k p' c → Visits r enter hit depth c m →
      Visits r enter hit (depth + 1) p m

/-- The search from `p` comes to the property at `q`. -/
def VisitsProp (r : Region) (enter hit : Nat → Except Fault Bool) (depth p q : Nat) : Prop :=
  ∃ m n, Visits r enter hit depth p m ∧ enter m = .ok true ∧ r.word m = .ok n ∧
    Reached (propRound r hit) n (m + nodeSize) q

theorem Visits.le (h : Visits r enter hit depth p m) : p ≤ m := by
  induction h with
  | self => exact le_rfl
  | child hdesc hreach _ ih =>
    have hfwd := hdesc.forward
    have hchild := walk_forward.reached hreach
    omega

theorem VisitsProp.le (h : VisitsProp r enter hit depth p q) : p ≤ q := by
  obtain ⟨m, n, hm, -, -, hq⟩ := h
  have hnode := hm.le
  have hprop := propRound_forward.reached hq
  omega

/-- What is asked of the nodes and of the properties that a search comes to. -/
structure Clear (r : Region) (enter hit : Nat → Except Fault Bool) (depth p : Nat) : Prop where
  nodes : ∀ m, Visits r enter hit depth p m →
    Safe (enter m) ∧ (enter m = .ok true → m + nodeSize ≤ r.stop)
  props : ∀ q, VisitsProp r enter hit depth p q → Safe (propRound r hit q)

theorem Clear.child {c : Nat} (h : Clear r enter hit (depth + 1) p)
    (hdesc : Descends r enter hit p k p') (hreach : Reached (walk r enter hit depth) k p' c) :
    Clear r enter hit depth c where
  nodes := fun m hm => h.nodes m (.child hdesc hreach hm)
  props := by
    rintro q ⟨m, n, hm, hrest⟩
    exact h.props q ⟨m, n, .child hdesc hreach hm, hrest⟩

/-- A search that may go deep enough is safe if everything it comes to is clear. -/
theorem Clear.safe (h : Clear r enter hit depth p) (hlo : r.start ≤ p) (hdepth : 0 < depth)
    (henough : r.stop + 1 < p + depth) : Safe (walk r enter hit depth p) := by
  induction depth generalizing p with
  | zero => exact absurd hdepth (lt_irrefl 0)
  | succ depth ih =>
    obtain ⟨henter, hheader⟩ := h.nodes p .self
    refine safe_bind.mpr ⟨henter, fun entered hentered => ?_⟩
    cases entered with
    | false => exact safe_ok _
    | true =>
      have hin := hheader hentered
      simp only [nodeSize] at hin
      refine safe_bind.mpr ⟨safe_word.mpr ⟨hlo, by omega⟩, fun n hn => ?_⟩
      refine safe_bind.mpr ⟨safe_search.mpr fun q hq => ?_, ?_⟩
      · exact h.props q ⟨p, n, .self, hentered, hn, hq⟩
      rintro ⟨found, p'⟩ hprops
      cases found with
      | some => exact safe_ok _
      | none =>
        refine safe_bind.mpr ⟨safe_word.mpr (by simp only [nChildrenAt]; omega), fun k hk => ?_⟩
        have hdesc : Descends r enter hit p k p' := ⟨n, hentered, hn, hprops, hk⟩
        have hfwd := hdesc.forward
        simp only [nodeSize] at hfwd
        refine safe_search.mpr fun c hc => ?_
        have hchild := walk_forward.reached hc
        exact ih (h.child hdesc hc) (by omega) (by omega) (by omega)

theorem safe_walk_self (h : Safe (walk r enter hit (depth + 1) p)) : Safe (enter p) ∧
    (enter p = .ok true → Safe (r.word p) ∧
      ∀ n, r.word p = .ok n → Safe (search (propRound r hit) n (p + nodeSize))) := by
  obtain ⟨henter, hrest⟩ := safe_bind.mp h
  refine ⟨henter, fun hentered => ?_⟩
  obtain ⟨hword, hrest⟩ := safe_bind.mp (hrest true hentered)
  exact ⟨hword, fun n hn => (safe_bind.mp (hrest n hn)).1⟩

theorem Descends.safe (hdesc : Descends r enter hit p k p')
    (h : Safe (walk r enter hit (depth + 1) p)) : Safe (search (walk r enter hit depth) k p') := by
  obtain ⟨n, hentered, hn, hprops, hk⟩ := hdesc
  have hrest := (safe_bind.mp ((safe_bind.mp ((safe_bind.mp h).2 true hentered)).2 n hn)).2 _ hprops
  exact (safe_bind.mp hrest).2 k hk

theorem safe_visits (hvisit : Visits r enter hit depth p m)
    (h : Safe (walk r enter hit depth p)) : ∃ d, Safe (walk r enter hit (d + 1) m) := by
  induction hvisit with
  | self => exact ⟨_, h⟩
  | child hdesc hreach _ ih => exact ih (safe_search.mp (hdesc.safe h) _ hreach)

/-- A search is safe exactly when everything it comes to is clear; a safe search of a node shows
that its header is inside. -/
theorem safe_walk (hlo : r.start ≤ p) (hdepth : 0 < depth) (henough : r.stop + 1 < p + depth)
    (hheader : ∀ d m, Safe (walk r enter hit (d + 1) m) → enter m = .ok true →
      m + nodeSize ≤ r.stop) :
    Safe (walk r enter hit depth p) ↔ Clear r enter hit depth p := by
  refine ⟨fun h => ⟨fun m hm => ?_, ?_⟩, fun h => h.safe hlo hdepth henough⟩
  · obtain ⟨d, hd⟩ := safe_visits hm h
    exact ⟨(safe_walk_self hd).1, hheader d m hd⟩
  · rintro q ⟨m, n, hm, hentered, hn, hq⟩
    obtain ⟨d, hd⟩ := safe_visits hm h
    exact safe_search.mp (((safe_walk_self hd).2 hentered).2 n hn) q hq

variable {name : List UInt8} {value : Option (List UInt8)}

theorem safe_entryEnter (hlo : r.start ≤ p) : Safe (entryEnter r p) := by
  refine safe_bind.mpr ⟨checked_assertIn.safe, fun _ hin => ?_⟩
  have hhi := (assertIn_eq_ok.mp hin).2
  simp only [nodeSize] at hhi
  exact safe_bind.mpr ⟨safe_word.mpr ⟨hlo, by omega⟩, fun _ _ => safe_ok _⟩

theorem entryEnter_header {b : Bool} (h : entryEnter r p = .ok b) : p + nodeSize ≤ r.stop :=
  (assertIn_eq_ok.mp (seq_ok.mp h).1).2

def Named (r : Region) (name : List UInt8) (q : Nat) : Prop :=
  assertProp r q = .ok () ∧ strEq r q name = .ok true

theorem safe_entryRound (hname : name.length < propNameLength) :
    Safe (propRound r (entryHit r name value) q) ↔
      ∀ v, value = some v → Named r name q → ¬ RunsOff r (q + propSize) v := by
  rw [propRound, safe_bind]
  constructor
  · rintro ⟨hhit, -⟩ v rfl ⟨hprop, hsame⟩
    have hlo := (checked_assertProp.of_ok hprop).1
    have hcmp := (safe_bind.mp ((safe_bind.mp hhit).2 () hprop)).2 true hsame
    exact (safe_strEq (by omega)).mp hcmp
  intro h
  refine ⟨safe_bind.mpr ⟨checked_assertProp.safe, fun _ hprop => ?_⟩, fun found hfound => ?_⟩
  · obtain ⟨hlo, hhi⟩ := checked_assertProp.of_ok hprop
    simp only [propNameLength, propSize] at hname hhi
    refine safe_bind.mpr ⟨(checked_strEq hlo (by omega)).safe, fun same hsame => ?_⟩
    cases same with
    | false => exact safe_ok _
    | true =>
      cases value with
      | none => exact safe_ok _
      | some v => exact (safe_strEq (by omega)).mpr (h v rfl ⟨hprop, hsame⟩)
  · obtain ⟨hlo, hhi⟩ := checked_assertProp.of_ok (seq_ok.mp hfound).1
    simp only [propSize] at hhi
    cases found with
    | true => exact safe_ok _
    | false =>
      refine safe_bind.mpr ⟨safe_word.mpr ?_, fun _ _ => safe_ok _⟩
      exact ⟨by omega, by simp only [lengthAt]; omega⟩

theorem start_enough (r : Region) : 0 < r.stop ∧ r.stop + 1 < r.start + r.stop := by
  have hlow := r.low
  have hle := r.le
  omega

theorem safe_findEntry (hname : name.length < propNameLength) :
    Safe (findEntry r name value) ↔
      ∀ q, VisitsProp r (entryEnter r) (entryHit r name value) r.stop r.start q →
        ∀ v, value = some v → Named r name q → ¬ RunsOff r (q + propSize) v := by
  obtain ⟨hpos, henough⟩ := start_enough r
  rw [findEntry, safe_map, safe_walk le_rfl hpos henough fun _ m _ h => entryEnter_header h]
  constructor
  · intro h q hq
    exact (safe_entryRound hname).mp (h.props q hq)
  · intro h
    refine ⟨fun m hm => ⟨safe_entryEnter hm.le, entryEnter_header⟩, fun q hq => ?_⟩
    exact (safe_entryRound hname).mpr (h q hq)

variable {value s : List UInt8}

/-- The bytes of the value that is searched for go on behind the end of the region. -/
def CutOff (r : Region) (q : Nat) (value : List UInt8) : Prop :=
  r.stop - q < value.length ∧ RunsOff r q value

theorem strnEq_short (hname : name.length < propNameLength) : strnEq r q name = strEq r q name :=
  if_pos hname

theorem strEq_ne_panics : strEq r p s ≠ .error .panics := by
  induction s generalizing p with
  | nil =>
    rw [strEq, Region.byte]
    split <;> rintro ⟨⟩
  | cons c cs ih =>
    rw [strEq, Region.byte]
    split
    · rw [ok_bind]
      split
      · exact ih
      · rintro ⟨⟩
    · rintro ⟨⟩

theorem strEq_ok (h : Safe (strEq r p s)) : ∃ same, strEq r p s = .ok same := by
  cases hcmp : strEq r p s with
  | ok same => exact ⟨same, rfl⟩
  | error e =>
    rw [hcmp] at h
    cases h
    exact absurd hcmp strEq_ne_panics

theorem nodeHit_unnamed (hname : name.length < propNameLength) (h : strEq r q name = .ok false) :
    nodeHit r name value q = .ok false := by
  rw [nodeHit, strnEq_short hname, h]
  rfl

theorem safe_nodeHit (hlo : r.start ≤ q) (hname : name.length < propNameLength)
    (hhi : q + propSize ≤ r.stop) :
    Safe (nodeHit r name value q) ↔
      (strEq r q name = .ok true → r.word (q + lengthAt) = .ok value.length →
        ¬ CutOff r (q + propSize) value) := by
  have hwidth : name.length < 32 := hname
  simp only [propSize] at hhi
  have hcmp := checked_strEq hlo (by omega : q + name.length < r.stop)
  rw [nodeHit, strnEq_short hname, safe_bind]
  constructor
  · rintro ⟨-, h⟩ hsame hlength
    have h := (safe_bind.mp (h true hsame)).2 _ hlength
    rw [if_pos rfl] at h
    exact (safe_memEq (by omega)).mp h
  intro h
  refine ⟨hcmp.safe, fun same hsame => ?_⟩
  cases same with
  | false => exact safe_ok _
  | true =>
    have hword : Safe (r.word (q + lengthAt)) := safe_word.mpr ⟨by omega, by rw [lengthAt]; omega⟩
    refine safe_bind.mpr ⟨hword, fun length hlength => ?_⟩
    split_ifs with heq
    · exact (safe_memEq (by omega)).mpr (h hsame (heq ▸ hlength))
    · exact safe_ok _

/-- A property visited must have its header inside; its length is read unchecked. -/
theorem safe_nodeRound (hlo : r.start ≤ q) (hname : name.length < propNameLength) :
    Safe (propRound r (nodeHit r name value) q) ↔ q + propSize ≤ r.stop ∧
      (strEq r q name = .ok true → r.word (q + lengthAt) = .ok value.length →
        ¬ CutOff r (q + propSize) value) := by
  have hword : Safe (r.word (q + lengthAt)) ↔ q + propSize ≤ r.stop := by
    rw [safe_word, lengthAt, propSize]
    omega
  rw [propRound, safe_bind]
  constructor
  · rintro ⟨hhit, hrest⟩
    have hheader : q + propSize ≤ r.stop := by
      have hhit' := hhit
      rw [nodeHit, strnEq_short hname, safe_bind] at hhit'
      obtain ⟨same, hsame⟩ := strEq_ok hhit'.1
      cases same with
      | true => exact hword.mp (safe_bind.mp (hhit'.2 true hsame)).1
      | false => exact hword.mp (safe_bind.mp (hrest false (nodeHit_unnamed hname hsame))).1
    exact ⟨hheader, (safe_nodeHit hlo hname hheader).mp hhit⟩
  · rintro ⟨hheader, hvalue⟩
    refine ⟨(safe_nodeHit hlo hname hheader).mpr hvalue, fun found _ => ?_⟩
    cases found with
    | true => exact safe_ok _
    | false => exact safe_bind.mpr ⟨hword.mpr hheader, fun _ _ => safe_ok _⟩

theorem node_header (hname : name.length < propNameLength) {depth m : Nat}
    (h : Safe (walk r (fun _ => .ok true) (nodeHit r name value) (depth + 1) m)) :
    m + nodeSize ≤ r.stop := by
  obtain ⟨hword, hprops⟩ := (safe_walk_self h).2 rfl
  obtain ⟨hlo, hhi⟩ := safe_word.mp hword
  have hn : r.word m = .ok (u32At r.mem m).toNat := if_pos ⟨hlo, hhi⟩
  cases hcount : (u32At r.mem m).toNat with
  | zero =>
    rw [hcount] at hn
    have hinside := (safe_bind.mp h).2 true rfl
    have hchildren := (safe_bind.mp ((safe_bind.mp hinside).2 0 hn)).2 _ rfl
    have hin := (safe_word.mp (safe_bind.mp hchildren).1).2
    exact hin
  | succ n =>
    rw [hcount] at hn
    have hfirst := safe_search.mp (hprops _ hn) _ .here
    have hin := ((safe_nodeRound (by omega) hname).mp hfirst).1
    omega

/-- Every node and property that the search comes to is inside, and no value of the size
searched for is cut off while it is still the same. -/
theorem safe_findNode (hname : name.length < propNameLength) :
    Safe (findNode r name value) ↔
      (∀ m, Visits r (fun _ => .ok true) (nodeHit r name value) r.stop r.start m →
        m + nodeSize ≤ r.stop) ∧
      ∀ q, VisitsProp r (fun _ => .ok true) (nodeHit r name value) r.stop r.start q →
        q + propSize ≤ r.stop ∧
          (strEq r q name = .ok true → r.word (q + lengthAt) = .ok value.length →
            ¬ CutOff r (q + propSize) value) := by
  obtain ⟨hpos, henough⟩ := start_enough r
  rw [findNode, safe_map, safe_walk le_rfl hpos henough fun _ m h _ => node_header hname h]
  constructor
  · rintro ⟨hnodes, hprops⟩
    refine ⟨fun m hm => (hnodes m hm).2 rfl, fun q hq => ?_⟩
    exact (safe_nodeRound hq.le hname).mp (hprops q hq)
  · rintro ⟨hnodes, hprops⟩
    refine ⟨fun m hm => ⟨safe_ok _, fun _ => hnodes m hm⟩, fun q hq => ?_⟩
    exact (safe_nodeRound hq.le hname).mpr (hprops q hq)

end XnuXzs.DeviceTree
