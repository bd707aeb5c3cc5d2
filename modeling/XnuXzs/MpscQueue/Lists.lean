import XnuXzs.MpscQueue.Model

/-!
# The elements of a queue

The elements still to invoke stand in a line: the batch, what the drain has seen, and the rest.
Only links to elements whose enqueuer is between its two stores are missing.
-/

namespace XnuXzs.MpscQueue

open Lib List

variable {n : Nat} {s t : State n} {d : Fin n} {i : Nat} {e : Elem n}

/-- The elements of the batch that the drain knows, from the one to be invoked next on. -/
def Drain.held : Drain n → List (Elem n)
  | .next cur _ => [cur]
  | .mark cur tmp _ => cur :: tmp.toList
  | .invoke cur tmp _ => cur :: tmp.toList
  | .invoking _ tmp _ => tmp.toList
  | _ => []

/-- The element behind which the rest of the batch is. -/
def Drain.anchor : Drain n → Option (Elem n)
  | .next cur _ => some cur
  | .mark _ tmp _ => tmp
  | .invoke _ tmp _ => tmp
  | .invoking _ tmp _ => tmp
  | _ => none

def Drain.batchTail : Drain n → Option (Elem n)
  | .next _ tail => some tail
  | .mark _ _ tail => some tail
  | .invoke _ _ tail => some tail
  | .invoking _ _ tail => some tail
  | _ => none

/-- The head of the queue, once the drain has loaded it. -/
def Drain.seen : Drain n → Option (Elem n)
  | .gotHead h => some h
  | .clearedHead h => some h
  | _ => none

def State.line (s : State n) (d : Fin n) : List (Elem n) :=
  (s.drain d).held ++ s.rest d ++ ((s.drain d).seen.toList ++ s.queue d)

theorem Drain.anchor_mem {c : Drain n} {x : Elem n} (h : c.anchor = some x) : x ∈ c.held := by
  cases c with
  | next | invoking =>
    cases h
    exact mem_cons_self
  | mark | invoke =>
    cases h
    exact mem_cons_of_mem _ mem_cons_self
  | _ => cases h

def State.At (s : State n) (i : Nat) (c : Call n) : Prop := s.calls[i]? = some c

/-- The link that a queue or an element holds. -/
def State.ptr (s : State n) (d : Fin n) : Option (Elem n) → Link (Elem n)
  | none => s.headNext d
  | some e => s.next e

/-- The enqueuer `i` has not yet exchanged the tail. -/
def State.InHand (s : State n) (i : Nat) (d : Fin n) (e : Elem n) : Prop :=
  s.At i (.start d e) ∨ s.At i (.cleared d e)

/-- There is an enqueuer of the element between its two stores. -/
def State.Linking (s : State n) (e : Elem n) : Prop :=
  ∃ i d p, s.At i (.swapped d e p)

/-- The links that may be missing. -/
def State.open (s : State n) (d : Fin n) : List (Option (Elem n) × Elem n) :=
  pairs (s.drain d).seen (s.queue d) ++
    (s.drain d).anchor.elim [] fun x => pairs (some x) (s.rest d)

/-- A call that is behind its two stores. -/
def Call.Quiet : Call n → Prop
  | .appended _ _ => True
  | .waking _ => True
  | .done => True
  | _ => False

theorem set_eq_some {calls : List (Call n)} {old new c : Call n} {j : Nat}
    (hold : calls[i]? = some old) :
    (calls.set i new)[j]? = some c ↔ j = i ∧ new = c ∨ j ≠ i ∧ calls[j]? = some c := by
  have hi : i < calls.length := (List.getElem?_eq_some_iff.mp hold).1
  rw [List.getElem?_set]
  by_cases hji : j = i
  · subst hji
    simp [hi]
  · simp [hji, Ne.symm hji]

def SameCalls (s t : State n) : Prop :=
  ∀ j (c : Call n), ¬ c.Quiet → (t.At j c ↔ s.At j c)

theorem SameCalls.set {old new : Call n} (hold : s.At i old) (hq : old.Quiet)
    (hq' : new.Quiet) (ht : t.calls = s.calls.set i new) : SameCalls s t := by
  intro j c hc
  rw [State.At, State.At, ht, set_eq_some hold]
  constructor
  · rintro (⟨-, rfl⟩ | ⟨-, h⟩)
    · exact absurd hq' hc
    · exact h
  intro h
  refine .inr ⟨?_, h⟩
  rintro rfl
  exact hc (Option.some.inj (hold.symm.trans h) ▸ hq)

theorem SameCalls.inHand (h : SameCalls s t) : t.InHand i d e ↔ s.InHand i d e :=
  or_congr (h i _ id) (h i _ id)

theorem SameCalls.linking (h : SameCalls s t) : t.Linking e ↔ s.Linking e :=
  exists_congr fun _ => exists_congr fun _ => exists_congr fun _ => h _ _ id

/-- The tail and the links of a queue follow its line. -/
structure Stands (s : State n) (d : Fin n) : Prop where
  tail : s.tail d = lastOr (s.drain d).seen (s.queue d)
  queueChain : Threaded (s.ptr d) s.Linking (s.drain d).seen (s.queue d)
  headNull : ∀ h, s.drain d = .clearedHead h → s.headNext d = .null
  batchChain : ∀ x, (s.drain d).anchor = some x →
    Threaded (s.ptr d) s.Linking (some x) (s.rest d)
  batchEnd : (s.drain d).anchor = none → s.rest d = []
  batchTail : ∀ x tail, (s.drain d).anchor = some x → (s.drain d).batchTail = some tail →
    lastOr (some x) (s.rest d) = some tail
  known : ∀ e, e ∈ (s.drain d).held ∨ e ∈ (s.drain d).seen → ¬ s.Linking e
  wait : s.drain d = .waitHead → s.queue d ≠ []

structure QueueOk (s : State n) (d : Fin n) : Prop extends Stands s d where
  log : s.appended d = s.invoked d ++ s.line d
  nodup : (s.line d).Nodup

structure Lists (s : State n) : Prop where
  queue : ∀ d, QueueOk s d
  queued : ∀ d e, e ∈ s.line d ↔ s.place e = .queued d
  hand : ∀ i e, s.place e = .hand i ↔ ∃ d, s.InHand i d e
  cleared : ∀ i d e, s.At i (.cleared d e) → s.next e = .null
  linking : ∀ i d e p, s.At i (.swapped d e p) → (p, e) ∈ s.open d
  unique : ∀ i j d d' e p p', s.At i (.swapped d e p) → s.At j (.swapped d' e p') → i = j

/-- What the invariant of a queue reads of the queue itself. -/
structure SameQueue (s t : State n) (d : Fin n) : Prop where
  headNext : t.headNext d = s.headNext d
  tail : t.tail d = s.tail d
  queue : t.queue d = s.queue d
  rest : t.rest d = s.rest d
  appended : t.appended d = s.appended d
  invoked : t.invoked d = s.invoked d

structure SameDrain (a b : Drain n) : Prop where
  held : b.held = a.held
  anchor : b.anchor = a.anchor
  seen : b.seen = a.seen
  batchTail : ∀ x tail, b.anchor = some x → b.batchTail = some tail → a.batchTail = some tail

theorem SameDrain.refl (a : Drain n) : SameDrain a a := ⟨rfl, rfl, rfl, fun _ _ _ h => h⟩

theorem SameQueue.line (h : SameQueue s t d) (hd : SameDrain (s.drain d) (t.drain d)) :
    t.line d = s.line d := by
  rw [State.line, State.line, hd.held, hd.seen, h.rest, h.queue]

theorem SameQueue.open (h : SameQueue s t d) (hd : SameDrain (s.drain d) (t.drain d)) :
    t.open d = s.open d := by
  rw [State.open, State.open, hd.anchor, hd.seen, h.rest, h.queue]

theorem QueueOk.frame (h : QueueOk s d) (hq : SameQueue s t d)
    (hd : SameDrain (s.drain d) (t.drain d))
    (hnull : ∀ x, t.drain d = .clearedHead x → t.headNext d = .null)
    (hwait : t.drain d = .waitHead → s.queue d ≠ []) (hnext : ∀ e ∈ s.line d, t.next e = s.next e)
    (hlinking : ∀ e ∈ s.line d, t.Linking e ↔ s.Linking e) : QueueOk t d := by
  have hqueue : ∀ e ∈ s.queue d, e ∈ s.line d := fun e he => by simp [State.line, he]
  have hrest : ∀ e ∈ s.rest d, e ∈ s.line d := fun e he => by simp [State.line, he]
  have hheld : ∀ e ∈ (s.drain d).held, e ∈ s.line d := fun e he => by simp [State.line, he]
  have hseen : ∀ e ∈ (s.drain d).seen, e ∈ s.line d := fun e he => by
    simp [State.line, Option.mem_def.mp he]
  refine ⟨⟨?_, ?_, hnull, ?_, ?_, ?_, ?_, ?_⟩, ?_, ?_⟩
  · rw [hq.tail, hq.queue, hd.seen, h.tail]
  · rw [hq.queue, hd.seen]
    refine h.queueChain.congr ?_ (fun x hx => hnext x (hqueue x hx)) fun x hx =>
      hlinking x (hqueue x hx)
    cases hs : (s.drain d).seen with
    | none => exact hq.headNext
    | some x => exact hnext x (hseen x hs)
  · intro x hx
    rw [hd.anchor] at hx
    rw [hq.rest]
    exact (h.batchChain x hx).congr (hnext x (hheld x (Drain.anchor_mem hx)))
      (fun y hy => hnext y (hrest y hy)) fun y hy => hlinking y (hrest y hy)
  · intro hx
    rw [hd.anchor] at hx
    rw [hq.rest, h.batchEnd hx]
  · intro x tail hx htail
    have htail' := hd.batchTail x tail hx htail
    rw [hd.anchor] at hx
    rw [hq.rest]
    exact h.batchTail x tail hx htail'
  · intro e he
    rw [hd.held, hd.seen] at he
    rw [hlinking e (he.elim (hheld e) (hseen e))]
    exact h.known e he
  · rw [hq.queue]
    exact hwait
  · rw [hq.appended, hq.invoked, hq.line hd, h.log]
  · rw [hq.line hd]
    exact h.nodup

theorem Lists.frame (h : Lists s) (hq : ∀ d, SameQueue s t d)
    (hd : ∀ d, SameDrain (s.drain d) (t.drain d))
    (hnull : ∀ d x, t.drain d = .clearedHead x → t.headNext d = .null)
    (hwait : ∀ d, t.drain d = .waitHead → s.queue d ≠ []) (hnext : t.next = s.next)
    (hplace : t.place = s.place) (hcalls : SameCalls s t) : Lists t where
  queue := fun d => (h.queue d).frame (hq d) (hd d) (hnull d) (hwait d) (fun e _ => by rw [hnext])
    fun e _ => hcalls.linking
  queued := fun d e => by rw [(hq d).line (hd d), hplace, h.queued]
  hand := fun i e => by
    rw [hplace, h.hand]
    exact exists_congr fun d => hcalls.inHand.symm
  cleared := fun i d e hc => by
    rw [hnext]
    exact h.cleared i d e ((hcalls i _ id).mp hc)
  linking := fun i d e p hc => by
    rw [(hq d).open (hd d)]
    exact h.linking i d e p ((hcalls i _ id).mp hc)
  unique := fun i j d d' e p p' hc hc' =>
    h.unique i j d d' e p p' ((hcalls i _ id).mp hc) ((hcalls j _ id).mp hc')

theorem queueOk_initial (d : Fin n) : QueueOk (initial n) d where
  log := rfl
  nodup := nodup_nil
  tail := rfl
  queueChain := rfl
  headNull := fun _ h => by cases h
  batchChain := fun _ h => by cases h
  batchEnd := fun _ => rfl
  batchTail := fun _ _ h => by cases h
  known := fun e _ ⟨_, _, _, h⟩ => by cases h
  wait := fun h => by cases h

theorem lists_initial (n : Nat) : Lists (initial n) where
  queue := queueOk_initial
  queued := fun d e => by simp [initial, State.line, Drain.held, Drain.seen]
  hand := fun i e => by simp [initial, State.InHand, State.At]
  cleared := fun i d e h => by cases h
  linking := fun i d e p h => by cases h
  unique := fun i j d d' e p p' h => by cases h

end XnuXzs.MpscQueue
