import XnuXzs.DeviceTree.Walk
import Mathlib.Data.List.TakeWhile

/-!
# Names, paths and iterators on a tree that was written

What the lookups are to find, said on the tree: the first property of a name, and the node at
the end of a path. A child that has no name ends the search among its siblings.
-/

namespace XnuXzs.DeviceTree

open Lib List

variable {r : Region} {p e q i : Nat} {n : Node} {buf : List UInt8} {xs : List Property}

def firstNamed (name : List UInt8) (p : Nat) (n : Node) : Option (Nat × Property) :=
  (placed encodeProp (p + nodeSize) n.props).find? fun y => y.2.name = name

theorem findProp_placed {name : List UInt8} (hname : 0 ∉ name)
    (h : ∀ y ∈ placed encodeProp p xs, PropAt r y.1 y.2) :
    findProp r name xs.length p = .ok (((placed encodeProp p xs).find? fun y => y.2.name = name).map
      fun y => (y.1 + propSize, y.2.value.length)) := by
  induction xs generalizing p with
  | nil => rfl
  | cons x xs ih =>
    have hx := h (p, x) mem_cons_self
    rw [length_cons, findProp, hx.assertProp, ok_bind, hx.name hname, ok_bind, placed]
    by_cases heq : x.name = name
    · rw [find?_cons_of_pos (by simpa using heq), decide_eq_true heq, if_pos rfl, hx.length]
      rfl
    · rw [find?_cons_of_neg (by simpa using heq), decide_eq_false heq,
        if_neg Bool.false_ne_true, hx.nextProp, ok_bind,
        ih fun y hy => h y (mem_cons_of_mem (p, x) hy)]

theorem NodeAt.getProperty (h : NodeAt r p n) {name : List UInt8} (hname : 0 ∉ name) :
    getProperty r p name =
      .ok ((firstNamed name p n).map fun y => (y.1 + propSize, y.2.value.length)) := by
  rw [DeviceTree.getProperty, if_neg h.pos.ne', h.header, ok_bind, h.nProperties, ok_bind,
    findProp_placed hname h.propAt, firstNamed]

theorem NodeAt.firstNamed_value (h : NodeAt r p n) {name : List UInt8} {y : Nat × Property}
    (hy : firstNamed name p n = some y) :
    bytesAt r.mem (y.1 + propSize) y.2.value.length = y.2.value :=
  (h.propAt y (mem_of_find?_eq_some hy)).parts.2.2.eq

/-- The string that a value holds, up to its NUL. -/
def cString (value : List UInt8) : List UInt8 := value.takeWhile (· ≠ 0)

theorem cString_nulFree (value : List UInt8) : 0 ∉ cString value := fun h => by
  simpa using mem_takeWhile_imp h

theorem cString_eq {value : List UInt8} (h : 0 ∈ value) :
    ∃ rest, value = cString value ++ 0 :: rest := by
  induction value with
  | nil => cases h
  | cons b bs ih =>
    by_cases hb : b = 0
    · subst hb
      exact ⟨bs, by simp [cString]⟩
    obtain ⟨rest, hrest⟩ := ih ((mem_cons.mp h).resolve_left fun h => hb h.symm)
    refine ⟨rest, ?_⟩
    rw [cString, takeWhile_cons_of_pos (by simpa using hb), cons_append, List.cons.injEq]
    exact ⟨rfl, hrest⟩

/-- The name of a node: the string in its first property called "name". -/
def Node.name (n : Node) : Option (List UInt8) :=
  (n.props.find? fun x => x.name = nameKey).map fun x => cString x.value

/-- The name of a node, if it has one, ends with a NUL. -/
def Node.Terminated (n : Node) : Prop :=
  ∀ x, (n.props.find? fun x => x.name = nameKey) = some x → 0 ∈ x.value

theorem placed_find {enc : Property → List UInt8} (q : Nat) (xs : List Property)
    (name : List UInt8) :
    ((placed enc q xs).find? fun y => y.2.name = name).map Prod.snd =
      xs.find? fun x => x.name = name := by
  induction xs generalizing q with
  | nil => rfl
  | cons x xs ih =>
    rw [placed]
    by_cases hx : x.name = name
    · rw [find?_cons_of_pos (by simpa using hx), find?_cons_of_pos (by simpa using hx)]
      rfl
    · rw [find?_cons_of_neg (by simpa using hx), find?_cons_of_neg (by simpa using hx), ih]

/-- The child that a component names. -/
def pick (component : List UInt8) : List (Nat × Node) → Option (Nat × Node)
  | [] => none
  | y :: ys =>
    match y.2.name with
    | none => none
    | some name => if name = component then some y else pick component ys

theorem pick_mem {component : List UInt8} {ys : List (Nat × Node)} {y : Nat × Node}
    (h : pick component ys = some y) : y ∈ ys := by
  induction ys with
  | nil => cases h
  | cons z zs ih =>
    rw [pick] at h
    split at h
    · cases h
    split at h
    · cases h
      exact mem_cons_self
    · exact mem_cons_of_mem z (ih h)

/-- What the loop of `FindChild` learns about a child. -/
inductive NameRead (r : Region) (buf : List UInt8) (q : Nat) : Option (List UInt8) → Prop where
  | absent : getProperty r q nameKey = .ok none → NameRead r buf q none
  | read {str size : Nat} {name : List UInt8} :
      getProperty r q nameKey = .ok (some (str, size)) →
      strEq r str buf = .ok (decide (name = buf)) → NameRead r buf q (some name)

theorem NodeAt.nameRead (h : NodeAt r p n) (hterm : n.Terminated)
    (hbuf : 0 ∉ buf) : NameRead r buf p n.name := by
  have hget := h.getProperty (by decide : 0 ∉ nameKey)
  have hfind := @placed_find encodeProp (p + nodeSize) n.props nameKey
  rw [← firstNamed] at hfind
  rw [Node.name]
  cases hfirst : firstNamed nameKey p n with
  | none =>
    rw [hfirst] at hget hfind
    rw [← hfind]
    exact .absent hget
  | some y =>
    rw [hfirst] at hget hfind
    rw [← hfind]
    obtain ⟨rest, hrest⟩ := cString_eq (hterm y.2 hfind.symm)
    have hvalue : Holds r (y.1 + propSize) (cString y.2.value ++ 0 :: rest) :=
      hrest ▸ (h.propAt y (mem_of_find?_eq_some hfirst)).parts.2.2
    exact .read hget (strEq_of_holds hvalue (cString_nulFree _) hbuf)

theorem NameRead.round {q : Nat} {name : Option (List UInt8)}
    (h : NameRead r buf q name) (next : Except Fault Nat) :
    (getProperty r q nameKey >>= fun found =>
      match found with
      | none => pure 0
      | some (str, _) => strEq r str buf >>= fun same => if same then pure q else next) =
      name.elim (.ok 0) fun name => if name = buf then .ok q else next := by
  cases h with
  | absent hget =>
    rw [hget]
    rfl
  | @read str size name hget hcmp =>
    rw [hget, ok_bind]
    dsimp only
    rw [hcmp, ok_bind]
    by_cases heq : name = buf
    · rw [decide_eq_true heq, Option.elim_some, if_pos rfl, if_pos heq]
      rfl
    · rw [decide_eq_false heq, Option.elim_some, if_neg Bool.false_ne_true, if_neg heq]

theorem pick_round (buf : List UInt8) (y : Nat × Node) (ys : List (Nat × Node)) :
    (.ok (((pick buf (y :: ys)).map Prod.fst).getD 0) : Except Fault Nat) =
      y.2.name.elim (.ok 0) fun name =>
        if name = buf then .ok y.1 else .ok (((pick buf ys).map Prod.fst).getD 0) := by
  rw [pick]
  cases y.2.name with
  | none => rfl
  | some name =>
    rw [Option.elim_some]
    dsimp only
    split <;> rfl

theorem findChildLoop_placed (hbuf : 0 ∉ buf) {c : Node} {cs : List Node}
    (h : ∀ y ∈ placed Node.encode p (c :: cs), NodeAt r y.1 y.2 ∧ y.2.Terminated) :
    findChildLoop r buf cs.length p =
      .ok (((pick buf (placed Node.encode p (c :: cs))).map Prod.fst).getD 0) := by
  induction cs generalizing p c with
  | nil =>
    obtain ⟨hnode, hterm⟩ := h (p, c) mem_cons_self
    rw [placed, pick_round]
    exact (hnode.nameRead hterm hbuf).round (.ok 0)
  | cons d ds ih =>
    obtain ⟨hnode, hterm⟩ := h (p, c) mem_cons_self
    have hrest := @ih (p + c.encode.length) d fun y hy => h y (mem_cons_of_mem _ hy)
    rw [placed, pick_round, ← hrest,
      ← ok_bind (p + c.encode.length) (findChildLoop r buf ds.length),
      ← hnode.getNextChild]
    exact (hnode.nameRead hterm hbuf).round _

def placedChildren (p : Nat) (n : Node) : List (Nat × Node) :=
  placed Node.encode (childrenFrom p n) n.children

theorem NodeAt.findChild (h : NodeAt r p n) (hterm : ∀ c ∈ n.children, c.Terminated)
    (hbuf : 0 ∉ buf) :
    findChild r p buf = .ok (((pick buf (placedChildren p n)).map Prod.fst).getD 0) := by
  have hall : ∀ y ∈ placed Node.encode (childrenFrom p n) n.children,
      NodeAt r y.1 y.2 ∧ y.2.Terminated :=
    fun y hy => ⟨h.childAt y hy, hterm _ (mem_placed hy)⟩
  rw [DeviceTree.findChild, h.header, ok_bind, h.nChildren, ok_bind, placedChildren]
  cases hcs : n.children with
  | nil => rfl
  | cons c cs =>
    rw [hcs] at hall
    rw [length_cons, if_neg (Nat.succ_ne_zero _), h.skipProperties, ok_bind,
      Nat.add_sub_cancel, findChildLoop_placed hbuf hall]

/-- Calls of an iterator until it is done, at most as many as the bound. -/
def collect {σ : Type} (next : σ → Except Fault (Option Nat × σ)) :
    Nat → σ → Except Fault (List Nat)
  | 0, _ => .error .unfinished
  | k + 1, iter => next iter >>= fun found =>
    match found.1 with
    | none => .ok []
    | some e => (collect next k found.2).map (e :: ·)

theorem collect_done {σ : Type} {next : σ → Except Fault (Option Nat × σ)} {iter iter' : σ}
    (k : Nat) (h : next iter = .ok (none, iter')) : collect next (k + 1) iter = .ok [] := by
  rw [collect, h, ok_bind]

theorem collect_next {σ : Type} {next : σ → Except Fault (Option Nat × σ)} {iter iter' : σ}
    {k : Nat} {es : List Nat} (h : next iter = .ok (some e, iter'))
    (hrest : collect next k iter' = .ok es) : collect next (k + 1) iter = .ok (e :: es) := by
  rw [collect, h, ok_bind]
  rw [hrest]
  rfl

theorem NodeAt.collect_from (h : NodeAt r p n) {saved : List (Nat × Nat × Nat)} {cs : List Node}
    (hcount : i + cs.length = n.children.length)
    (hat : ∀ y ∈ placed Node.encode q cs, NodeAt r y.1 y.2)
    (hnext : nextEntry r ⟨p, e, i, saved⟩ = .ok q) :
    collect (iterateEntries r) (cs.length + 1) ⟨p, e, i, saved⟩ =
      .ok ((placed Node.encode q cs).map Prod.fst) := by
  induction cs generalizing q e i with
  | nil =>
    rw [length_nil] at hcount
    refine @collect_done _ _ _ ⟨p, e, i, saved⟩ 0 ?_
    rw [iterateEntries, h.nChildren, ok_bind, if_pos (by dsimp only; omega)]
    rfl
  | cons c cs ih =>
    rw [length_cons] at hcount
    have hc := hat (q, c) mem_cons_self
    have hstep : iterateEntries r ⟨p, e, i, saved⟩ = .ok (some q, ⟨p, q, i + 1, saved⟩) := by
      rw [iterateEntries, h.nChildren, ok_bind, if_neg (by dsimp only; omega), hnext, ok_bind,
        hc.inside, ok_bind]
      rfl
    refine collect_next hstep (ih (by omega) (fun y hy => hat y (mem_cons_of_mem _ hy)) ?_)
    exact (if_neg (Nat.succ_ne_zero i)).trans hc.getNextChild

theorem NodeAt.entries (h : NodeAt r p n) :
    collect (iterateEntries r) (n.children.length + 1) (initEntryIterator r p) =
      .ok ((placedChildren p n).map Prod.fst) := by
  rw [initEntryIterator, if_neg h.pos.ne']
  exact h.collect_from (zero_add _) h.childAt ((if_pos rfl).trans h.skipProperties)

def placedProps (p : Nat) (n : Node) : List (Nat × Property) :=
  placed encodeProp (p + nodeSize) n.props

theorem NodeAt.collectProps_from (h : NodeAt r p n) (hcount : i + xs.length = n.props.length)
    (hat : ∀ y ∈ placed encodeProp q xs, PropAt r y.1 y.2)
    (hnext : nextProperty r ⟨p, e, i⟩ = .ok q) :
    collect (iterateProperties r) (xs.length + 1) ⟨p, e, i⟩ =
      .ok ((placed encodeProp q xs).map Prod.fst) := by
  induction xs generalizing q e i with
  | nil =>
    rw [length_nil] at hcount
    refine @collect_done _ _ _ ⟨p, e, i⟩ 0 ?_
    rw [iterateProperties, h.nProperties, ok_bind, if_pos (by dsimp only; omega)]
    rfl
  | cons x xs ih =>
    rw [length_cons] at hcount
    have hx := hat (q, x) mem_cons_self
    have hstep : iterateProperties r ⟨p, e, i⟩ = .ok (some q, ⟨p, q, i + 1⟩) := by
      rw [iterateProperties, h.nProperties, ok_bind, if_neg (by dsimp only; omega), hnext, ok_bind,
        hx.assertProp, ok_bind]
      rfl
    refine collect_next hstep (ih (by omega) (fun y hy => hat y (mem_cons_of_mem _ hy)) ?_)
    exact (if_neg (Nat.succ_ne_zero i)).trans hx.nextProp

theorem NodeAt.properties (h : NodeAt r p n) :
    collect (iterateProperties r) (n.props.length + 1) (initPropertyIterator p) =
      .ok ((placedProps p n).map Prod.fst) :=
  h.collectProps_from (zero_add _) h.propAt (if_pos rfl)

theorem cString_append {cs rest : List UInt8} (h : 0 ∉ cs) : cString (cs ++ 0 :: rest) = cs := by
  rw [cString, takeWhile_append_of_pos]
  · simp
  · intro b hb
    simpa using fun h0 : b = 0 => h (h0 ▸ hb)

theorem NodeAt.property_name (h : NodeAt r p n) :
    ∀ y ∈ placedProps p n, cString (bytesAt r.mem y.1 propNameLength) = y.2.name := by
  intro y hy
  have hname := (h.propAt y hy).parts.1.eq
  obtain ⟨rest, hrest⟩ := strCopyPad_eq y.2
  rw [strCopyPad_length] at hname
  rw [propNameLength, hname, hrest, cString_append y.2.nulFree]

end XnuXzs.DeviceTree
