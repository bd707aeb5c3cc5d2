import XnuXzs.DeviceTree.Search

/-!
# From the boot shim to the kernel

A tree written by the emitters is read back by the kernel: each of its nodes is gone over,
iterated and searched as the tree says.
-/

namespace XnuXzs.DeviceTree

open Lib List

variable {r : Region} {p base : Nat} {n t m : Node} {s : Out} {cs : List (List UInt8)}

structure IsComponent (c : List UInt8) : Prop where
  nonempty : c ≠ []
  nulFree : 0 ∉ c
  noSlash : slash ∉ c

def joinPath : List (List UInt8) → List UInt8
  | [] => []
  | [c] => c
  | c :: d :: cs => c ++ slash :: joinPath (d :: cs)

/-- The node at the end of a path. A component that is too long names nothing. -/
def resolve : Nat → Node → List (List UInt8) → Option Nat
  | p, _, [] => some p
  | p, n, c :: cs =>
    if maxEntryName < c.length then none
    else (pick c (placedChildren p n)).elim none fun y => resolve y.1 y.2 cs

theorem getNextComponent_append {buf c : List UInt8} (rest : List UInt8) (hc : slash ∉ c)
    (hlen : buf.length + c.length ≤ maxEntryName) :
    getNextComponent buf (c ++ rest) = getNextComponent (buf ++ c) rest := by
  induction c generalizing buf with
  | nil => rw [nil_append, append_nil]
  | cons b bs ih =>
    have hb : ¬ b = slash := fun h => hc (h ▸ mem_cons_self)
    rw [length_cons] at hlen
    rw [cons_append, getNextComponent, if_neg hb, if_neg (by omega),
      ih (fun h => hc (mem_cons_of_mem b h)) (by rw [length_append]; simp; omega),
      append_assoc, singleton_append]

theorem getNextComponent_long {buf c : List UInt8} (rest : List UInt8) (hc : slash ∉ c)
    (hbuf : buf.length ≤ maxEntryName) (hlen : maxEntryName < buf.length + c.length) :
    (getNextComponent buf (c ++ rest)).1 = [] ∧ (getNextComponent buf (c ++ rest)).2 ≠ [] := by
  induction c generalizing buf with
  | nil =>
    rw [length_nil] at hlen
    omega
  | cons b bs ih =>
    have hb : ¬ b = slash := fun h => hc (h ▸ mem_cons_self)
    rw [length_cons] at hlen
    rw [cons_append, getNextComponent, if_neg hb]
    split
    · exact ⟨rfl, cons_ne_nil _ _⟩
    · exact ih (fun h => hc (mem_cons_of_mem b h)) (by rw [length_append]; simp; omega)
        (by rw [length_append]; simp; omega)

theorem getNextComponent_join {c : List UInt8} (cs : List (List UInt8)) (hc : IsComponent c)
    (hlen : c.length ≤ maxEntryName) :
    getNextComponent [] (joinPath (c :: cs)) = (c, joinPath cs) := by
  have hfits : ([] : List UInt8).length + c.length ≤ maxEntryName := by simpa using hlen
  cases cs with
  | nil =>
    have h := getNextComponent_append [] hc.noSlash hfits
    rw [append_nil] at h
    rw [joinPath, joinPath, h]
    rfl
  | cons d ds =>
    rw [joinPath, getNextComponent_append _ hc.noSlash hfits, nil_append, getNextComponent,
      if_pos rfl]

theorem joinPath_append (c : List UInt8) (cs : List (List UInt8)) :
    ∃ rest, joinPath (c :: cs) = c ++ rest := by
  cases cs with
  | nil => exact ⟨[], (append_nil c).symm⟩
  | cons => exact ⟨_, rfl⟩

theorem lookupLoop_resolve (hcs : ∀ c ∈ cs, IsComponent c) (h : NodeAt r p n)
    (hterm : ∀ m, n.Has m → m.Terminated) :
    lookupLoop r p (joinPath cs) = .ok (resolve p n cs) := by
  induction cs generalizing p n with
  | nil =>
    have hempty : (getNextComponent [] (joinPath [])).1 = [] := rfl
    rw [lookupLoop, dif_pos hempty]
    rfl
  | cons c cs ih =>
    have hc := hcs c mem_cons_self
    rw [lookupLoop, resolve]
    by_cases hlong : maxEntryName < c.length
    · obtain ⟨rest, hrest⟩ := joinPath_append c cs
      have hempty := @getNextComponent_long [] c rest hc.noSlash (by decide) (by simpa using hlong)
      rw [← hrest] at hempty
      rw [dif_pos hempty.1, if_neg hempty.2, if_pos hlong]
    have hfind := h.findChild (fun d hd => hterm d (.child .root hd)) hc.nulFree
    rw [getNextComponent_join cs hc (by omega), dif_neg hc.nonempty, if_neg hlong, hfind, ok_bind]
    cases hpick : pick c (placedChildren p n) with
    | none => rfl
    | some y =>
      have hmem := pick_mem hpick
      have hnode := h.childAt y hmem
      have hrest := ih (fun d hd => hcs d (mem_cons_of_mem c hd)) hnode
        fun m hm => hterm m (hm.ofChild (mem_placed hmem))
      simp [if_neg hnode.pos.ne', hrest]

theorem joinPath_head (hcs : ∀ c ∈ cs, IsComponent c) : (joinPath cs).head? ≠ some slash := by
  cases cs with
  | nil => simp [joinPath]
  | cons c cs =>
    obtain ⟨rest, hrest⟩ := joinPath_append c cs
    have hc := hcs c mem_cons_self
    obtain ⟨b, bs, rfl⟩ := exists_cons_of_ne_nil hc.nonempty
    rw [hrest]
    intro h
    exact hc.noSlash ((Option.some.inj h) ▸ mem_cons_self)

theorem NodeAt.lookupEntry (h : NodeAt r p n) (hterm : ∀ m, n.Has m → m.Terminated)
    (hcs : ∀ c ∈ cs, IsComponent c) :
    lookupEntry r p (joinPath cs) = .ok (resolve p n cs) ∧
      lookupEntry r p (slash :: joinPath cs) = .ok (resolve p n cs) := by
  have hloop := lookupLoop_resolve hcs h hterm
  constructor
  · simp [DeviceTree.lookupEntry, if_neg h.pos.ne', h.inside,
      ok_bind, if_neg (joinPath_head hcs), hloop]
  simp only [DeviceTree.lookupEntry, if_neg h.pos.ne', h.inside, ok_bind, head?_cons,
    if_true, tail_cons, hloop]
  split_ifs with hempty
  · cases cs with
    | nil => rfl
    | cons c cs =>
      obtain ⟨rest, hrest⟩ := joinPath_append c cs
      rw [hrest, append_eq_nil_iff] at hempty
      exact absurd hempty.1 (hcs c mem_cons_self).nonempty
  · rfl

/-- A tree that can be written at the pointer, aligned and not null, below the top of the
address space. -/
structure Written (t : Node) (s : Out) : Prop where
  low : 8 < s.ptr
  aligned : s.ptr % 4 = 0
  writable : t.Writable
  top : s.ptr + t.encode.length < 2 ^ 64

/-- The region of `SecureDTInit` for the tree that was emitted. -/
def blob (h : Written t s) : Region where
  mem := (t.emit s).mem
  start := s.ptr
  stop := (t.emit s).ptr
  low := h.low
  le := by
    rw [emit_put h.writable]
    exact Nat.le_add_right ..
  top := by
    rw [emit_put h.writable]
    exact h.top

theorem blob_nodeAt (h : Written t s) : NodeAt (blob h) s.ptr t := by
  refine ⟨h.aligned, h.writable, le_rfl, ?_, ?_⟩
  · simp only [blob, emit_put h.writable]
    exact le_rfl
  · simp only [blob, emit_put h.writable]
    exact bytesAt_storeBytes ..

/-- The nodes of a tree and where they stand. -/
inductive Node.At (t : Node) (base : Nat) : Nat → Node → Prop where
  | root : At t base base t
  | child {p : Nat} {n : Node} {y : Nat × Node} : At t base p n → y ∈ placedChildren p n →
      At t base y.1 y.2

theorem Node.At.nodeAt (hat : t.At base p n) (h : NodeAt r base t) : NodeAt r p n := by
  induction hat with
  | root => exact h
  | child _ hy ih => exact ih.childAt _ hy

/-- The kernel reads the node at an address as what it is. -/
structure Reads (r : Region) (p : Nat) (n : Node) : Prop where
  skipTree : skipTree r r.stop p = .ok (p + n.encode.length)
  entries : collect (iterateEntries r) (n.children.length + 1) (initEntryIterator r p) =
    .ok ((placedChildren p n).map Prod.fst)
  properties : collect (iterateProperties r) (n.props.length + 1) (initPropertyIterator p) =
    .ok ((placedProps p n).map Prod.fst)
  names : ∀ y ∈ placedProps p n, cString (bytesAt r.mem y.1 propNameLength) = y.2.name
  getProperty : ∀ name, 0 ∉ name → getProperty r p name =
    .ok ((firstNamed name p n).map fun y => (y.1 + propSize, y.2.value.length))
  values : ∀ name y, firstNamed name p n = some y →
    bytesAt r.mem (y.1 + propSize) y.2.value.length = y.2.value
  lookupEntry : (∀ m, n.Has m → m.Terminated) → ∀ cs, (∀ c ∈ cs, IsComponent c) →
    lookupEntry r p (joinPath cs) = .ok (resolve p n cs) ∧
      lookupEntry r p (slash :: joinPath cs) = .ok (resolve p n cs)

theorem NodeAt.reads (h : NodeAt r p n) : Reads r p n where
  skipTree := h.getNextChild
  entries := h.entries
  properties := h.properties
  names := h.property_name
  getProperty := fun _ hname => h.getProperty hname
  values := fun _ _ hy => h.firstNamed_value hy
  lookupEntry := fun hterm _ hcs => h.lookupEntry hterm hcs

theorem lookupEntry_null (r : Region) (path : List UInt8) :
    lookupEntry r 0 path = lookupEntry r r.start path := by
  simp [lookupEntry]

/-- The kernel reads every node of a tree that the shim has written, up to the end of the blob. -/
theorem adt_reads (h : Written t s) :
    (∀ p n, t.At s.ptr p n → Reads (blob h) p n) ∧
      ∀ path, lookupEntry (blob h) 0 path = lookupEntry (blob h) s.ptr path :=
  ⟨fun _ _ hat => (hat.nodeAt (blob_nodeAt h)).reads, lookupEntry_null (blob h)⟩

theorem Node.Has.cases (h : t.Has m) : m = t ∨ ∃ c ∈ t.children, c.Has m := by
  induction h with
  | root => exact .inl rfl
  | child hn hc ih =>
    obtain rfl | ⟨d, hd, hdn⟩ := ih
    · exact .inr ⟨_, hc, .root⟩
    · exact .inr ⟨d, hd, .child hdn hc⟩

theorem x_nonzero : (0 : UInt8) ∉ [0x78] := by decide

/-- "x" without a value; below, "name" with the string "b". -/
def propX : Property := ⟨[0x78], [], x_nonzero, by decide, by decide⟩
def propB : Property := ⟨nameKey, [0x62, 0], by decide, by decide, by decide⟩

/-- A root with two children, the first of which has no name. -/
def namelessFirst : Node := .mk [propX] [.mk [propX] [], .mk [propB] []]

theorem namelessFirst_all {P : Node → Prop} (hroot : P namelessFirst) (hx : P (.mk [propX] []))
    (hb : P (.mk [propB] [])) : ∀ n, namelessFirst.Has n → P n := by
  intro n hn
  obtain rfl | ⟨c, hc, hcn⟩ := hn.cases
  · exact hroot
  simp only [namelessFirst, Node.children, mem_cons, not_mem_nil, or_false] at hc
  obtain rfl | rfl := hc <;> obtain rfl | ⟨d, hd, -⟩ := hcn.cases
  · exact hx
  · exact absurd hd not_mem_nil
  · exact hb
  · exact absurd hd not_mem_nil

theorem namelessFirst_written : Written namelessFirst ⟨fun _ => 0, 16⟩ where
  low := by decide
  aligned := by decide
  writable := namelessFirst_all
    ⟨by decide, by decide, by decide, by decide⟩ ⟨by decide, by decide, by decide, by decide⟩
    ⟨by decide, by decide, by decide, by decide⟩
  top := by decide +kernel

theorem namelessFirst_terminated : ∀ n, namelessFirst.Has n → n.Terminated := by
  apply namelessFirst_all
  · intro x hx
    cases hx
  · intro x hx
    cases hx
  · intro x hx
    cases hx
    decide

theorem adt_reads_namelessFirst : Reads (blob namelessFirst_written) 16 namelessFirst :=
  (adt_reads namelessFirst_written).1 16 namelessFirst .root

/-- The node at the end of a path when every child is looked at. -/
def resolveAny : Nat → Node → List (List UInt8) → Option Nat
  | p, _, [] => some p
  | p, n, c :: cs =>
    ((placedChildren p n).find? fun y => y.2.name = some c).elim none fun y =>
      resolveAny y.1 y.2 cs

/-- The second child is called "b", and it is not found. -/
theorem nameless_hides :
    lookupEntry (blob namelessFirst_written) 0 (joinPath [[0x62]]) = .ok none ∧
      resolveAny 16 namelessFirst [[0x62]] = some 104 := by
  have hb : ∀ c ∈ [[(0x62 : UInt8)]], IsComponent c := by
    intro c hc
    rw [mem_singleton] at hc
    subst hc
    exact ⟨by decide, by decide, by decide⟩
  have hlookup := ((blob_nodeAt namelessFirst_written).lookupEntry namelessFirst_terminated hb).1
  constructor
  · rw [lookupEntry_null]
    apply hlookup.trans
    decide
  · decide

end XnuXzs.DeviceTree
