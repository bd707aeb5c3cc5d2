import XnuXzs.DeviceTree.Layout

/-!
# Walking a tree that was written

On the bytes of a tree the walkers arrive where the next node begins, the iterators go through
it in order, and the searches find the first match.
-/

namespace XnuXzs.DeviceTree

open Lib List

variable {r : Region} {p : Nat} {n : Node}

structure NodeAt (r : Region) (p : Nat) (n : Node) : Prop where
  aligned : p % 4 = 0
  writable : n.Writable
  holds : Holds r p n.encode

def childrenFrom (p : Nat) (n : Node) : Nat :=
  p + nodeSize + (n.props.flatMap encodeProp).length

theorem flatMap_length_mod {α : Type} {enc : α → List UInt8} {xs : List α}
    (h : ∀ x ∈ xs, (enc x).length % 4 = 0) : (xs.flatMap enc).length % 4 = 0 := by
  induction xs with
  | nil => rfl
  | cons x xs ih =>
    have hx := h x mem_cons_self
    have hxs := ih fun y hy => h y (mem_cons_of_mem x hy)
    rw [flatMap_cons, length_append]
    omega

theorem encodeProp_length_mod {x : Property} (hx : x.value.length ≤ 2 ^ 32 - 4) :
    (encodeProp x).length % 4 = 0 := by
  rw [encodeProp_length hx, propSize]
  omega

theorem props_length_mod (hn : n.Fits) : (n.props.flatMap encodeProp).length % 4 = 0 :=
  flatMap_length_mod fun x hx => encodeProp_length_mod (hn.padded x hx)

theorem nodeHeader_length (n : Node) : (nodeHeader n).length = nodeSize := by
  rw [nodeHeader, length_append, leBytes_length, leBytes_length, nodeSize]

theorem encode_length (n : Node) : n.encode.length = nodeSize +
    ((n.props.flatMap encodeProp).length + (n.children.flatMap Node.encode).length) := by
  rw [Node.encode_eq, length_append, length_append, nodeHeader_length]

theorem encode_length_mod : n.Writable → n.encode.length % 4 = 0 := by
  induction n using Node.induct with
  | h n ih =>
    intro hn
    have hprops := props_length_mod hn.self
    have hchildren := flatMap_length_mod fun c hc => ih c hc (hn.child hc)
    rw [encode_length, nodeSize]
    omega

namespace NodeAt

section

variable (h : NodeAt r p n)
include h

theorem parts : Holds r p (nodeHeader n) ∧
    Holds r (p + nodeSize) (n.props.flatMap encodeProp) ∧
    Holds r (childrenFrom p n) (n.children.flatMap Node.encode) := by
  have holds := h.holds
  rw [Node.encode_eq] at holds
  obtain ⟨hheader, hrest⟩ := holds_append holds
  rw [nodeHeader_length] at hrest
  obtain ⟨hprops, hchildren⟩ := holds_append hrest
  exact ⟨hheader, hprops, hchildren⟩

theorem nProperties : r.word p = .ok n.props.length :=
  (holds_append h.parts.1).1.word h.writable.self.props_lt

theorem nChildren : r.word (p + nChildrenAt) = .ok n.children.length := by
  have hcount := (holds_append h.parts.1).2
  rw [leBytes_length] at hcount
  exact hcount.word h.writable.self.children_lt

theorem pos : 0 < p := by
  have hlow := r.low
  have hlo := h.holds.lo
  omega

theorem inside : assertIn r p = .ok () :=
  assertIn_ok h.holds.lo (by have := h.holds.hi; omega)

theorem header : assertIn r (p + nodeSize) = .ok () := by
  have hlo := h.holds.lo
  have hhi := h.parts.1.hi
  rw [nodeHeader_length] at hhi
  exact assertIn_ok (by omega) hhi

theorem propAt : ∀ y ∈ placed encodeProp (p + nodeSize) n.props, PropAt r y.1 y.2 := by
  have haligned := h.aligned
  have hpadded := h.writable.self.padded
  intro y hy
  obtain ⟨hy4, hholds⟩ := holds_placed (fun x hx => encodeProp_length_mod (hpadded x hx))
    (by rw [nodeSize]; omega) h.parts.2.1 y hy
  exact ⟨hy4, hpadded _ (mem_placed hy), hholds⟩

theorem childAt : ∀ y ∈ placed Node.encode (childrenFrom p n) n.children, NodeAt r y.1 y.2 := by
  have haligned := h.aligned
  have hprops := props_length_mod h.writable.self
  intro y hy
  obtain ⟨hy4, hholds⟩ := holds_placed (fun c hc => encode_length_mod (h.writable.child hc))
    (by rw [childrenFrom, nodeSize]; omega) h.parts.2.2 y hy
  exact ⟨hy4, h.writable.child (mem_placed hy), hholds⟩

end

theorem skipProperties (h : NodeAt r p n) : skipProperties r p = .ok (childrenFrom p n) := by
  have hsome : n.props.length ≠ 0 := fun h0 =>
    h.writable.self.some (eq_nil_of_length_eq_zero h0)
  have htimes : times (nextProp r) n.props.length (p + nodeSize) = .ok (childrenFrom p n) :=
    times_placed fun y hy => (h.propAt y hy).nextProp
  have hchildren := h.parts.2.2
  have hend : assertIn r (childrenFrom p n) = .ok () :=
    assertIn_ok hchildren.lo (by have := hchildren.hi; omega)
  rw [DeviceTree.skipProperties, if_neg h.pos.ne', h.header, ok_bind, h.nProperties, ok_bind,
    if_neg hsome, skipProps, htimes, ok_bind, hend, ok_bind]
  rfl

theorem child_length_le {c : Node} (hc : c ∈ n.children) :
    c.encode.length + nodeSize ≤ n.encode.length := by
  have hpart : c.encode.length ≤ (n.children.flatMap Node.encode).length := by
    rw [length_flatMap]
    exact single_le_sum (fun _ _ => Nat.zero_le _) _ (mem_map_of_mem hc)
  rw [encode_length n]
  omega

/-- A call that may go as deep as the tree is long arrives behind the tree. -/
theorem skipTree {depth : Nat} (h : NodeAt r p n) (hdepth : n.encode.length ≤ depth) :
    skipTree r depth p = .ok (p + n.encode.length) := by
  induction depth generalizing p n with
  | zero =>
    rw [encode_length, nodeSize] at hdepth
    omega
  | succ depth ih =>
    have hchildren : ∀ y ∈ placed Node.encode (childrenFrom p n) n.children,
        DeviceTree.skipTree r depth y.1 = .ok (y.1 + y.2.encode.length) := by
      intro y hy
      have hlt := child_length_le (mem_placed hy)
      rw [nodeSize] at hlt
      exact ih (h.childAt y hy) (by omega)
    have hpos : childrenFrom p n ≠ 0 := by
      rw [childrenFrom, nodeSize]
      omega
    have hlen : childrenFrom p n + (n.children.flatMap Node.encode).length =
        p + n.encode.length := by
      rw [encode_length, childrenFrom]
      omega
    rw [DeviceTree.skipTree, h.header, ok_bind, h.skipProperties, ok_bind, if_neg hpos, h.nChildren,
      ok_bind, times_placed hchildren, hlen]

theorem getNextChild (h : NodeAt r p n) : getNextChild r p = .ok (p + n.encode.length) :=
  h.skipTree (by have := h.holds.hi; omega)

end NodeAt

end XnuXzs.DeviceTree
