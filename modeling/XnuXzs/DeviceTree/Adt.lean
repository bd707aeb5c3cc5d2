import XnuXzs.Lib.Memory

/-!
# The device tree as the boot shim writes it

The emitters of `xzs-bootshim/adt.c`. A tree is written in preorder: a node's header, its
properties, then its children.
-/

namespace XnuXzs.DeviceTree

open Lib List

/-- A property as it is handed to `adt_put_prop`. -/
structure Property where
  name : List UInt8
  value : List UInt8
  nulFree : 0 ∉ name
  short : name.length ≤ 31
  fits : value.length < 2 ^ 32

inductive Node where
  | mk (props : List Property) (children : List Node)

def Node.props : Node → List Property
  | .mk props _ => props

def Node.children : Node → List Node
  | .mk _ children => children

/-- The memory, and `adt_ptr`. -/
structure Out where
  mem : Nat → UInt8
  ptr : Nat

def strCopyPad (src : List UInt8) (maxlen : Nat) : List UInt8 :=
  src.take (maxlen - 1) ++ List.replicate (maxlen - (src.take (maxlen - 1)).length) 0

/-- `padded_len`, in 32 bits -/
def paddedLen (len : Nat) : Nat := (len + 3) % 2 ^ 32 / 4 * 4

/-- Bytes at the pointer, which moves behind them. -/
def Out.put (s : Out) (bytes : List UInt8) : Out :=
  ⟨storeBytes s.mem s.ptr bytes, s.ptr + bytes.length⟩

def adtPutNode (s : Out) (nprops nchildren : Nat) : Out :=
  (s.put (leBytes 4 nprops)).put (leBytes 4 nchildren)

/-- `adt_put_prop`: the pointer moves by the padded length, whatever has been stored. -/
def adtPutProp (s : Out) (prop : Property) : Out :=
  let hdr := (s.put (strCopyPad prop.name 32)).put (leBytes 4 prop.value.length)
  let padding := List.replicate (paddedLen prop.value.length - prop.value.length) 0
  ⟨((hdr.put prop.value).put padding).mem, hdr.ptr + paddedLen prop.value.length⟩

mutual

/-- A tree in preorder, with exact counts. -/
def Node.emit : Node → Out → Out
  | .mk props children, s =>
    emitAll children (props.foldl adtPutProp (adtPutNode s props.length children.length))

def emitAll : List Node → Out → Out
  | [], s => s
  | c :: cs, s => emitAll cs (c.emit s)

end

/-- The bytes of one property, where its length does not wrap. -/
def encodeProp (prop : Property) : List UInt8 :=
  strCopyPad prop.name 32 ++ (leBytes 4 prop.value.length ++ (prop.value ++
    List.replicate (paddedLen prop.value.length - prop.value.length) 0))

def nodeHeader (n : Node) : List UInt8 :=
  leBytes 4 n.props.length ++ leBytes 4 n.children.length

mutual

def Node.encode : Node → List UInt8
  | .mk props children =>
    nodeHeader (.mk props children) ++ (props.flatMap encodeProp ++ encodeAll children)

def encodeAll : List Node → List UInt8
  | [] => []
  | c :: cs => c.encode ++ encodeAll cs

end

theorem encodeAll_eq (cs : List Node) : encodeAll cs = cs.flatMap Node.encode := by
  induction cs with
  | nil => rw [encodeAll, flatMap_nil]
  | cons c cs ih => rw [encodeAll, ih, flatMap_cons]

theorem Node.encode_eq (n : Node) :
    n.encode = nodeHeader n ++ (n.props.flatMap encodeProp ++ n.children.flatMap Node.encode) := by
  cases n with
  | mk props children => rw [Node.encode, encodeAll_eq, Node.props, Node.children]

theorem Node.emit_eq (n : Node) (s : Out) :
    n.emit s = emitAll n.children
      (n.props.foldl adtPutProp (adtPutNode s n.props.length n.children.length)) := by
  cases n with
  | mk props children => rw [Node.emit, Node.props, Node.children]

/-- The induction for all trees: it is enough to go from the children to the node. -/
theorem Node.induct {P : Node → Prop} (h : ∀ n : Node, (∀ c ∈ n.children, P c) → P n) :
    ∀ n, P n
  | .mk props children => h (.mk props children) fun c _ => Node.induct h c
termination_by n => sizeOf n
decreasing_by
  rename_i hc
  have hlt : sizeOf c < sizeOf children := sizeOf_lt_of_mem hc
  rw [Node.mk.sizeOf_spec]
  omega

inductive Node.Has (t : Node) : Node → Prop where
  | root : Has t t
  | child {n c : Node} : Has t n → c ∈ n.children → Has t c

theorem Node.Has.ofChild {t c n : Node} (hc : c ∈ t.children) (h : c.Has n) : t.Has n := by
  induction h with
  | root => exact .child .root hc
  | child _ hchild ih => exact .child ih hchild

/-- A node that can be written: its counts are exact, it has a property, and no padded length
wraps. -/
structure Node.Fits (n : Node) : Prop where
  some : n.props ≠ []
  props_lt : n.props.length < 2 ^ 32
  children_lt : n.children.length < 2 ^ 32
  padded : ∀ x ∈ n.props, x.value.length ≤ 2 ^ 32 - 4

def Node.Writable (t : Node) : Prop := ∀ n, t.Has n → n.Fits

theorem Node.Writable.child {t c : Node} (ht : t.Writable) (hc : c ∈ t.children) : c.Writable :=
  fun n hn => ht n (hn.ofChild hc)

theorem Node.Writable.self {t : Node} (ht : t.Writable) : t.Fits := ht t .root

theorem put_put (s : Out) (xs ys : List UInt8) : (s.put xs).put ys = s.put (xs ++ ys) := by
  simp [Out.put, storeBytes_append, add_assoc]

theorem put_nil (s : Out) : s.put [] = s := by
  have hsame : storeBytes s.mem s.ptr [] = s.mem :=
    funext fun x => storeBytes_outside (by simp; omega)
  rw [Out.put, hsame]
  rfl

theorem paddedLen_eq {len : Nat} (h : len ≤ 2 ^ 32 - 4) : paddedLen len = (len + 3) / 4 * 4 := by
  rw [paddedLen, Nat.mod_eq_of_lt (by omega)]

theorem le_paddedLen {len : Nat} (h : len ≤ 2 ^ 32 - 4) : len ≤ paddedLen len := by
  rw [paddedLen_eq h]
  omega

theorem adtPutProp_put (s : Out) (x : Property) (h : x.value.length ≤ 2 ^ 32 - 4) :
    adtPutProp s x = s.put (encodeProp x) := by
  have hpad := le_paddedLen h
  have hptr : (((s.put (strCopyPad x.name 32)).put (leBytes 4 x.value.length)).put x.value).ptr +
      (paddedLen x.value.length - x.value.length) =
      ((s.put (strCopyPad x.name 32)).put (leBytes 4 x.value.length)).ptr +
        paddedLen x.value.length := by
    simp only [Out.put]
    omega
  simp only [adtPutProp, encodeProp, ← put_put]
  rw [← hptr]
  simp [Out.put]

theorem putProps_put (xs : List Property) (s : Out) (h : ∀ x ∈ xs, x.value.length ≤ 2 ^ 32 - 4) :
    xs.foldl adtPutProp s = s.put (xs.flatMap encodeProp) := by
  induction xs generalizing s with
  | nil => exact (put_nil s).symm
  | cons x xs ih =>
    rw [foldl_cons, adtPutProp_put s x (h x mem_cons_self),
      ih _ fun y hy => h y (mem_cons_of_mem x hy), put_put, flatMap_cons]

theorem emitAll_put {cs : List Node} (h : ∀ c ∈ cs, ∀ s, c.emit s = s.put c.encode) (s : Out) :
    emitAll cs s = s.put (cs.flatMap Node.encode) := by
  induction cs generalizing s with
  | nil =>
    rw [emitAll, flatMap_nil, put_nil]
  | cons c cs ih =>
    rw [emitAll, h c mem_cons_self, ih fun d hd => h d (mem_cons_of_mem c hd),
      put_put, flatMap_cons]

theorem emit_put {t : Node} : t.Writable → ∀ s, t.emit s = s.put t.encode := by
  induction t using Node.induct with
  | h n ih =>
    intro hn s
    have hchildren : ∀ c ∈ n.children, ∀ s, c.emit s = s.put c.encode :=
      fun c hc => ih c hc (hn.child hc)
    rw [Node.emit_eq, emitAll_put hchildren, putProps_put _ _ hn.self.padded, adtPutNode, put_put,
      put_put, put_put, Node.encode_eq, nodeHeader, append_assoc]

end XnuXzs.DeviceTree
