import XnuXzs.Lib.RefCount

/-!
# Objects of libkern

The objects that the binary format carries, as cells with the 16-bit counts of `OSObject`, and
the operations on them. Shared booleans and permanent symbols are not counted.
-/

namespace XnuXzs.OSObject

open Lib

inductive Ref where
  | boolean (value : Bool)
  | permanent (name : List UInt8)
  | cell (i : Nat)
  deriving DecidableEq, Repr

inductive Obj where
  | dictionary (entries : List (Ref × Ref))
  | array (members : List Ref)
  | set (members : List Ref)
  | number (value size : Nat)
  | symbol (name : List UInt8)
  | string (bytes : List UInt8)
  | data (bytes : List UInt8) (serializable : Bool)
  deriving DecidableEq, Repr

def Ref.counted : Ref → List Nat
  | .cell i => [i]
  | _ => []

/-- What the object retains, in the order in which it lets go of it. -/
def Obj.members : Obj → List Ref
  | .dictionary entries => entries.flatMap fun e => [e.1, e.2]
  | .array members => members
  | .set members => members
  | _ => []

def kallocSafeAllocSize : Nat := 16 * 1024

/-- `OSSymbol_is_huge`: long symbols are in a list of their own. -/
def isHuge (size : Nat) : Bool := kallocSafeAllocSize < size

/-- `insertSymbol` chooses the list by the number of characters, and `removeSymbol` by the size
with the zero. -/
def Obj.misfiled : Obj → Bool
  | .symbol name => isHuge name.length != isHuge (name.length + 1)
  | _ => false

/-- The low half of `retainCount`: at `0xfffe` it stops. A symbol is taken from its list when it
is freed, and a search in the other list runs off its end. -/
def counting : Counting Obj where
  points o := o.members.flatMap Ref.counted
  stuck := Obj.misfiled
  peg := 0xfffe
  one_lt_peg := by decide

abbrev Heap := List (Cell Obj)

/-- What a correct run never meets. -/
inductive Fault where
  | strayRead
  | badObject
  | endless
  deriving DecidableEq, Repr

/-- A pointer to something that is not alive is a fault. -/
def Heap.live (h : Heap) (i : Nat) : Except Fault (Cell Obj) :=
  match h[i]? with
  | some c => if c.refs = 0 then .error .badObject else .ok c
  | none => .error .badObject

def retain (h : Heap) : Ref → Except Fault Heap
  | .cell i => do
    let c ← h.live i
    return h.set i (c.retain counting)
  | _ => return h

def release (h : Heap) (r : Ref) : Except Fault Heap :=
  match releaseAll counting r.counted h with
  | some h' => .ok h'
  | none => .error .badObject

def alloc (h : Heap) (o : Obj) : Ref × Heap := (.cell h.length, h ++ [⟨o, 1⟩])

def kMaxStringLength : Nat := 262142

def findSymbol (h : Heap) (name : List UInt8) : Option Nat :=
  h.findIdx? fun c => decide (c.body = .symbol name) && decide (c.refs ≠ 0)

/-- `OSSymbol::withCString`. A symbol that is not in the pool becomes a permanent one or is put
there with a copy of its name. -/
def symbolWithCString (h : Heap) (permanent copied : Bool) (name : List UInt8) :
    Except Fault (Option (Ref × Heap)) :=
  if kMaxStringLength ≤ name.length then return none
  else match findSymbol h name with
    | some i => do
      let h' ← retain h (.cell i)
      return some (.cell i, h')
    | none =>
      if permanent then return some (.permanent name, h)
      else if copied then return some (alloc h (.symbol name))
      else return none

/-- `OSDynamicCast` to `OSSymbol`. -/
def isSymbol (h : Heap) : Ref → Bool
  | .permanent _ => true
  | .cell i => match h[i]? with
    | some ⟨.symbol _, _⟩ => true
    | _ => false
  | .boolean _ => false

/-- `OSDynamicCast` to `OSString` of what is no symbol. -/
def stringOf (h : Heap) : Ref → Option (List UInt8)
  | .cell i => match h[i]? with
    | some ⟨.string bytes, _⟩ => some bytes
    | _ => none
  | _ => none

/-- `OSArray::setObject` at the end of the array. -/
def arraySetObject (h : Heap) (room : Bool) (array : Nat) (o : Ref) :
    Except Fault (Bool × Heap) := do
  let c ← h.live array
  match c.body with
  | .array members =>
    if room then
      let h' ← retain h o
      let c' ← h'.live array
      return (true, h'.set array { c' with body := .array (members ++ [o]) })
    else return (false, h)
  | _ => .error .badObject

/-- `OSSet::setObject`: a second time is a failure. -/
def setSetObject (h : Heap) (room : Bool) (set : Nat) (o : Ref) : Except Fault (Bool × Heap) := do
  let c ← h.live set
  match c.body with
  | .set members =>
    if o ∈ members then return (false, h)
    else if room then
      let h' ← retain h o
      let c' ← h'.live set
      return (true, h'.set set { c' with body := .set (members ++ [o]) })
    else return (false, h)
  | _ => .error .badObject

/-- The entries with another value for a key that is there, and its old value. -/
def replaceValue (key o : Ref) : List (Ref × Ref) → Option (List (Ref × Ref) × Ref)
  | [] => none
  | e :: rest =>
    if e.1 = key then some ((e.1, o) :: rest, e.2)
    else (replaceValue key o rest).map fun r => (e :: r.1, r.2)

/-- `OSDictionary::setObject` of an unsorted dictionary. -/
def dictSetObject (h : Heap) (room : Bool) (dict : Nat) (key : Option Ref) (o : Ref) :
    Except Fault (Bool × Heap) := do
  let c ← h.live dict
  match c.body, key with
  | .dictionary _, none => return (false, h)
  | .dictionary entries, some key =>
    match replaceValue key o entries with
    | some (entries', old) =>
      let h' ← retain h o
      let c' ← h'.live dict
      let h'' ← release (h'.set dict { c' with body := .dictionary entries' }) old
      return (true, h'')
    | none =>
      if room then
        let h' ← retain h key
        let h'' ← retain h' o
        let c' ← h''.live dict
        return (true, h''.set dict { c' with body := .dictionary (entries ++ [(key, o)]) })
      else return (false, h)
  | _, _ => .error .badObject

end XnuXzs.OSObject
