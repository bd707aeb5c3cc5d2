import XnuXzs.Lib.Bytes
import XnuXzs.OSObject.Heap

/-!
# Writing the binary format

`OSSerialize` in its binary, non-indexed form without an editor: each object is written once,
then referred to by its tag. A member that cannot be written is tried again.
-/

namespace XnuXzs.OSObject

open Lib

/-- What a pointer is to, as the casts see it. -/
inductive View where
  | boolean (value : Bool)
  | object (o : Obj)
  deriving DecidableEq, Repr

def view (h : Heap) : Ref → Option View
  | .boolean value => some (.boolean value)
  | .permanent name => some (.object (.symbol name))
  | .cell i => h[i]?.map fun c => .object c.body

structure SerialEnv where
  granted : Nat → Bool
  tagged : Nat → Bool
  pageSize : Nat

structure Serializer where
  data : List UInt8
  tags : List Ref
  endCollection : Bool
  capacity : Nat
  capacityIncrement : Nat

/-- `none` on overflow of 32 bits. -/
def roundPage (pageSize n : Nat) : Option Nat :=
  if 2 ^ 32 ≤ n + (pageSize - 1) then none else some ((n + (pageSize - 1)) / pageSize * pageSize)

def ensureCapacity (env : SerialEnv) (capacity newCapacity : Nat) : Nat :=
  if newCapacity ≤ capacity then capacity
  else match roundPage env.pageSize newCapacity with
    | none => capacity
    | some rounded => if env.granted rounded then rounded else capacity

/-- Room for so many more bytes. -/
def reserve (env : SerialEnv) (s : Serializer) (alignSize : Nat) : Option Serializer :=
  let newCapacity := s.data.length + alignSize
  if 2 ^ 32 ≤ newCapacity then none
  else if newCapacity < s.capacity then some s
  else
    let newCapacity := ((newCapacity - 1) / s.capacityIncrement + 1) * s.capacityIncrement % 2 ^ 32
    if newCapacity < s.capacity then none
    else if ensureCapacity env s.capacity newCapacity < newCapacity then none
    else some { s with capacity := ensureCapacity env s.capacity newCapacity }

def padded (bytes : List UInt8) : List UInt8 :=
  bytes ++ List.replicate ((bytes.length + 3) / 4 * 4 - bytes.length) 0

def addBinary (env : SerialEnv) (s : Serializer) (bits : List UInt8) : Bool × Serializer :=
  match reserve env s (padded bits).length with
  | none => (false, s)
  | some s => (true, { s with data := s.data ++ padded bits })

def keyBytes (key : Nat) (last : Bool) : List UInt8 :=
  leBytes 4 (if last then key ||| 2 ^ 31 else key)

def addBinaryObject (env : SerialEnv) (s : Serializer) (o : Ref) (key : Nat) (bits : List UInt8) :
    Bool × Serializer :=
  let s := if env.tagged s.tags.length then { s with tags := s.tags ++ [o] } else s
  match reserve env s (padded (keyBytes key s.endCollection ++ bits)).length with
  | none => (false, s)
  | some s => (true, { s with data := s.data ++ padded (keyBytes key s.endCollection ++ bits)
                              endCollection := false })

/-- A member, with a second try through its own `serialize`. -/
def serializeMember (f : Serializer → Ref → Bool × Serializer) (s : Serializer) (last : Bool)
    (m : Ref) : Bool × Serializer :=
  let first := f { s with endCollection := last } m
  if first.1 then first else f first.2 m

def serializeMembers (f : Serializer → Ref → Bool × Serializer) :
    Serializer → List Ref → Bool × Serializer
  | s, [] => (true, s)
  | s, m :: rest =>
    let done := serializeMember f s rest.isEmpty m
    if done.1 then serializeMembers f done.2 rest else done

/-- Keys are not tried again. -/
def serializeEntries (f : Serializer → Ref → Bool × Serializer) :
    Serializer → List (Ref × Ref) → Bool × Serializer
  | s, [] => (true, s)
  | s, e :: rest =>
    let key := f s e.1
    if key.1 then
      let done := serializeMember f key.2 rest.isEmpty e.2
      if done.1 then serializeEntries f done.2 rest else done
    else key

/-- `key` of a leaf, and its bytes. -/
def leafRecord : Obj → Option (Nat × List UInt8)
  | .number value size => some (0x04000000 ||| size, leBytes 8 value)
  | .symbol name => some (0x08000000 ||| (name.length + 1), name ++ [0])
  | .string bytes => some (0x09000000 ||| bytes.length, bytes)
  | .data bytes true => some (0x0a000000 ||| bytes.length, bytes)
  | .data _ false => some (0x0a000000, [])
  | _ => none

/-- `binarySerializeInternal`. The first argument bounds how deep it goes. -/
def binarySerialize (env : SerialEnv) (h : Heap) : Nat → Serializer → Ref → Bool × Serializer
  | 0, s, _ => (false, s)
  | n + 1, s, o =>
    match s.tags.idxOf? o with
    | some tagIdx =>
      addBinary env { s with endCollection := false }
        (keyBytes (0x0c000000 ||| tagIdx) s.endCollection)
    | none =>
      match view h o with
      | some (.object (.dictionary entries)) =>
        let start := addBinaryObject env s o (0x01000000 ||| entries.length) []
        if start.1 then serializeEntries (binarySerialize env h n) start.2 entries else start
      | some (.object (.array members)) =>
        let start := addBinaryObject env s o (0x02000000 ||| members.length) []
        if start.1 then serializeMembers (binarySerialize env h n) start.2 members else start
      | some (.object (.set members)) =>
        let start := addBinaryObject env s o (0x03000000 ||| members.length) []
        if start.1 then serializeMembers (binarySerialize env h n) start.2 members else start
      | some (.object leaf) =>
        match leafRecord leaf with
        | some (key, bits) => addBinaryObject env s o key bits
        | none => (false, s)
      | some (.boolean value) => addBinaryObject env s o (0x0b000000 ||| value.toNat) []
      | none => (false, s)

/-- A serializer with the signature written, `none` if the capacity cannot be had. -/
def binaryWithCapacity (env : SerialEnv) (inCapacity : Nat) : Option Serializer :=
  if inCapacity < 4 then none
  else match roundPage env.pageSize inCapacity with
    | none => none
    | some capacity =>
      if env.granted capacity then
        some { data := [0xd3, 0, 0, 0], tags := [], endCollection := true, capacity
               capacityIncrement := capacity }
      else none

end XnuXzs.OSObject
