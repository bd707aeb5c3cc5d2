import XnuXzs.Lib.Bytes
import XnuXzs.OSObject.Heap

/-!
# Reading the binary format

`OSUnserializeBinary`: a round for each record, with the array of the objects met, the stack of
open collections and the cleanup. A read outside of the buffer is a fault.
-/

namespace XnuXzs.OSObject

open Lib

/-- What the allocator and the symbol pool answer in the round that starts at a given place, and
the rounding of a double to a float. -/
structure Env where
  object : Nat → Bool
  symbol : Nat → Bool
  member : Nat → Bool
  /-- How much the array of objects gets beyond what was asked for. -/
  objs : Nat → Option Nat
  stack : Nat → Option Nat
  permanent : List UInt8 → Bool
  narrow : Nat → Nat

def bytesFrom (buf : List UInt8) (pos n : Nat) : Except Fault (List UInt8) :=
  if pos + n ≤ buf.length then .ok ((buf.drop pos).take n) else .error .strayRead

def wordFrom (buf : List UInt8) (pos : Nat) : Except Fault Nat := do
  let bytes ← bytesFrom buf pos 4
  return leValue bytes

/-- The bytes before the first zero, of `limit` at most. -/
def cStringFrom (buf : List UInt8) (pos limit : Nat) : Except Fault (List UInt8) :=
  let seen := (buf.drop pos).take limit
  if 0 ∈ seen ∨ seen.length = limit then .ok (seen.takeWhile (· ≠ 0)) else .error .strayRead

inductive Tag where
  | dictionary | array | set | number | symbol | string | data | boolean | object
  deriving DecidableEq, Repr

/-- The bits of `kOSSerializeTypeMask`. -/
def Tag.ofKey (key : Nat) : Option Tag :=
  match key / 2 ^ 24 % 2 ^ 7 with
  | 0x01 => some .dictionary
  | 0x02 => some .array
  | 0x03 => some .set
  | 0x04 => some .number
  | 0x08 => some .symbol
  | 0x09 => some .string
  | 0x0a => some .data
  | 0x0b => some .boolean
  | 0x0c => some .object
  | _ => none

/-- What a record gives: the object, the next word's place, whether it was there before, whether
it has a length word, and what it opens. -/
structure Fetched where
  heap : Heap
  pos : Nat
  o : Ref
  isRef : Bool
  hasLength : Bool
  opens : Option Nat

/-- A collection of `len` members, without any yet. -/
def fetchCollection (env : Env) (indexed : Bool) (h : Heap) (start pos len : Nat) (o : Obj) :
    Option Fetched :=
  if env.object start then
    some { heap := (alloc h o).2, pos, o := (alloc h o).1, isRef := false, hasLength := indexed
           opens := if len = 0 then none else some h.length }
  else none

def fetchLeaf (env : Env) (h : Heap) (start pos : Nat) (o : Obj) : Option Fetched :=
  if env.object start then
    some { heap := (alloc h o).2, pos, o := (alloc h o).1, isRef := false, hasLength := false
           opens := none }
  else none

/-- `OSNumber` of the value's low bits, or the bits of a floating point number. -/
def numberOf (env : Env) (value len : Nat) : Option Obj :=
  if len = 63 then some (.number value 63)
  else if len = 31 then some (.number (env.narrow value) 31)
  else if len = 64 ∨ len = 32 ∨ len = 16 ∨ len = 8 then some (.number (value % 2 ^ len) len)
  else none

/-- The `switch` on the type; `none` is a null `o`. -/
def fetch (env : Env) (buf : List UInt8) (indexed : Bool) (h : Heap) (objs : List Ref)
    (start key : Nat) : Except Fault (Option Fetched) :=
  let pos := start + 4
  let len := key % 2 ^ 24
  let wordLen := (len + 3) / 4
  match Tag.ofKey key with
  | some .dictionary => return fetchCollection env indexed h start pos len (.dictionary [])
  | some .array => return fetchCollection env indexed h start pos len (.array [])
  | some .set => return fetchCollection env indexed h start pos len (.set [])
  | some .object =>
    return objs[len]?.map fun o =>
      { heap := h, pos, o, isRef := true, hasLength := false, opens := none }
  | some .number =>
    if buf.length < pos + 8 then return none
    else do
      let low ← wordFrom buf pos
      let high ← wordFrom buf (pos + 4)
      return (numberOf env (high * 2 ^ 32 + low) len).bind (fetchLeaf env h start (pos + 8))
  | some .symbol =>
    if buf.length < pos + 4 * wordLen then return none
    else if len < 1 then return none
    else do
      let last ← bytesFrom buf (pos + len - 1) 1
      if last ≠ [0] then return none
      else do
        let name ← cStringFrom buf pos kMaxStringLength
        let made ← symbolWithCString h (env.permanent name) (env.object start) name
        return made.map fun made =>
          { heap := made.2, pos := pos + 4 * wordLen, o := made.1, isRef := false
            hasLength := false, opens := none }
  | some .string =>
    if buf.length < pos + 4 * wordLen then return none
    else if kMaxStringLength ≤ len then return none
    else do
      let bytes ← cStringFrom buf pos len
      return fetchLeaf env h start (pos + 4 * wordLen) (.string bytes)
  | some .data =>
    if buf.length < pos + 4 * wordLen then return none
    else do
      let bytes ← bytesFrom buf pos len
      return fetchLeaf env h start (pos + 4 * wordLen) (.data bytes true)
  | some .boolean =>
    return some { heap := h, pos, o := .boolean (decide (len ≠ 0)), isRef := false
                  hasLength := false, opens := none }
  | none => return none

/-- The variables of the loop. The stack has its top first. -/
structure Unserializer where
  heap : Heap
  pos : Nat
  objs : List Ref := []
  objsCapacity : Nat := 0
  stack : List (Option Nat) := []
  stackCapacity : Nat := 0
  result : Option Ref := none
  parent : Option Nat := none
  dict : Option Nat := none
  array : Option Nat := none
  set : Option Nat := none
  sym : Option Ref := none

def objsCapacityMax : Nat := 16 * 1024 * 1024
def stackCapacityMax : Nat := 64

/-- The capacity after `setAtIndex`, when it succeeds. -/
def setAtIndex (grown : Option Nat) (capacity capacityMax idx : Nat) : Option Nat :=
  if idx < capacity then some capacity
  else if capacity < capacityMax then grown.map (capacity + 64 + ·)
  else none

/-- The symbol that a key stands for, and the one to be released afterwards. -/
structure Key where
  sym : Option Ref
  temp : Option Ref
  heap : Heap

/-- `none` when the symbol for a string could not be made. -/
def keySymbol (env : Env) (start : Nat) (h : Heap) (key : Ref) : Except Fault (Option Key) :=
  if isSymbol h key then return some ⟨some key, none, h⟩
  else match stringOf h key with
    | some bytes => do
      let name := bytes.takeWhile (· ≠ 0)
      let made ← symbolWithCString h (env.permanent name) (env.symbol start) name
      return made.map fun made => ⟨some made.1, some made.1, made.2⟩
    | none => return some ⟨none, none, h⟩

def releaseTemp (h : Heap) : Option Ref → Except Fault Heap
  | some r => release h r
  | none => return h

/-- The dictionary itself is not put into it. -/
def setUnlessSelf (h : Heap) (room : Bool) (dict : Nat) (key : Option Ref) (o : Ref) :
    Except Fault (Bool × Heap) :=
  if o = .cell dict then return (true, h) else dictSetObject h room dict key o

/-- A value for the key that was read before. -/
def addEntry (env : Env) (start : Nat) (s : Unserializer) (dict : Nat) (key o : Ref) :
    Except Fault (Bool × Unserializer) := do
  match ← keySymbol env start s.heap key with
  | none => return (false, { s with sym := none })
  | some k =>
    let set ← setUnlessSelf k.heap (env.member start) dict k.sym o
    let h ← releaseTemp set.2 k.temp
    return (set.1, { s with heap := h, sym := none })

/-- The object goes where the loop stands; the flag is `ok`. -/
def addMember (env : Env) (start : Nat) (s : Unserializer) (o : Ref) :
    Except Fault (Bool × Unserializer) :=
  match s.dict, s.array, s.set with
  | some dict, _, _ =>
    match s.sym with
    | none => return (true, { s with sym := some o })
    | some key => addEntry env start s dict key o
  | none, some array, _ => do
    let set ← arraySetObject s.heap (env.member start) array o
    return (set.1, { s with heap := set.2 })
  | none, none, some set => do
    let set ← setSetObject s.heap (env.member start) set o
    return (set.1, { s with heap := set.2 })
  | none, none, none =>
    if s.result.isSome then return (false, s) else return (true, { s with result := some o })

/-- The casts of a collection that members are now read for. -/
def Unserializer.enter (s : Unserializer) (c : Nat) : Option Unserializer :=
  match s.heap[c]? with
  | some ⟨.dictionary _, _⟩ =>
    some { s with parent := some c, dict := some c, array := none, set := none }
  | some ⟨.array _, _⟩ =>
    some { s with parent := some c, dict := none, array := some c, set := none }
  | some ⟨.set _, _⟩ =>
    some { s with parent := some c, dict := none, array := none, set := some c }
  | _ => none

/-- Entries of collections whose last member was itself a collection are null. -/
def pop : List (Option Nat) → Option (Nat × List (Option Nat))
  | [] => none
  | some p :: rest => some (p, rest)
  | none :: rest => pop rest

inductive Round where
  | more (s : Unserializer)
  | done (ok : Bool) (s : Unserializer)

/-- The end of a round: the new collection is entered, or those that end are left. -/
def descend (env : Env) (start : Nat) (s : Unserializer) (last : Bool) (opens : Option Nat) :
    Except Fault Round :=
  let parent := if last then none else s.parent
  match opens with
  | some c =>
    match setAtIndex (env.stack start) s.stackCapacity stackCapacityMax (s.stack.length + 1) with
    | none => return .done false s
    | some capacity =>
      let s := { s with stack := parent :: s.stack, stackCapacity := capacity }
      match s.enter c with
      | some s => return .more s
      | none => .error .badObject
  | none =>
    if last then
      match pop s.stack with
      | none => return .done true s
      | some (p, rest) =>
        let s := { s with stack := rest }
        match s.enter p with
        | some s => return .more s
        | none => return .done false s
    else return .more s

/-- What becomes of an object that is there. -/
def place (env : Env) (start : Nat) (s : Unserializer) (f : Fetched) (last : Bool) :
    Except Fault Round := do
  let added ← addMember env start s f.o
  if added.1 then descend env start added.2 last f.opens else return .done false added.2

/-- The new object's entry in the array of objects, `none` when it gets none. -/
def enroll (env : Env) (start : Nat) (s : Unserializer) (f : Fetched) : Option Unserializer :=
  if f.isRef then some s
  else match setAtIndex (env.objs start) s.objsCapacity objsCapacityMax s.objs.length with
    | none => none
    | some capacity => some { s with objs := s.objs ++ [f.o], objsCapacity := capacity }

/-- A round of the loop. An object that cannot be enrolled is given up. -/
def round (env : Env) (buf : List UInt8) (indexed : Bool) (s : Unserializer) :
    Except Fault Round := do
  if buf.length < s.pos + 4 then return .done false s
  else
    let key ← wordFrom buf s.pos
    match ← fetch env buf indexed s.heap s.objs s.pos key with
    | none => return .done false s
    | some f =>
      let fetched := { s with heap := f.heap, pos := if f.hasLength then f.pos + 4 else f.pos }
      if f.hasLength ∧ buf.length < f.pos + 4 then
        let h ← release f.heap f.o
        return .done false { fetched with heap := h }
      else
        match enroll env s.pos fetched f with
        | none =>
          let h ← release f.heap f.o
          return .done false { fetched with heap := h }
        | some s' => place env s.pos s' f (decide (2 ^ 31 ≤ key))

def run (env : Env) (buf : List UInt8) (indexed : Bool) :
    Nat → Unserializer → Except Fault (Bool × Unserializer)
  | 0, _ => .error .endless
  | n + 1, s => do
    match ← round env buf indexed s with
    | .more s' => run env buf indexed n s'
    | .done ok s' => return (ok, s')

/-- What stands when the loop is left. -/
structure Decoded where
  result : Option Ref
  objs : List Ref
  heap : Heap

/-- Whether the buffer is in the indexed form, `none` if it has no signature. -/
def readSignature (buf : List UInt8) : Except Fault (Option Bool) := do
  if buf.length < 4 then return none
  else
    let first ← bytesFrom buf 0 1
    if first = [0xd4] then return some true
    else if first ≠ [0xd3] then return none
    else
      let second ← bytesFrom buf 1 1
      if second = [0] then return some false else return none

def decode (env : Env) (h : Heap) (aligned : Bool) (buf : List UInt8) : Except Fault Decoded := do
  match ← readSignature buf with
  | none => return ⟨none, [], h⟩
  | some indexed =>
    if aligned then
      let stop ← run env buf indexed (buf.length / 4 + 1) { heap := h, pos := 4 }
      return ⟨if stop.1 then stop.2.result else none, stop.2.objs, stop.2.heap⟩
    else return ⟨none, [], h⟩

/-- The objects that the cleanup releases: all but a result. -/
def Decoded.dropped (d : Decoded) : List Ref := d.objs.drop (if d.result.isSome then 1 else 0)

def OSUnserializeBinary (env : Env) (h : Heap) (aligned : Bool) (buf : List UInt8) :
    Except Fault (Option Ref × Heap) := do
  let d ← decode env h aligned buf
  match releaseAll counting (d.dropped.flatMap Ref.counted) d.heap with
  | some h' => return (d.result, h')
  | none => .error .badObject

end XnuXzs.OSObject
