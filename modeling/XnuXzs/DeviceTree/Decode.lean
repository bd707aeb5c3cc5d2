import XnuXzs.Lib.Bytes
import XnuXzs.Lib.Guard

/-!
# The device tree as the kernel reads it

The routines of `pexpert/gen/device_tree.c`. A node is two counts, its properties and its
children; only a walk tells where it ends. Every read says whether it stays inside.
-/

namespace XnuXzs.DeviceTree

open Lib

/-- Why a call has no result: a panic, a read outside of the region, or no end. -/
inductive Fault where
  | panics
  | outside
  | unfinished
  deriving DecidableEq, Repr

/-- The bytes from `DTRootNode` up to `DTEnd`. Nothing is mapped at the null pointer. -/
structure Region where
  mem : Nat → UInt8
  start : Nat
  stop : Nat
  low : 8 < start
  le : start ≤ stop
  top : stop < 2 ^ 64

variable (r : Region)

def Region.byte (p : Nat) : Except Fault UInt8 :=
  if r.start ≤ p ∧ p < r.stop then .ok (r.mem p) else .error .outside

def Region.word (p : Nat) : Except Fault Nat :=
  if r.start ≤ p ∧ p + 4 ≤ r.stop then .ok (u32At r.mem p).toNat else .error .outside

/-- `strcmp` of the string at an address with another one, which has no NUL inside. -/
def strEq : Nat → List UInt8 → Except Fault Bool
  | p, [] => (r.byte p).map (· == 0)
  | p, c :: cs => r.byte p >>= fun b => if b = c then strEq (p + 1) cs else .ok false

/-- `memcmp` of the bytes at an address with others. -/
def memEq : Nat → List UInt8 → Except Fault Bool
  | _, [] => .ok true
  | p, c :: cs => r.byte p >>= fun b => if b = c then memEq (p + 1) cs else .ok false

/-- `sizeof(DeviceTreeNode)` and `sizeof(DeviceTreeNodeProperty)` -/
def nodeSize : Nat := 8
def propSize : Nat := 36

/-- Where the number of children of a node is, and the length of a property. -/
def nChildrenAt : Nat := 4
def lengthAt : Nat := 32

def assertIn (p : Nat) : Except Fault Unit := rejectIf .panics (p < r.start ∨ r.stop < p)

def assertProp (p : Nat) : Except Fault Unit := do
  assertIn r p
  assertIn r (p + propSize)
  let length ← r.word (p + lengthAt)
  rejectIf .panics (2 ^ 64 ≤ p + propSize + length)
  assertIn r (p + propSize + length)

def nextProp (p : Nat) : Except Fault Nat := do
  assertIn r (p + propSize)
  let length ← r.word (p + lengthAt)
  rejectIf .panics (2 ^ 64 ≤ p + length + (propSize + 3))
  pure ((p + length + (propSize + 3)) / 4 * 4)

def times (step : Nat → Except Fault Nat) : Nat → Nat → Except Fault Nat
  | 0, p => .ok p
  | k + 1, p => step p >>= times step k

/-- The loop over the properties of a node. -/
def skipProps (n entry : Nat) : Except Fault Nat := do
  let p ← times (nextProp r) n (entry + nodeSize)
  assertIn r p
  pure p

/-- `skipProperties`; the null pointer is 0. -/
def skipProperties (entry : Nat) : Except Fault Nat :=
  if entry = 0 then .ok 0
  else do
    assertIn r (entry + nodeSize)
    let n ← r.word entry
    if n = 0 then pure 0 else skipProps r n entry

/-- `skipTree`, which calls itself at most `depth` deep. -/
def skipTree : Nat → Nat → Except Fault Nat
  | 0, _ => .error .unfinished
  | depth + 1, root => do
    assertIn r (root + nodeSize)
    let entry ← skipProperties r root
    if entry = 0 then pure 0
    else do
      let n ← r.word (root + nChildrenAt)
      times (skipTree depth) n entry

def getNextChild (sibling : Nat) : Except Fault Nat := skipTree r r.stop sibling

/-- The loop of `SecureDTGetPropertyInternal`: the place of the value, and its size. -/
def findProp (name : List UInt8) : Nat → Nat → Except Fault (Option (Nat × Nat))
  | 0, _ => .ok none
  | k + 1, p => do
    assertProp r p
    if ← strEq r p name then
      let length ← r.word (p + lengthAt)
      pure (some (p + propSize, length))
    else nextProp r p >>= findProp name k

/-- `SecureDTGetProperty`; `none` is `kError`. -/
def getProperty (entry : Nat) (name : List UInt8) : Except Fault (Option (Nat × Nat)) :=
  if entry = 0 then .ok none
  else do
    assertIn r (entry + nodeSize)
    let n ← r.word entry
    findProp r name n (entry + nodeSize)

def slash : UInt8 := 0x2f

def nameKey : List UInt8 := [0x6e, 0x61, 0x6d, 0x65]

/-- `kDTMaxEntryNameLength` -/
def maxEntryName : Nat := 63

/-- `GetNextComponent`: what is put into the buffer, nothing if it is too long, and the rest of
the path. -/
def getNextComponent (buf : List UInt8) : List UInt8 → List UInt8 × List UInt8
  | [] => (buf, [])
  | c :: cs =>
    if c = slash then (buf, cs)
    else if maxEntryName < buf.length + 1 then ([], c :: cs)
    else getNextComponent (buf ++ [c]) cs

/-- The loop of `FindChild`, with `k` children behind this one. -/
def findChildLoop (buf : List UInt8) : Nat → Nat → Except Fault Nat
  | 0, child => do
    match ← getProperty r child nameKey with
    | none => pure 0
    | some (str, _) => if ← strEq r str buf then pure child else pure 0
  | k + 1, child => do
    match ← getProperty r child nameKey with
    | none => pure 0
    | some (str, _) =>
      if ← strEq r str buf then pure child else getNextChild r child >>= findChildLoop buf k

def findChild (cur : Nat) (buf : List UInt8) : Except Fault Nat := do
  assertIn r (cur + nodeSize)
  let n ← r.word (cur + nChildrenAt)
  if n = 0 then pure 0 else skipProperties r cur >>= findChildLoop r buf (n - 1)

theorem getNextComponent_length (buf path : List UInt8) :
    (getNextComponent buf path).2.length ≤ path.length := by
  induction path generalizing buf with
  | nil => exact le_rfl
  | cons c cs ih =>
    rw [getNextComponent]
    split
    · exact Nat.le_succ _
    · split
      · exact le_rfl
      · exact (ih _).trans (Nat.le_succ _)

theorem getNextComponent_lt {path : List UInt8} (h : (getNextComponent [] path).1 ≠ []) :
    (getNextComponent [] path).2.length < path.length := by
  cases path with
  | nil => exact absurd rfl h
  | cons c cs =>
    rw [getNextComponent] at h ⊢
    split
    · exact Nat.lt_succ_self _
    · rw [if_neg (by decide)]
      exact Nat.lt_succ_of_le (getNextComponent_length _ cs)

def lookupLoop (cur : Nat) (path : List UInt8) : Except Fault (Option Nat) :=
  if _ : (getNextComponent [] path).1 = [] then
    .ok (if (getNextComponent [] path).2 = [] then some cur else none)
  else
    findChild r cur (getNextComponent [] path).1 >>= fun next =>
      if next = 0 then .ok none else lookupLoop next (getNextComponent [] path).2
termination_by path.length
decreasing_by exact getNextComponent_lt ‹_›

/-- `SecureDTLookupEntry`; `none` is `kError`. -/
def lookupEntry (searchPoint : Nat) (path : List UInt8) : Except Fault (Option Nat) := do
  let cur := if searchPoint = 0 then r.start else searchPoint
  assertIn r cur
  if path.head? = some slash then
    if path.tail = [] then pure (some cur) else lookupLoop r cur path.tail
  else lookupLoop r cur path

/-- `struct OpaqueDTEntryIterator`, with the saved scopes as a list. -/
structure EntryIterator where
  currentScope : Nat
  currentEntry : Nat
  currentIndex : Nat
  savedScope : List (Nat × Nat × Nat)

def initEntryIterator (startEntry : Nat) : EntryIterator :=
  ⟨if startEntry = 0 then r.start else startEntry, 0, 0, []⟩

def enterEntry (iter : EntryIterator) (child : Nat) : EntryIterator :=
  if child = 0 then iter
  else ⟨child, 0, 0, (iter.currentScope, iter.currentEntry, iter.currentIndex) :: iter.savedScope⟩

def exitEntry (iter : EntryIterator) : EntryIterator :=
  match iter.savedScope with
  | [] => iter
  | (scope, entry, index) :: saved => ⟨scope, entry, index, saved⟩

def restartEntryIteration (iter : EntryIterator) : EntryIterator :=
  { iter with currentEntry := 0, currentIndex := 0 }

def nextEntry (iter : EntryIterator) : Except Fault Nat :=
  if iter.currentIndex = 0 then skipProperties r iter.currentScope
  else getNextChild r iter.currentEntry

/-- `SecureDTIterateEntries`; `none` is `kIterationDone`. The scope is read as it is. -/
def iterateEntries (iter : EntryIterator) : Except Fault (Option Nat × EntryIterator) := do
  let n ← r.word (iter.currentScope + nChildrenAt)
  if n ≤ iter.currentIndex then pure (none, iter)
  else do
    let entry ← nextEntry r iter
    assertIn r entry
    pure (some entry,
      { iter with currentEntry := entry, currentIndex := iter.currentIndex + 1 })

structure PropertyIterator where
  entry : Nat
  currentProperty : Nat
  currentIndex : Nat

def initPropertyIterator (entry : Nat) : PropertyIterator := ⟨entry, 0, 0⟩

def restartPropertyIteration (iter : PropertyIterator) : PropertyIterator :=
  { iter with currentProperty := 0, currentIndex := 0 }

def nextProperty (iter : PropertyIterator) : Except Fault Nat :=
  if iter.currentIndex = 0 then .ok (iter.entry + nodeSize) else nextProp r iter.currentProperty

/-- `SecureDTIterateProperties`, which gives the place of the name. -/
def iterateProperties (iter : PropertyIterator) :
    Except Fault (Option Nat × PropertyIterator) := do
  let n ← r.word iter.entry
  if n ≤ iter.currentIndex then pure (none, iter)
  else do
    let prop ← nextProperty r iter
    assertProp r prop
    pure (some prop,
      { iter with currentProperty := prop, currentIndex := iter.currentIndex + 1 })

/-- The searches round the length of a value up in 32 bits. -/
def roundUp32 (length : Nat) : Nat := (length + 3) % 2 ^ 32 / 4 * 4

/-- A loop of at most `k` rounds up to the first that finds something; each says where it has
stopped. -/
def search (round : Nat → Except Fault (Option Nat × Nat)) :
    Nat → Nat → Except Fault (Option Nat × Nat)
  | 0, p => .ok (none, p)
  | k + 1, p => round p >>= fun found =>
    if found.1.isSome then .ok found else search round k found.2

/-- A round of the loop over the properties of a node. -/
def propRound (hit : Nat → Except Fault Bool) (p : Nat) : Except Fault (Option Nat × Nat) := do
  if ← hit p then pure (some p, p)
  else do
    let length ← r.word (p + lengthAt)
    pure (none, p + propSize + roundUp32 length)

/-- Both searches: a node that may be entered is found by a property, or its children are
searched. -/
def walk (enter hit : Nat → Except Fault Bool) : Nat → Nat → Except Fault (Option Nat × Nat)
  | 0, _ => .error .unfinished
  | depth + 1, p => do
    if ← enter p then do
      let n ← r.word p
      let found ← search (propRound r hit) n (p + nodeSize)
      if found.1.isSome then pure (some p, found.2)
      else do
        let k ← r.word (p + nChildrenAt)
        search (walk enter hit depth) k found.2
    else pure (none, p)

/-- `find_entry` checks the header of a node, and leaves one without properties. -/
def entryEnter (p : Nat) : Except Fault Bool := do
  assertIn r (p + nodeSize)
  let n ← r.word p
  pure (n != 0)

/-- What `find_entry` asks of a property. -/
def entryHit (name : List UInt8) (value : Option (List UInt8)) (p : Nat) :
    Except Fault Bool := do
  assertProp r p
  if ← strEq r p name then
    match value with
    | none => pure true
    | some v => strEq r (p + propSize) v
  else pure false

/-- `SecureDTFindEntry`, with `find_entry`, whose `startingP` is where a search stops. -/
def findEntry (name : List UInt8) (value : Option (List UInt8)) : Except Fault (Option Nat) :=
  (walk r (entryEnter r) (entryHit r name value) r.stop r.start).map Prod.fst

def propNameLength : Nat := 32

/-- `strncmp` with `kPropNameLength` -/
def strnEq (p : Nat) (name : List UInt8) : Except Fault Bool :=
  if name.length < propNameLength then strEq r p name else memEq r p (name.take propNameLength)

/-- What `SecureDTFindNodeWithPropertyEqualToValueHelper` asks of a property. -/
def nodeHit (name value : List UInt8) (p : Nat) : Except Fault Bool := do
  if ← strnEq r p name then
    let length ← r.word (p + lengthAt)
    if length = value.length then memEq r (p + propSize) value else pure false
  else pure false

/-- `SecureDTFindNodeWithPropertyEqualToValue`; its helper enters every node unchecked. -/
def findNode (name value : List UInt8) : Except Fault (Option Nat) :=
  (walk r (fun _ => .ok true) (nodeHit r name value) r.stop r.start).map Prod.fst

end XnuXzs.DeviceTree
