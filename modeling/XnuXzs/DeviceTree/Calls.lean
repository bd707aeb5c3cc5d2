import XnuXzs.DeviceTree.Visits

/-!
# The calls of the device tree interface

When each call stays inside the region. `SecureDTGetProperty` always does; the lookups compare
strings that only a NUL ends, and the search by a property's value checks nothing.
-/

namespace XnuXzs.DeviceTree

open Lib

/-- A property name that is shorter than its field. -/
structure PropName where
  bytes : List UInt8
  nulFree : 0 ∉ bytes
  short : bytes.length < propNameLength

/-- A string, without its NUL. -/
structure CStr where
  bytes : List UInt8
  nulFree : 0 ∉ bytes

/-- The calls, with any strings and any entries and iterators that the routines hand out. -/
inductive Call (r : Region) where
  | lookupEntry (searchPoint : Entry r) (path : CStr)
  | getProperty (entry : Entry r) (name : PropName)
  | findEntry (name : PropName) (value : Option CStr)
  | findNode (name : PropName) (value : List UInt8)
  | iterateEntries (iter : EntryIterator) (made : iter.Made r)
  | iterateProperties (iter : PropertyIterator) (made : iter.Made r)

variable {r : Region}

/-- The call panics or returns, and reads no byte outside of the region. -/
def Call.StaysInside : Call r → Prop
  | lookupEntry searchPoint path => Safe (DeviceTree.lookupEntry r searchPoint.addr path.bytes)
  | getProperty entry name => Safe (DeviceTree.getProperty r entry.addr name.bytes)
  | findEntry name value => Safe (DeviceTree.findEntry r name.bytes (value.map CStr.bytes))
  | findNode name value => Safe (DeviceTree.findNode r name.bytes value)
  | iterateEntries iter _ => Safe (DeviceTree.iterateEntries r iter)
  | iterateProperties iter _ => Safe (DeviceTree.iterateProperties r iter)

/-- What the bytes of the region have to be like for the call. -/
def Call.Guarded : Call r → Prop
  | lookupEntry searchPoint path =>
    -- no name that a component is compared with is a beginning of it that `DTEnd` cuts off
    ∀ buf v, Asks r searchPoint.orRoot (dropSlash path.bytes) buf v → ¬ RunsOff r v buf
  | getProperty _ _ => True
  | findEntry name value =>
    ∀ q, VisitsProp r (entryEnter r) (entryHit r name.bytes (value.map CStr.bytes))
      r.stop r.start q →
      ∀ v, value = some v → Named r name.bytes q → ¬ RunsOff r (q + propSize) v.bytes
  | findNode name value =>
    (∀ m, Visits r (fun _ => .ok true) (nodeHit r name.bytes value) r.stop r.start m →
      m + nodeSize ≤ r.stop) ∧
    ∀ q, VisitsProp r (fun _ => .ok true) (nodeHit r name.bytes value) r.stop r.start q →
      q + propSize ≤ r.stop ∧
        (strEq r q name.bytes = .ok true → r.word (q + lengthAt) = .ok value.length →
          ¬ CutOff r (q + propSize) value)
  | iterateEntries iter _ => iter.currentScope + nodeSize ≤ r.stop
  | iterateProperties iter _ => iter.entry + 4 ≤ r.stop

theorem Entry.from_start (e : Entry r) : From r.start e.addr := e.ok.imp_right And.left

/-- A call stays inside of the region exactly under its condition. -/
theorem call_inside_iff (c : Call r) : c.StaysInside ↔ c.Guarded := by
  cases c with
  | lookupEntry searchPoint => exact safe_lookupEntry searchPoint
  | getProperty entry name =>
    exact iff_of_true (checked_getProperty entry.from_start name.short).safe trivial
  | findEntry name value =>
    refine (safe_findEntry name.short).trans (forall₂_congr fun q _ => ?_)
    simp only [Option.map_eq_some_iff]
    constructor
    · intro h v hv
      exact h v.bytes ⟨v, hv, rfl⟩
    · rintro h _ ⟨v, hv, rfl⟩
      exact h v hv
  | findNode name => exact safe_findNode name.short
  | iterateEntries iter made => exact safe_iterateEntries made
  | iterateProperties iter made => exact safe_iterateProperties made

/-- Eight bytes at 16: a root without properties that claims to have a child. -/
def oneHeader : Region where
  mem := fun a => if a = 20 then 1 else 0
  start := 16
  stop := 24
  low := by decide
  le := by decide
  top := by decide

/-- The search for a node whose property "x" has no bytes. -/
def searchX : Call oneHeader := .findNode ⟨[0x78], by decide, by decide⟩ []

/-- The search reads the header of the child behind the end of the region. -/
theorem searchX_outside : DeviceTree.findNode oneHeader [0x78] [] = .error .outside ∧
    ¬ searchX.StaysInside := by
  have hrun : DeviceTree.findNode oneHeader [0x78] [] = .error .outside := by decide
  refine ⟨hrun, fun h => ?_⟩
  have hsafe : Safe (DeviceTree.findNode oneHeader [0x78] []) := h
  rw [hrun] at hsafe
  cases hsafe

end XnuXzs.DeviceTree
