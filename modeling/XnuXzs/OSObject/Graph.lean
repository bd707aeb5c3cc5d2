import XnuXzs.OSObject.Encoding

/-!
# Graphs of objects

A heap with a root, as the classes keep them. Two graphs are isomorphic when a one-to-one
relation of their objects keeps classes, values, order and keys.
-/

namespace XnuXzs.OSObject

open Lib

/-- The pointer is the root or a member of some object. -/
def Occurs (h : Heap) (root r : Ref) : Prop := r = root ∨ ∃ c ∈ h, r ∈ c.body.members

def View.WellFormed (h : Heap) : View → Prop
  | .boolean _ => True
  | .object (.dictionary entries) =>
    (∀ e ∈ entries, ∃ name, view h e.1 = some (.object (.symbol name))) ∧
      (entries.map Prod.fst).Nodup
  | .object (.array _) => True
  | .object (.set members) => members.Nodup
  | .object (.number value size) =>
    (size = 8 ∨ size = 16 ∨ size = 32 ∨ size = 64) ∧ value < 2 ^ size
  | .object (.symbol name) => 0 ∉ name ∧ name.length < kMaxStringLength
  | .object (.string bytes) => bytes.length < kMaxStringLength
  | .object (.data _ _) => True

/-- Every count and length is below 2^24. -/
def View.Small : View → Prop
  | .boolean _ => True
  | .object (.dictionary entries) => entries.length < 2 ^ 24
  | .object (.array members) => members.length < 2 ^ 24
  | .object (.set members) => members.length < 2 ^ 24
  | .object (.number _ _) => True
  | .object (.symbol name) => name.length < 2 ^ 24
  | .object (.string bytes) => bytes.length < 2 ^ 24
  | .object (.data bytes _) => bytes.length < 2 ^ 24

/-- A string ends at its first zero, and data may not be excluded. -/
def View.Plain : View → Prop
  | .object (.string bytes) => 0 ∉ bytes
  | .object (.data _ serializable) => serializable = true
  | _ => True

structure Graph where
  heap : Heap
  root : Ref
  wellFormed : ∀ r, Occurs heap root r → ∃ v, view heap r = some v ∧ v.WellFormed heap
  symbols : ∀ a b name, Occurs heap root a → Occurs heap root b →
    view heap a = some (.object (.symbol name)) → view heap b = some (.object (.symbol name)) →
      a = b

/-- The same class and value, with related members in the same order. -/
inductive Alike (R : Ref → Ref → Prop) : View → View → Prop
  | boolean (value : Bool) : Alike R (.boolean value) (.boolean value)
  | dictionary {es es' : List (Ref × Ref)}
      (hes : List.Forall₂ (fun e e' => R e.1 e'.1 ∧ R e.2 e'.2) es es') :
      Alike R (.object (.dictionary es)) (.object (.dictionary es'))
  | array {ms ms' : List Ref} (hms : List.Forall₂ R ms ms') :
      Alike R (.object (.array ms)) (.object (.array ms'))
  | set {ms ms' : List Ref} (hms : List.Forall₂ R ms ms') :
      Alike R (.object (.set ms)) (.object (.set ms'))
  | number (value size : Nat) : Alike R (.object (.number value size))
      (.object (.number value size))
  | symbol (name : List UInt8) : Alike R (.object (.symbol name)) (.object (.symbol name))
  | string (bytes : List UInt8) : Alike R (.object (.string bytes)) (.object (.string bytes))
  | data (bytes : List UInt8) (a b : Bool) :
      Alike R (.object (.data bytes a)) (.object (.data bytes b))

def Alive (h : Heap) : Ref → Prop
  | .cell i => refsAt h i ≠ 0
  | _ => True

/-- Two positions hold the same object on one side exactly when they do on the other. -/
def Isomorphic (h : Heap) (root : Ref) (h' : Heap) (root' : Ref) : Prop :=
  ∃ R : Ref → Ref → Prop, R root root' ∧ (∀ a b b', R a b → R a b' → b = b') ∧
    (∀ a a' b, R a b → R a' b → a = a') ∧
    ∀ a b, R a b → Alive h' b ∧ ∃ v v', view h a = some v ∧ view h' b = some v' ∧ Alike R v v'

inductive Shape where
  | dictionary | array | set
  deriving DecidableEq

def pairs : List Ref → List (Ref × Ref)
  | a :: b :: rest => (a, b) :: pairs rest
  | _ => []

def leftover : List Ref → Option Ref
  | _ :: _ :: rest => leftover rest
  | [a] => some a
  | [] => none

def Shape.fill : Shape → List Ref → Obj
  | .dictionary, l => .dictionary (pairs l)
  | .array, l => .array l
  | .set, l => .set l

def Shape.pending : Shape → List Ref → Option Ref
  | .dictionary, l => leftover l
  | _, _ => none

def View.shape : View → Option Shape
  | .object (.dictionary _) => some .dictionary
  | .object (.array _) => some .array
  | .object (.set _) => some .set
  | _ => none

theorem pairs_append_one (l : List Ref) (b : Ref) :
    (leftover l = none → pairs (l ++ [b]) = pairs l ∧ leftover (l ++ [b]) = some b) ∧
      ∀ k, leftover l = some k →
        pairs (l ++ [b]) = pairs l ++ [(k, b)] ∧ leftover (l ++ [b]) = none := by
  induction l using pairs.induct with
  | case1 x y rest ih =>
    simp only [List.cons_append, pairs, leftover, List.cons.injEq, true_and]
    exact ih
  | case2 l hshort =>
    match l, hshort with
    | [], _ => exact ⟨fun _ => ⟨rfl, rfl⟩, nofun⟩
    | [a], _ =>
      refine ⟨nofun, ?_⟩
      rintro k ⟨⟩
      exact ⟨rfl, rfl⟩
    | a :: b :: rest, hshort => exact absurd rfl (hshort a b rest)

theorem pairs_flatMap (entries : List (Ref × Ref)) :
    pairs (entries.flatMap fun e => [e.1, e.2]) = entries ∧
      leftover (entries.flatMap fun e => [e.1, e.2]) = none := by
  induction entries with
  | nil => exact ⟨rfl, rfl⟩
  | cons e rest ih =>
    simp [pairs, leftover, ih.1, ih.2]

theorem pairs_map (φ : Ref → Ref) (l : List Ref) :
    pairs (l.map φ) = (pairs l).map fun e => (φ e.1, φ e.2) := by
  induction l using pairs.induct with
  | case1 x y rest ih => simp [pairs, ih]
  | case2 l hshort =>
    match l, hshort with
    | [], _ => rfl
    | [a], _ => rfl
    | a :: b :: rest, hshort => exact absurd rfl (hshort a b rest)

theorem leftover_map (φ : Ref → Ref) (l : List Ref) : leftover (l.map φ) = (leftover l).map φ := by
  induction l using pairs.induct with
  | case1 x y rest ih => simp [leftover, ih]
  | case2 l hshort =>
    match l, hshort with
    | [], _ => rfl
    | [a], _ => rfl
    | a :: b :: rest, hshort => exact absurd rfl (hshort a b rest)

/-- A collection is its shape filled with its members. -/
theorem View.eq_fill {v : View} {K : Shape} (hK : v.shape = some K) :
    v = .object (K.fill v.members) ∧ K.pending v.members = none := by
  rcases v with value | o
  · cases hK
  cases o with
  | dictionary entries =>
    cases hK
    obtain ⟨hpairs, hleft⟩ := pairs_flatMap entries
    exact ⟨by simp [members, Obj.members, Shape.fill, hpairs], hleft⟩
  | array | set => cases hK; exact ⟨rfl, rfl⟩
  | _ => cases hK

end XnuXzs.OSObject
