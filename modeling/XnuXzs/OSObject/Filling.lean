import XnuXzs.OSObject.Rounds

/-!
# Where the members go

The decoder stands at the top or in a collection that has some of its members.
An object that is placed there becomes the next member, and nothing else changes.
-/

namespace XnuXzs.OSObject

open Lib

inductive Place where
  | top
  | inside (K : Shape) (c : Nat) (l : List Ref)
  | returned (r : Ref)

def Place.next : Place → Ref → Place
  | .top, b => .returned b
  | .inside K c l, b => .inside K c (l ++ [b])
  | .returned r, _ => .returned r

def Place.container : Place → Option Nat
  | .inside _ c _ => some c
  | _ => none

def Filled (s : Unserializer) : Place → Prop
  | .top => s.sym = none ∧ s.result = none
  | .inside K c l =>
    (bodies s.heap)[c]? = some (K.fill l) ∧ s.sym = K.pending l ∧ s.result ≠ none
  | .returned r => s.sym = none ∧ s.result = some r

def Pointing (s : Unserializer) : Place → Prop
  | .top => s.parent = none ∧ s.dict = none ∧ s.array = none ∧ s.set = none
  | .inside K c _ => s.parent = some c ∧ s.dict = (if K = .dictionary then some c else none) ∧
    s.array = (if K = .array then some c else none) ∧ s.set = (if K = .set then some c else none)
  | .returned _ => False

/-- The object may be put there: it is new in the set, or its key is a symbol without a value
and it is not the dictionary itself. -/
def Accepts (s : Unserializer) (b : Ref) : Place → Prop
  | .inside .set _ l => b ∉ l
  | .inside .dictionary c l => ∀ k, leftover l = some k →
    isSymbol s.heap k = true ∧ k ∉ (pairs l).map Prod.fst ∧ b ≠ .cell c
  | _ => True

variable {c : Nat} {body : Obj} {h' : Heap}

/-- Only the objects at `p` may differ. -/
def SameBut (p : Option Nat) (h h' : Heap) : Prop :=
  (bodies h').length = (bodies h).length ∧
    ∀ i, p ≠ some i → (bodies h')[i]? = (bodies h)[i]?

theorem SameBut.refl (p : Option Nat) (h : Heap) : SameBut p h h := ⟨rfl, fun _ _ => rfl⟩

theorem SameBut.set {h : Heap} (hst : bodies h' = (bodies h).set c body) :
    SameBut (some c) h h' := by
  refine ⟨by rw [hst, List.length_set], ?_⟩
  intro i hi
  rw [hst, List.getElem?_set_ne fun heq => hi (congrArg some heq)]

variable {env : Env} {pool : Pool} {s : Unserializer} {start : Nat} {b : Ref}

/-- What placing an object leaves as it was. -/
structure PutSpec (pool : Pool) (s s' : Unserializer) (p : Place) (b : Ref) : Prop where
  sound : Sound pool s'
  filled : Filled s' (p.next b)
  same : SameBut p.container s.heap s'.heap
  objs : s'.objs = s.objs
  pos : s'.pos = s.pos
  stack : s'.stack = s.stack
  parent : s'.parent = s.parent
  dict : s'.dict = s.dict
  array : s'.array = s.array
  set : s'.set = s.set
  result : s'.result ≠ none
  keeps : s.result ≠ none → s'.result = s.result

theorem putSpec_inside {K : Shape} {l : List Ref} {sym : Option Ref}
    (hput : addMember env start s b = .ok (true, { s with heap := h', sym := sym }))
    (hsound : Sound pool { s with heap := h', sym := sym })
    (hfilled : Filled { s with heap := h', sym := sym } (.inside K c (l ++ [b])))
    (hsame : SameBut (some c) s.heap h') :
    ∃ s', addMember env start s b = .ok (true, s') ∧ PutSpec pool s s' (.inside K c l) b :=
  ⟨_, hput, hsound, hfilled, hsame, rfl, rfl, rfl, rfl, rfl, rfl, rfl, hfilled.2.2, fun _ => rfl⟩

theorem addMember_puts (henv : env.Grants) (hs : Sound pool s) {p : Place} (hfilled : Filled s p)
    (hpoint : Pointing s p) (hb : b ∈ s.objs) (haccept : Accepts s b p)
    (hfirst : s.result = none → s.objs.head? = some b) :
    ∃ s', addMember env start s b = .ok (true, s') ∧ PutSpec pool s s' p b := by
  cases p with
  | top =>
    obtain ⟨-, hdict, harray, hset⟩ := hpoint
    obtain ⟨hsym, hres⟩ := hfilled
    have hsound : Sound pool { s with result := some b } := by
      refine { hs with result := ?_ }
      rintro r ⟨⟩
      exact hfirst hres
    refine ⟨_, ?_, hsound, ⟨hsym, rfl⟩, SameBut.refl _ _, rfl, rfl, rfl, rfl, rfl, rfl, rfl,
      Option.some_ne_none b, absurd hres⟩
    simp only [addMember, hdict, harray, hset, hres]
    rfl
  | inside K c l =>
    obtain ⟨hparent, hdict, harray, hset⟩ := hpoint
    obtain ⟨hbody, hsym, hres⟩ := hfilled
    obtain ⟨refs, hcell⟩ := getElem?_of_bodies hbody
    have hself (body : Obj) : ((bodies s.heap).set c body)[c]? = some body :=
      List.getElem?_set_self (List.getElem?_eq_some_iff.mp hbody).1
    have hheld : c ∈ s.objs.flatMap Ref.counted ++ pool.ext :=
      counted_subset (hs.parent c hparent) (List.mem_singleton_self c)
    cases K with
    | array =>
      simp only [reduceCtorEq, if_false, if_true] at hdict harray hset
      obtain ⟨h', hok, hb', hst⟩ :=
        arraySetObject_spec hs.balanced hheld (counted_subset hb) hcell
      refine putSpec_inside ?_ { hs with balanced := hb', pinned := hs.pinned.set hst rfl }
        ⟨hst ▸ hself _, hsym, hres⟩ (.set hst)
      simp only [addMember, hdict, harray, henv.member, hok]
      rfl
    | set =>
      simp only [reduceCtorEq, if_false, if_true] at hdict harray hset
      obtain ⟨h', hok, hb', hst⟩ :=
        setSetObject_spec hs.balanced hheld (counted_subset hb) hcell haccept
      refine putSpec_inside ?_ { hs with balanced := hb', pinned := hs.pinned.set hst rfl }
        ⟨hst ▸ hself _, hsym, hres⟩ (.set hst)
      simp only [addMember, hdict, harray, hset, henv.member, hok]
      rfl
    | dictionary =>
      simp only [reduceCtorEq, if_false, if_true] at hdict harray hset
      rcases hleft : leftover l with _ | k
      · -- a key waits for its value
        rw [Shape.pending, hleft] at hsym
        obtain ⟨hpairs, hleft'⟩ := (pairs_append_one l b).1 hleft
        have hsound : Sound pool { s with sym := some b } := by
          refine { hs with sym := ?_ }
          rintro r ⟨⟩
          exact hb
        refine putSpec_inside ?_ hsound ⟨?_, hleft'.symm, hres⟩ (SameBut.refl _ _)
        · simp only [addMember, hdict, hsym]
          rfl
        · rw [Shape.fill, hpairs]
          exact hbody
      · rw [Shape.pending, hleft] at hsym
        obtain ⟨hsymbol, hkey, hne⟩ := haccept k hleft
        obtain ⟨h', hok, hb', hst⟩ := dictSetObject_spec hs.balanced hheld
          (counted_subset (hs.sym k hsym)) (counted_subset hb) hcell hkey
        obtain ⟨hpairs, hleft'⟩ := (pairs_append_one l b).2 k hleft
        have hsound : Sound pool { s with heap := h', sym := none } :=
          { hs with balanced := hb', pinned := hs.pinned.set hst rfl, sym := by simp }
        refine putSpec_inside ?_ hsound ⟨?_, hleft'.symm, hres⟩ (.set hst)
        · simp only [addMember, hdict, hsym, addEntry, keySymbol, hsymbol, setUnlessSelf, hne,
            henv.member, hok, releaseTemp, if_true, if_false, pure, Except.pure, bind, Except.bind]
        · rw [Shape.fill, hpairs]
          exact hst ▸ hself _
  | returned => exact hpoint.elim

end XnuXzs.OSObject
