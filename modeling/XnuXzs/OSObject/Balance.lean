import XnuXzs.OSObject.Operations

/-!
# The decoder and the counts

The decoder finds its bytes inside of the buffer. While it reads, the array of objects is the only
holder of what the call has made.
-/

namespace XnuXzs.OSObject

open Lib List Option

variable {pos i limit : Nat} {buf : List UInt8}

theorem bytesFrom_ok {n : Nat} (hin : pos + n ≤ buf.length) :
    bytesFrom buf pos n = .ok ((buf.drop pos).take n) :=
  if_pos hin

theorem wordFrom_ok (hin : pos + 4 ≤ buf.length) :
    wordFrom buf pos = .ok (leValue ((buf.drop pos).take 4)) := by
  rw [wordFrom, bytesFrom_ok hin]
  rfl

theorem cStringFrom_ok (hin : pos + limit ≤ buf.length) :
    cStringFrom buf pos limit = .ok (((buf.drop pos).take limit).takeWhile (· ≠ 0)) := by
  apply if_pos
  right
  rw [length_take, length_drop]
  omega

/-- The zero that the decoder has seen stops the search in time. -/
theorem cStringFrom_terminated {len : Nat} (hlen : 1 ≤ len) (hin : pos + len ≤ buf.length)
    (hlast : (buf.drop (pos + len - 1)).take 1 = [0]) :
    cStringFrom buf pos limit = .ok (((buf.drop pos).take limit).takeWhile (· ≠ 0)) := by
  apply if_pos
  rcases lt_or_ge limit len with hshort | hlong
  · right
    rw [length_take, length_drop]
    omega
  left
  apply mem_take_iff_getElem.mpr
  have hlt : pos + len - 1 < buf.length := by omega
  rw [drop_eq_getElem_cons hlt, take_succ_cons, take_zero] at hlast
  refine ⟨len - 1, ?_, ?_⟩
  · rw [length_drop]
    omega
  · rw [getElem_drop, ← head_eq_of_cons_eq hlast]
    congr 1
    omega

/-- The symbols that are there when the call starts, and who holds them. -/
structure Pool where
  heap : Heap
  ext : List Nat
  symbols : ∀ c ∈ heap, c.body.kind = .symbol
  balanced : Balanced counting heap ext
  held : ∀ i < heap.length, i ∈ ext

/-- The heap is balanced, the enrolled objects held once each, with every pointer of the loop to
one. -/
structure Sound (pool : Pool) (s : Unserializer) : Prop where
  balanced : Balanced counting s.heap (s.objs.flatMap Ref.counted ++ pool.ext)
  pinned : Pinned s.heap (s.objs.flatMap Ref.counted ++ pool.ext)
  stack : ∀ c, some c ∈ s.stack → .cell c ∈ s.objs
  parent : ∀ c, s.parent = some c → .cell c ∈ s.objs
  sym : ∀ r, s.sym = some r → r ∈ s.objs
  result : ∀ r, s.result = some r → s.objs.head? = some r

/-- Before the first object there is none. -/
def Fresh (s : Unserializer) : Prop := s.result = none → s.objs = []

variable {env : Env} {pool : Pool} {s s' : Unserializer} {o : Ref} {h : Heap} {objs : List Ref}

theorem counted_subset (ho : o ∈ objs) : o.counted ⊆ objs.flatMap Ref.counted ++ pool.ext := by
  intro i hi
  exact mem_append_left _ (mem_flatMap.mpr ⟨o, ho, hi⟩)

theorem Sound.enter {c : Nat} {dict array set : Option Nat} (hs : Sound pool s)
    (hc : .cell c ∈ s.objs) : Sound pool { s with parent := some c, dict, array, set } := by
  refine { hs with parent := ?_ }
  rintro d ⟨⟩
  exact hc

theorem Sound.enroll {pos capacity : Nat} (hs : Sound pool s)
    (hb : Balanced counting h (o.counted ++ (s.objs.flatMap Ref.counted ++ pool.ext)))
    (hadds : Adds s.heap h o) : Sound pool
      { s with heap := h, pos, objs := s.objs ++ [o], objsCapacity := capacity } where
  balanced := by
    apply hb.congr
    intro j
    simp only [flatMap_append, flatMap_cons, flatMap_nil, append_nil, count_append]
    omega
  pinned := by
    apply (hadds.pinned hs.pinned).mono
    intro j hj
    simp only [flatMap_append, flatMap_cons, flatMap_nil, append_nil, mem_append] at hj ⊢
    tauto
  stack c hc := mem_append_left _ (hs.stack c hc)
  parent c hc := mem_append_left _ (hs.parent c hc)
  sym r hr := mem_append_left _ (hs.sym r hr)
  result r hr := by rw [head?_append, hs.result r hr]; rfl

theorem round_more {indexed : Bool}
    (hround : round env buf indexed s = .ok (.more s')) :
    s.pos + 4 ≤ buf.length := by
  by_contra hout
  rw [round, if_pos (Nat.lt_of_not_le hout)] at hround
  cases hround

theorem Pool.pinned (pool : Pool) : Pinned pool.heap pool.ext := by
  intro i o hi _
  obtain ⟨refs, hcell⟩ := getElem?_of_bodies hi
  exact pool.held i (List.getElem?_eq_some_iff.mp hcell).1

theorem sound_start (pool : Pool) : Sound pool { heap := pool.heap, pos := 4 } := by
  refine ⟨pool.balanced, pool.pinned, ?_, ?_, ?_, ?_⟩ <;> simp

/-- What the caller gets a reference to. -/
def owned (result : Option Ref) : List Nat := result.elim [] Ref.counted

theorem Decoded.split {d : Decoded} {held : List Nat}
    (hresult : ∀ r, d.result = some r → d.objs.head? = some r)
    (hb : Balanced counting d.heap (d.objs.flatMap Ref.counted ++ held)) :
    Balanced counting d.heap (d.dropped.flatMap Ref.counted ++ (owned d.result ++ held)) := by
  unfold Decoded.dropped owned
  rcases hr : d.result with _ | r
  · exact hb
  obtain ⟨rest, hobjs⟩ := head?_eq_some_iff.mp (hresult r hr)
  rw [hobjs] at hb ⊢
  apply hb.congr
  intro j
  simp only [isSome_some, if_true, drop_succ_cons, drop_zero, elim_some, flatMap_cons, count_append]
  omega

/-- Every allocation succeeds with what was asked for, and no symbol is permanent. -/
def plainEnv : Env where
  object _ := true
  symbol _ := true
  member _ := true
  objs _ := some 0
  stack _ := some 0
  permanent _ := false
  narrow := id

def emptyPool : Pool where
  heap := []
  ext := []
  symbols := nofun
  balanced := fun _ _ => rfl
  held := nofun

end XnuXzs.OSObject
