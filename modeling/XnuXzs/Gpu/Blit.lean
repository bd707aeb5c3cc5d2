import XnuXzs.Framebuffer.Render
import Mathlib.Tactic.IntervalCases

/-!
# The scaler

`xzs_m2scaler_blit_by_id` fills, converts, copies or scales a rectangle. One that is empty or
too large is cut at the edge of its surface, in 32-bit arithmetic.
-/

namespace XnuXzs.Gpu

open Lib Framebuffer

structure Surface where
  width : Int
  height : Int
  bytesPerElement : Nat
  pixelFormat : Nat
  planeCount : Nat
  mapped : Bool

structure Rect where
  x : Int
  y : Int
  w : Int
  h : Int

inductive Result where
  | badArgument
  | vmError
  | success
  deriving DecidableEq

/-- What is stored: zero, a pixel, or the element of the source at a row and a column. -/
inductive Value where
  | zero
  | pixel (v : Pixel)
  | element (r c : Int)
  deriving DecidableEq

def swapRb1 (v : BitVec 32) : BitVec 32 :=
  (v &&& 0xff00ff00#32) ||| ((v &&& 0x00ff0000#32) >>> 16) ||| ((v &&& 0x000000ff#32) <<< 16)

def swarSwapRb2 (v : BitVec 64) : BitVec 64 :=
  (v &&& 0xff00ff00ff00ff00#64) ||| ((v &&& 0x00ff000000ff0000#64) >>> 16) |||
    ((v &&& 0x000000ff000000ff#64) <<< 16)

def fmtIsRgbaOrder (fmt : Nat) : Bool := fmt == 0x52474241 || fmt == 0x52474258 || fmt == 0x41424752
def fmtIsNv12 (fmt : Nat) : Bool := fmt == 0x34323076 || fmt == 0x34323066

def clampU8 (v : Int) : BitVec 32 :=
    BitVec.ofInt 32 (if v < 0 then 0 else if v > 255 then 255 else v)

def cut (start size limit : Int) : Int × Int :=
  let start := if start < 0 then 0 else start
  (start, if size ≤ 0 ∨ i32 (start + size) > limit then i32 (limit - start) else size)

def Rect.cut (r : Rect) (s : Surface) : Rect :=
  ⟨(Gpu.cut r.x r.w s.width).1, (Gpu.cut r.y r.h s.height).1,
    (Gpu.cut r.x r.w s.width).2, (Gpu.cut r.y r.h s.height).2⟩

def Surface.bpe (s : Surface) : Nat := if s.bytesPerElement = 0 then 4 else s.bytesPerElement

def needRbSwap (s d : Surface) : Bool :=
  s.bpe == 4 && d.bpe == 4 && fmtIsRgbaOrder s.pixelFormat != fmtIsRgbaOrder d.pixelFormat

/-- The bytes of the two planes of an NV12 surface by row and column. -/
structure Planes where
  luma : Int → Int → Int
  chroma : Int → Int → Int

def Planes.convert (q : Planes) (fullRange : Bool) (r c : Int) : Pixel :=
  let even := c - c % 2
  let cb := q.chroma (r / 2) even - 128
  let cr := q.chroma (r / 2) (even + 1) - 128
  let v := if fullRange then q.luma r c * 256 else (q.luma r c - 16) * 298
  let v := if v < 0 then 0 else v
  0xff000000#32 ||| (clampU8 ((v + 409 * cr + 128) / 256) <<< 16) |||
    (clampU8 ((v - 100 * cb - 208 * cr + 128) / 256) <<< 8) ||| clampU8 ((v + 516 * cb + 128) / 256)

variable (px : Pixels) (planes : Planes) (s d : Surface) (sr dr : Rect)

/-- A row of the destination, two pixels at a time. -/
def swarRow (r y : Int) (x : Int) : List (Put Value) :=
  if x + 2 ≤ dr.w then
    let v := swarSwapRb2 (px r (sr.x + x + 1) ++ px r (sr.x + x))
    ⟨dr.x + x, dr.y + y, .pixel (v.setWidth 32), [(r, sr.x + x)]⟩ ::
      ⟨dr.x + (x + 1), dr.y + y, .pixel ((v >>> 32).setWidth 32), [(r, sr.x + (x + 1))]⟩ ::
        swarRow r y (x + 2)
  else (span x dr.w).map fun x =>
    ⟨dr.x + x, dr.y + y, .pixel (swapRb1 (px r (sr.x + x))), [(r, sr.x + x)]⟩
termination_by (dr.w - x).toNat

/-- The rectangles are cut and not empty. -/
def blitRects : List (Put Value) :=
  let scaleX x := (x * sr.w).tdiv dr.w
  let scaleY y := (y * sr.h).tdiv dr.h
  if fmtIsNv12 s.pixelFormat ∧ 2 ≤ s.planeCount ∧
    (d.bytesPerElement = 4 ∨ d.bytesPerElement = 0) then
    (span 0 dr.h).flatMap fun y => (span 0 dr.w).map fun x =>
      ⟨dr.x + x, dr.y + y,
        .pixel (planes.convert (s.pixelFormat == 0x34323066) (sr.y + scaleY y) (sr.x + scaleX x)),
        [(sr.y + scaleY y, sr.x + scaleX x)]⟩
  else if sr.w = dr.w ∧ sr.h = dr.h ∧ s.bpe = 4 ∧ d.bpe = 4 then
    (span 0 dr.h).flatMap fun y =>
      if needRbSwap s d then swarRow px sr dr (sr.y + y) y 0
      else (span 0 dr.w).map fun x =>
        ⟨dr.x + x, dr.y + y, .pixel (px (sr.y + y) (sr.x + x)), [(sr.y + y, sr.x + x)]⟩
  else if s.bpe = 4 ∧ d.bpe = 4 then
    (span 0 dr.h).flatMap fun y => (span 0 dr.w).map fun x =>
      let v := px (sr.y + scaleY y) (sr.x + scaleX x)
      ⟨dr.x + x, dr.y + y, .pixel (if needRbSwap s d then swapRb1 v else v),
        [(sr.y + scaleY y, sr.x + scaleX x)]⟩
  else if s.bpe = d.bpe then
    (span 0 (if sr.h < dr.h then sr.h else dr.h)).flatMap fun y =>
      (span 0 (if sr.w < dr.w then sr.w else dr.w)).map fun x =>
        ⟨dr.x + x, dr.y + y, .element (sr.y + y) (sr.x + x), [(sr.y + y, sr.x + x)]⟩
  else []

def blit (px : Pixels) (planes : Planes) (srcId : Nat) (src dst : Option Surface)
    (sr dr : Rect) (flags : Nat) :
    Result × List (Put Value) :=
  match dst with
  | none => (.badArgument, [])
  | some d =>
    if d.mapped = false ∨ d.width = 0 ∨ d.height = 0 then (.vmError, []) else
    let dr := dr.cut d
    if dr.w ≤ 0 ∨ dr.h ≤ 0 then (.success, []) else
    if srcId = 0 ∨ flags.testBit 1 then
      (.success, (span 0 dr.h).flatMap fun y => (span 0 dr.w).map fun x =>
        ⟨dr.x + x, dr.y + y, .zero, []⟩)
    else
    match src with
    | none => (.badArgument, [])
    | some s =>
      if s.mapped = false ∨ s.width = 0 ∨ s.height = 0 then (.vmError, []) else
      let sr := sr.cut s
      if sr.w ≤ 0 ∨ sr.h ≤ 0 then (.success, []) else
      (.success, blitRects px planes s d sr dr)

theorem swarSwapRb2_append (a b : BitVec 32) : swarSwapRb2 (b ++ a) = swapRb1 b ++ swapRb1 a := by
  apply BitVec.eq_of_getLsbD_eq
  intro i hi
  simp only [swarSwapRb2, swapRb1, BitVec.getLsbD_or, BitVec.getLsbD_and,
    BitVec.getLsbD_ushiftRight,
    BitVec.getLsbD_shiftLeft, BitVec.getLsbD_append]
  interval_cases i <;> simp

theorem append_low (a b : BitVec 32) : (b ++ a).setWidth 32 = a := by
  apply BitVec.eq_of_getLsbD_eq
  intro i hi
  rw [BitVec.getLsbD_setWidth, BitVec.getLsbD_append, if_pos hi]
  simp [hi]

theorem append_high (a b : BitVec 32) : ((b ++ a) >>> 32).setWidth 32 = b := by
  apply BitVec.eq_of_getLsbD_eq
  intro i hi
  rw [BitVec.getLsbD_setWidth, BitVec.getLsbD_ushiftRight, BitVec.getLsbD_append, if_neg (by omega)]
  simp [hi]

variable {px : Pixels} {planes : Planes} {s d : Surface} {sr dr r : Rect}

theorem swarRow_eq (r y x : Int) : swarRow px sr dr r y x = (span x dr.w).map fun x =>
    ⟨dr.x + x, dr.y + y, .pixel (swapRb1 (px r (sr.x + x))), [(r, sr.x + x)]⟩ := by
  fun_induction swarRow px sr dr r y x with
  | case1 x h v ih =>
    rw [ih, span_cons (by omega : x < dr.w), span_cons (by omega : x + 1 < dr.w)]
    simp only [v, swarSwapRb2_append, append_low, append_high, List.map_cons, Int.add_assoc]
    rfl
  | case2 => rfl

/-- A pixel of the source, with its channels swapped if the formats differ in their order. -/
def converted (px : Pixels) (s d : Surface) (r c : Int) : Pixel :=
  if needRbSwap s d then swapRb1 (px r c) else px r c

/-- The scaled coordinate, counted from the start of the destination. -/
def Rect.sourceX (sr dr : Rect) (x : Int) : Int := sr.x + (x - dr.x) * sr.w / dr.w
def Rect.sourceY (sr dr : Rect) (y : Int) : Int := sr.y + (y - dr.y) * sr.h / dr.h

def blitPut (px : Pixels) (s d : Surface) (sr dr : Rect) (y x : Int) : Put Value :=
  ⟨x, y, .pixel (converted px s d (sr.sourceY dr y) (sr.sourceX dr x)),
    [(sr.sourceY dr y, sr.sourceX dr x)]⟩

theorem span_shift (a n : Int) : (span 0 n).map (a + ·) = span a (a + n) := by
  have hlen : (n - 0).toNat = (a + n - a).toNat := by
    congr 1
    omega
  rw [span, span, hlen, List.map_map]
  apply List.map_congr_left
  intro k _
  simp

/-- The copy and the scaling are the same raster over the destination. -/
theorem blitRects_eq (hs : s.bpe = 4) (hd : d.bpe = 4)
    (hplain : ¬(fmtIsNv12 s.pixelFormat = true ∧ 2 ≤ s.planeCount)) (hw : 0 < sr.w)
    (hh : 0 < sr.h) (hw' : 0 < dr.w) (hh' : 0 < dr.h) :
    blitRects px planes s d sr dr =
      (span dr.y (dr.y + dr.h)).flatMap fun y =>
        (span dr.x (dr.x + dr.w)).map (blitPut px s d sr dr y) := by
  have hraster : ((span dr.y (dr.y + dr.h)).flatMap fun y =>
    (span dr.x (dr.x + dr.w)).map (blitPut px s d sr dr y)) =
      (span 0 dr.h).flatMap fun y => (span 0 dr.w).map fun x =>
        blitPut px s d sr dr (dr.y + y) (dr.x + x) := by
    rw [← span_shift, ← span_shift, List.flatMap_map]
    simp [Function.comp_def]
  rw [hraster, blitRects]
  rw [if_neg fun h => hplain ⟨h.1, h.2.1⟩]
  split
  · next hsame =>
    obtain ⟨hsw, hsh, -⟩ := hsame
    have hx : ∀ x, sr.sourceX dr (dr.x + x) = sr.x + x := by
      intro x
      rw [Rect.sourceX, hsw, Int.mul_ediv_cancel _ hw'.ne']
      omega
    have hy : ∀ y, sr.sourceY dr (dr.y + y) = sr.y + y := by
      intro y
      rw [Rect.sourceY, hsh, Int.mul_ediv_cancel _ hh'.ne']
      omega
    simp only [blitPut, hx, hy, converted]
    cases needRbSwap s d with
    | true =>
      exact congrArg (fun f => List.flatMap f (span 0 dr.h)) (funext fun y => swarRow_eq ..)
    | false => rfl
  · rw [if_pos ⟨hs, hd⟩]
    apply List.flatMap_congr
    intro y hy
    apply List.map_congr_left
    intro x hx
    rw [mem_span] at hx hy
    have hX : sr.sourceX dr (dr.x + x) = sr.x + (x * sr.w).tdiv dr.w := by
      rw [Rect.sourceX, Int.tdiv_eq_ediv_of_nonneg (Int.mul_nonneg hx.1 hw.le)]
      simp
    have hY : sr.sourceY dr (dr.y + y) = sr.y + (y * sr.h).tdiv dr.h := by
      rw [Rect.sourceY, Int.tdiv_eq_ediv_of_nonneg (Int.mul_nonneg hy.1 hh.le)]
      simp
    rw [blitPut, hX, hY]
    rfl

/-- A negative origin is moved to 0; the size stays. -/
def Rect.moved (r : Rect) : Rect := ⟨max r.x 0, max r.y 0, r.w, r.h⟩

/-- Integers of 32 bits whose sums do not wrap. -/
def Rect.Plain (r : Rect) : Prop :=
  (r.x < 2 ^ 31 ∧ r.moved.x + r.w < 2 ^ 31) ∧ r.y < 2 ^ 31 ∧ r.moved.y + r.h < 2 ^ 31

/-- The declared size of a surface of pixels. -/
def Surface.Sized (s : Surface) : Prop :=
  (0 ≤ s.width ∧ s.width < 2 ^ 30) ∧ 0 ≤ s.height ∧ s.height < 2 ^ 31

/-- The points of a rectangle, which has no end where its size is not positive. -/
def Rect.Has (r : Rect) (x y : Int) : Prop :=
  (r.x ≤ x ∧ (0 < r.w → x < r.x + r.w)) ∧ r.y ≤ y ∧ (0 < r.h → y < r.y + r.h)

/-- The part of a rectangle on its surface. -/
def Rect.On (r : Rect) (s : Surface) (x y : Int) : Prop :=
  r.moved.Has x y ∧ x < s.width ∧ y < s.height

theorem cut_spec {start size limit : Int} (hstart : start < 2 ^ 31)
    (hend : max start 0 + size < 2 ^ 31) (hlimit : 0 ≤ limit ∧ limit < 2 ^ 31) :
    (cut start size limit).1 = max start 0 ∧
      ∀ v, (max start 0 ≤ v ∧ v < max start 0 + (cut start size limit).2) ↔
        (max start 0 ≤ v ∧ (0 < size → v < max start 0 + size)) ∧ v < limit := by
  have hmoved : (if start < 0 then 0 else start) = max start 0 := by split <;> omega
  rw [cut, hmoved]
  refine ⟨rfl, fun v => ?_⟩
  have hrest : i32 (limit - max start 0) = limit - max start 0 := i32_eq (by omega) (by omega)
  dsimp only
  split
  · next hcut =>
    rcases hcut with h | h
    · omega
    by_cases hsize : size ≤ 0
    · omega
    · rw [i32_eq (by omega) (by omega)] at h
      omega
  · next hcut =>
    have hsum : i32 (max start 0 + size) = max start 0 + size := i32_eq (by omega) (by omega)
    omega

theorem rect_cut_on (hr : r.Plain) (hs : s.Sized) (x y : Int) :
    r.On s x y ↔ (((r.cut s).x ≤ x ∧ x < (r.cut s).x + (r.cut s).w) ∧
      (r.cut s).y ≤ y ∧ y < (r.cut s).y + (r.cut s).h) := by
  obtain ⟨⟨hwidth, hwidth'⟩, hheight⟩ := hs
  obtain ⟨hx, hxs⟩ := cut_spec hr.1.1 hr.1.2 ⟨hwidth, hwidth'.trans (by decide)⟩
  obtain ⟨hy, hys⟩ := cut_spec hr.2.1 hr.2.2 hheight
  have hx' : (r.cut s).x = max r.x 0 := hx
  have hy' : (r.cut s).y = max r.y 0 := hy
  rw [hx', hy']
  exact and_and_and_comm.trans (and_congr (hxs x).symm (hys y).symm)

/-- What a blit stores: the scaled pixel of the source, read inside it, into every pixel of the
rectangle once, and nothing else; without any source pixel, nothing. -/
structure Scales (px : Pixels) (s d : Surface) (sr dr : Rect) (puts : List (Put Value)) : Prop where
  reads : ∀ v ∈ puts, ∀ q ∈ v.reads, sr.On s q.2 q.1
  once : ∀ x y, dr.On d x y → (∃ c r, sr.On s c r) → (puts.filter (Put.isAt x y)).map Put.value =
    [.pixel (converted px s d ((sr.cut s).sourceY (dr.cut d) y) ((sr.cut s).sourceX (dr.cut d) x))]
  rest : ∀ x y, ¬(dr.On d x y ∧ ∃ c r, sr.On s c r) → puts.filter (Put.isAt x y) = []
  requested : 0 ≤ dr.x → 0 ≤ dr.y → ∀ x y, ¬dr.Has x y → puts.filter (Put.isAt x y) = []

theorem Rect.On.has {x y : Int} (h : r.On s x y) (hx : 0 ≤ r.x) (hy : 0 ≤ r.y) : r.Has x y := by
  have hmoved : r.moved = r := by rw [moved, max_eq_left hx, max_eq_left hy]
  exact hmoved ▸ h.1

theorem empty_of_cut (hr : r.Plain) (hs : s.Sized) (h : (r.cut s).w ≤ 0 ∨ (r.cut s).h ≤ 0) :
    ∀ x y, ¬r.On s x y := by
  intro x y hin
  have := (rect_cut_on hr hs x y).mp hin
  omega

theorem blitRects_scales (hsr : sr.Plain) (hdr : dr.Plain) (hs : s.Sized ∧ s.bpe = 4)
    (hplain : ¬(fmtIsNv12 s.pixelFormat = true ∧ 2 ≤ s.planeCount)) (hd : d.Sized ∧ d.bpe = 4)
    (hsrc : ¬((sr.cut s).w ≤ 0 ∨ (sr.cut s).h ≤ 0))
    (hdst : ¬((dr.cut d).w ≤ 0 ∨ (dr.cut d).h ≤ 0)) :
    Scales px s d sr dr (blitRects px planes s d (sr.cut s) (dr.cut d)) := by
  have hraster := @blitRects_eq px planes s d (sr.cut s) (dr.cut d) hs.2 hd.2 hplain
    (by omega) (by omega) (by omega) (by omega)
  have hat := fun x y => @raster_at Value (blitPut px s d (sr.cut s) (dr.cut d)) (fun _ _ => rfl)
    (fun _ _ => rfl) (dr.cut d).x ((dr.cut d).x + (dr.cut d).w) (dr.cut d).y
    ((dr.cut d).y + (dr.cut d).h) x y
  rw [← hraster] at hat
  have hrest : ∀ x y, ¬(dr.On d x y ∧ ∃ c r, sr.On s c r) →
      (blitRects px planes s d (sr.cut s) (dr.cut d)).filter (Put.isAt x y) = [] := by
    intro x y hout
    rw [hat, if_neg]
    intro hin
    apply hout ⟨(rect_cut_on hdr hd.1 x y).mpr hin, (sr.cut s).x, (sr.cut s).y, ?_⟩
    apply (rect_cut_on hsr hs.1 _ _).mpr
    omega
  refine ⟨?_, fun x y hin _ => ?_, hrest,
    fun hx hy x y hout => hrest x y fun h => hout (h.1.has hx hy)⟩
  · rw [hraster]
    intro v hv q hq
    obtain ⟨y, hy, hv⟩ := List.mem_flatMap.mp hv
    obtain ⟨x, hx, rfl⟩ := List.mem_map.mp hv
    obtain rfl := List.mem_singleton.mp hq
    rw [mem_span] at hx hy
    apply (rect_cut_on hsr hs.1 _ _).mpr
    have hX := @floor_mem (x - (dr.cut d).x) (sr.cut s).w (dr.cut d).w
      (by omega) (by omega) (by omega)
    have hY := @floor_mem (y - (dr.cut d).y) (sr.cut s).h (dr.cut d).h
      (by omega) (by omega) (by omega)
    rw [Int.tdiv_eq_ediv_of_nonneg (Int.mul_nonneg (by omega) (by omega))] at hX hY
    simp only [Rect.sourceX, Rect.sourceY]
    omega
  · rw [hat, if_pos ((rect_cut_on hdr hd.1 x y).mp hin)]
    rfl

/-- A blit between surfaces of four-byte pixels fails and stores nothing, has no pixel to
store into, or scales its source. -/
theorem blit_scales (px : Pixels) (planes : Planes) (srcId : Nat) (src dst : Option Surface)
    (sr dr : Rect) (flags : Nat) (hfill : srcId ≠ 0 ∧ flags.testBit 1 = false) (hsr : sr.Plain)
    (hdr : dr.Plain)
    (hsrc : ∀ s ∈ src, (s.Sized ∧ s.bpe = 4) ∧ ¬(fmtIsNv12 s.pixelFormat = true ∧ 2 ≤ s.planeCount))
    (hdst : ∀ d ∈ dst, d.Sized ∧ d.bpe = 4) :
    ((blit px planes srcId src dst sr dr flags).1 ≠ .success ∧
      (blit px planes srcId src dst sr dr flags).2 = []) ∨
      ∃ d ∈ dst, (blit px planes srcId src dst sr dr flags).1 = .success ∧
        (((∀ x y, ¬dr.On d x y) ∧ (blit px planes srcId src dst sr dr flags).2 = []) ∨
          ∃ s ∈ src, Scales px s d sr dr (blit px planes srcId src dst sr dr flags).2) := by
  cases dst with
  | none => exact .inl ⟨nofun, rfl⟩
  | some d =>
    have hd := hdst d rfl
    rw [blit]
    dsimp only
    split
    · exact .inl ⟨nofun, rfl⟩
    split
    · next hempty => exact .inr ⟨d, rfl, rfl, .inl ⟨empty_of_cut hdr hd.1 hempty, rfl⟩⟩
    next hdrect =>
    rw [if_neg (by simp [hfill.1, hfill.2])]
    cases src with
    | none => exact .inl ⟨nofun, rfl⟩
    | some s =>
      obtain ⟨hs, hplain⟩ := hsrc s rfl
      dsimp only
      split
      · exact .inl ⟨nofun, rfl⟩
      split
      · next hempty =>
        have hnone := empty_of_cut hsr hs.1 hempty
        refine .inr ⟨d, rfl, rfl, .inr ⟨s, rfl, nofun, fun x y _ hsome => ?_, fun x y _ => rfl,
          fun _ _ x y _ => rfl⟩⟩
        obtain ⟨c, r, hin⟩ := hsome
        exact absurd hin (hnone c r)
      · next hsrect =>
        exact .inr ⟨d, rfl, rfl, .inr ⟨s, rfl, blitRects_scales hsr hdr hs hplain hd hsrect hdrect⟩⟩

/-- Two by two pixels in the order BGRA. -/
def small : Surface := ⟨2, 2, 4, 0x42475241, 0, true⟩

def fives : Pixels := fun _ _ => 5#32

def noPlanes : Planes := ⟨fun _ _ => 0, fun _ _ => 0⟩

theorem blit_scales_small :
    ∃ d ∈ some small, ∃ s ∈ some small, Scales fives s d ⟨0, 0, 2, 2⟩ ⟨0, 0, 1, 1⟩
      (blit fives noPlanes 1 (some small) (some small) ⟨0, 0, 2, 2⟩ ⟨0, 0, 1, 1⟩ 0).2 := by
  have hsized : small.Sized := by simp only [Surface.Sized, small]; decide
  have hplain : ¬(fmtIsNv12 small.pixelFormat = true ∧ 2 ≤ small.planeCount) := by decide
  rcases blit_scales fives noPlanes 1 (some small) (some small)
    ⟨0, 0, 2, 2⟩ ⟨0, 0, 1, 1⟩ 0 ⟨by decide, by decide⟩
    (by simp only [Rect.Plain, Rect.moved]; decide) (by simp only [Rect.Plain, Rect.moved]; decide)
    (by rintro s ⟨⟩; exact ⟨⟨hsized, rfl⟩, hplain⟩) (by rintro d ⟨⟩; exact ⟨hsized, rfl⟩) with h
      | ⟨d, hd, -, h | h⟩
  · exact absurd (by decide) h.1
  · obtain rfl := Option.mem_some_iff.mp hd
    exact absurd (by simp only [Rect.On, Rect.Has, Rect.moved, small]; decide) (h.1 0 0)
  · exact ⟨d, hd, h⟩

/-- With the flag for a fill the pixel becomes zero, not the one of the source. -/
theorem blit_fills :
    (blit fives noPlanes 1 (some small) (some small) ⟨0, 0, 2, 2⟩ ⟨0, 0, 1, 1⟩ 2).1 = .success ∧
    ¬Scales fives small small ⟨0, 0, 2, 2⟩ ⟨0, 0, 1, 1⟩
      (blit fives noPlanes 1 (some small) (some small) ⟨0, 0, 2, 2⟩ ⟨0, 0, 1, 1⟩ 2).2 := by
  refine ⟨by decide, fun h => ?_⟩
  have honce := h.once 0 0 (by simp only [Rect.On, Rect.Has, Rect.moved, small]; decide) ⟨0,
    0, by simp only [Rect.On, Rect.Has, Rect.moved, small]; decide⟩
  exact absurd honce (by decide)

end XnuXzs.Gpu
