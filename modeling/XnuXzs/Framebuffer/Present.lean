import XnuXzs.Framebuffer.Render

/-!
# Layers of a swap

`AppleCLCD::present` cuts a layer's source and destination to the surface and the screen, scales
the destination to the panel, and makes a job, in 32-bit arithmetic.
-/

namespace XnuXzs.Framebuffer

open Lib

/-- One axis of a layer: `n` source pixels from `s` on go to `m` screen pixels from `d` on. -/
structure Axis where
  s : Int
  n : Int
  d : Int
  m : Int

def Axis.Int32 (a : Axis) : Prop :=
  (-2 ^ 31 ≤ a.s ∧ a.s < 2 ^ 31) ∧ (-2 ^ 31 ≤ a.n ∧ a.n < 2 ^ 31) ∧
    (-2 ^ 31 ≤ a.d ∧ a.d < 2 ^ 31) ∧ -2 ^ 31 ≤ a.m ∧ a.m < 2 ^ 31

structure Geometry where
  x : Axis
  y : Axis

/-- A surface. `usable` says that it is mapped, with elements of one pixel of four bytes. -/
structure Surface where
  width : Int
  height : Int
  stride : Int
  offset : Int
  length : Int
  usable : Bool

/-- The memory of a surface holds its declared geometry. -/
structure Surface.Holds (s : Surface) : Prop where
  width : 0 < s.width
  height : 0 < s.height
  stride : s.width * 4 ≤ s.stride
  stride_lt : s.stride < 2 ^ 32
  height_lt : s.height < 2 ^ 31
  offset : 0 ≤ s.offset
  length : s.offset + s.height * s.stride ≤ s.length

/-- An empty destination is the whole screen, an empty source the whole surface. -/
def Geometry.fill (g : Geometry) (p : Panel) (s : Surface) : Geometry :=
  let g : Geometry := if g.x.m ≤ 0 ∨ g.y.m ≤ 0 then
    ⟨{ g.x with d := 0, m := p.logicalW }, { g.y with d := 0, m := p.logicalH }⟩ else g
  if g.x.n ≤ 0 ∨ g.y.n ≤ 0 then
    ⟨{ g.x with s := 0, n := s.width }, { g.y with s := 0, n := s.height }⟩ else g

def Axis.shift (a : Axis) : Axis :=
  let s := if a.s < 0 then 0 else a.s
  if a.d < 0 then ⟨i32 (s - a.d), i32 (a.n + a.d), 0, i32 (a.m + a.d)⟩ else { a with s }

def Axis.clip (a : Axis) (size logical : Int) : Axis :=
  let a := a.shift
  { a with
    n := if a.n > i32 (size - a.s) then i32 (size - a.s) else a.n
    m := if a.m > i32 (logical - a.d) then i32 (logical - a.d) else a.m }

def rounding (full : Bool) (logical : Int) : Int := if full then logical - 1 else 0

def Axis.first (a : Axis) (phys logical : Int) : Int := i32 ((a.d * phys).tdiv logical)

def Axis.last (a : Axis) (full : Bool) (phys logical : Int) : Int :=
  i32 ((i32 (a.d + a.m) * phys + rounding full logical).tdiv logical)

/-- The panel's pixels for the screen's, rounded up at the end if `full`. The end is compared
unsigned with the panel's size. -/
def Axis.onPanel (a : Axis) (full : Bool) (phys logical : Int) : Int × Int :=
  (if a.first phys logical < 0 then 0 else a.first phys logical,
    if a.last full phys logical % 2 ^ 32 > phys then phys else a.last full phys logical)

structure Frame where
  x : Axis
  y : Axis
  full : Bool
  px : Int × Int
  py : Int × Int

def Geometry.cut (g : Geometry) (p : Panel) (s : Surface) : Frame :=
  let g := g.fill p s
  let x := g.x.clip s.width p.logicalW
  let y := g.y.clip s.height p.logicalH
  let full := decide (x.s = x.d ∧ y.s = y.d ∧ x.n = x.m ∧ y.n = y.m ∧
    s.width = p.logicalW ∧ s.height = p.logicalH)
  ⟨x, y, full, x.onPanel full p.width p.logicalW, y.onPanel full p.height p.logicalH⟩

/-- `last`, the end of the source in the memory of the surface. -/
def Frame.last (f : Frame) (s : Surface) : Int :=
  (s.offset + i32 (f.y.s + f.y.n - 1) % 2 ^ 64 * s.stride + i32 (f.x.s + f.x.n) % 2 ^ 64 * 4)
    % 2 ^ 64

/-- The check before anything is read or drawn. -/
def Frame.accepted (f : Frame) (s : Surface) : Bool :=
  s.usable && decide (f.px.1 < f.px.2 ∧ f.py.1 < f.py.2 ∧ 0 < f.x.n ∧
    0 < f.y.n ∧ f.last s ≤ s.length)

variable (f : Frame) (p : Panel)

def Frame.sw : Int := if f.full then p.logicalW else f.x.n
def Frame.sh : Int := if f.full then p.logicalH else f.y.n
def Frame.mapX : Int := if f.full then 0 else f.px.1
def Frame.mapW : Int := if f.full then p.width else f.px.2 - f.px.1
def Frame.sampleX (x : Int) : Int := sampleAt (x - f.mapX) (f.sw p) (f.mapW p)
def Frame.filters (bilinear : Bool) : Bool := bilinear && decide (f.sw p ≤ 1125)

def Frame.job (bilinear : Bool) : Job :=
  { sx := if f.full then 0 else f.x.s
    sy := if f.full then 0 else f.y.s
    sw := f.sw p
    sh := f.sh p
    py0 := f.py.1
    py1 := f.py.2
    cx0 := f.px.1
    cx1 := f.px.2
    filter := f.filters p bilinear
    unscaled := f.px.2 - f.px.1 == f.x.n && f.py.2 - f.py.1 == f.y.n && !f.full
    column x := if f.filters p bilinear then f.sampleX p x / 256
      else ((x - f.mapX) * f.sw p).tdiv (f.mapW p)
    weight x := if f.filters p bilinear ∧ f.sampleX p x / 256 + 1 < f.sw p then f.sampleX p x % 256
      else 0 }

/-- What the driver's state decides: whether the console owns the panel, whether the scan of the
surface ends, whether a pixel is logged, and whether the frame's signature is the last one's. -/
structure Gate where
  paused : Bool
  visible : Bool
  console : Bool
  logs : Bool
  same : Bool
  bilinear : Bool

/-- Every `k`-th number of a range. -/
def strided (a b k : Int) : List Int := (span a b).filter fun v => (v - a) % k == 0

def Frame.scanReads (f : Frame) : List (Int × Int) :=
  (strided f.y.s (f.y.s + f.y.n) (if f.y.n > 64 then f.y.n / 64 else 1)).flatMap fun r =>
    (strided f.x.s (f.x.s + f.x.n) 8).map fun c => (r, c)

/-- The words of a row that go into the signature, two pixels each. -/
def Job.signatureReads (job : Job) : List (Int × Int) :=
  let words := job.sw / 2
  if words ≥ 16 then
    (strided 0 job.sh (if job.sh > 256 then 4 else 1)).flatMap fun r =>
      (span 0 16).flatMap fun k =>
        let c := job.sx + 2 * (k * (words / 16) + r * 5 % 2 ^ 32 % (words / 16))
        [(job.sy + r, c), (job.sy + r, c + 1)]
  else []

/-- The pixels of the surface that are read, and what is put on the panel, for one layer. -/
def Frame.draw (f : Frame) (p : Panel) (px junk : Pixels) (gate : Gate) :
    List (Int × Int) × List (Put Pixel) :=
  let job := f.job p gate.bilinear
  let scan := if gate.paused then [] else f.scanReads
  if !gate.paused && !gate.visible && gate.console then (scan, [])
  else
    let centre := if gate.logs then [(f.y.s + f.y.n / 2, f.x.s + f.x.n / 2)] else []
    let before := scan ++ centre ++ job.signatureReads
    if (gate.paused || gate.visible) && gate.same then (before, [])
    else
      let total := if f.py.2 - f.py.1 ≥ 120 then 4 else 1
      let puts := (List.range total).flatMap fun w => job.renderSlice p px junk w total
      (before ++ (span f.py.1 f.py.2).flatMap (job.blendReads p) ++ puts.flatMap Put.reads, puts)

def presentLayer (p : Panel) (s : Surface) (g : Geometry) (px junk : Pixels) (gate : Gate) :
    List (Int × Int) × List (Put Pixel) :=
  let f := g.cut p s
  if f.accepted s then f.draw p px junk gate else ([], [])

variable {a : Axis} {phys logical size : Int}

theorem i32_mem (v : Int) : -2 ^ 31 ≤ i32 v ∧ i32 v < 2 ^ 31 := by
  rw [i32]
  omega

theorem onPanel_mem (full : Bool) (hpos : 0 < phys) (hlt : phys < 2 ^ 31) :
    0 ≤ (a.onPanel full phys logical).1 ∧ (a.onPanel full phys logical).2 ≤ phys := by
  have h₁ : -2 ^ 31 ≤ a.last full phys logical ∧ a.last full phys logical < 2 ^ 31 := i32_mem _
  rw [Axis.onPanel]
  constructor
  · dsimp only
    split <;> omega
  · dsimp only
    split <;> omega

theorem shift_d (a : Axis) : 0 ≤ a.shift.d := by
  rw [Axis.shift]
  split
  · exact Int.le_refl 0
  · next hd => exact not_lt.mp hd

/-- The destination begins on the screen, or reaches into it without the start of the source
leaving the range of an `int`. -/
def Axis.Ok (a : Axis) : Prop := 0 ≤ a.d ∨ (0 < a.d + a.m ∧ max a.s 0 - a.d < 2 ^ 31)

/-- A clipped axis: its source is inside the surface and its destination is what is left on the
screen. -/
theorem clip_ok (ha : a.Int32) (hm : 0 < a.m) (hsize : 0 < size ∧ size < 2 ^ 31)
    (hlogical : 0 < logical ∧ logical < 2 ^ 31) (hok : a.Ok) :
    0 ≤ (a.clip size logical).s ∧ (a.clip size logical).s + (a.clip size logical).n ≤ size ∧
      (a.clip size logical).d = max a.d 0 ∧
      (a.clip size logical).d + (a.clip size logical).m = min (a.d + a.m) logical := by
  obtain ⟨⟨hs₀, hs₁⟩, ⟨hn₀, hn₁⟩, ⟨hd₀, hd₁⟩, hm₀, hm₁⟩ := ha
  have hshift : 0 ≤ a.shift.s ∧ a.shift.s < 2 ^ 31 ∧ a.shift.d = max a.d 0 ∧
      a.shift.d + a.shift.m = a.d + a.m := by
    rw [Axis.shift]
    have hs : (if a.s < 0 then 0 else a.s) = max a.s 0 := by split <;> omega
    rw [hs]
    rcases hok with hd | ⟨hreach, hstart⟩
    · rw [if_neg (by omega)]
      dsimp only
      omega
    split
    · have hs' : i32 (max a.s 0 - a.d) = max a.s 0 - a.d := i32_eq (by omega) (by omega)
      have hm' : i32 (a.m + a.d) = a.m + a.d := i32_eq (by omega) (by omega)
      rw [hs', hm']
      dsimp only
      omega
    · dsimp only
      omega
  have hsize' : i32 (size - a.shift.s) = size - a.shift.s := i32_eq (by omega) (by omega)
  have hlogical' : i32 (logical - a.shift.d) = logical - a.shift.d := i32_eq (by omega) (by omega)
  rw [Axis.clip]
  dsimp only
  rw [hsize', hlogical']
  refine ⟨hshift.1, ?_, hshift.2.2.1, ?_⟩
  · split <;> omega
  · split <;> omega

/-- `v` is a pixel of the panel that shows part of `[lo, hi)`. -/
def Shows (phys logical lo hi v : Int) : Prop := lo * phys < (v + 1) * logical ∧
    v * logical < hi * phys

theorem onPanel_shows (full : Bool) (hphys : 0 < phys ∧ phys ≤ logical) (hlt : logical < 2 ^ 31)
    (hd : 0 ≤ a.d ∧ a.d < 2 ^ 31) (hhi : 0 < a.d + a.m ∧ a.d + a.m ≤ logical) {v : Int}
    (hv : (a.onPanel full phys logical).1 ≤ v ∧ v < (a.onPanel full phys logical).2) :
    Shows phys logical a.d (a.d + a.m) v := by
  have hlogical : 0 < logical := by omega
  have hnum := Int.mul_nonneg hhi.1.le hphys.1.le
  have hnum_le := Int.mul_le_mul_of_nonneg_right hhi.2 hphys.1.le
  have hround : 0 ≤ rounding full logical ∧ rounding full logical < logical := by
    rw [rounding]
    split <;> omega
  have hfirst : a.first phys logical = a.d * phys / logical := by
    have hnonneg := Int.mul_nonneg hd.1 hphys.1.le
    have hle := Int.ediv_le_of_le_mul hlogical (Int.mul_le_mul_of_nonneg_left hphys.2 hd.1)
    have := Int.ediv_nonneg hnonneg hlogical.le
    rw [Axis.first, Int.tdiv_eq_ediv_of_nonneg hnonneg, i32_eq (by omega) (by omega)]
  have hlast : a.last full phys logical =
      ((a.d + a.m) * phys + rounding full logical) / logical := by
    have hle : ((a.d + a.m) * phys + rounding full logical) / logical < phys + 1 := by
      apply Int.ediv_lt_of_lt_mul hlogical
      have hexp : (phys + 1) * logical = logical * phys + logical := by ring
      omega
    have := Int.ediv_nonneg (by omega : 0 ≤ (a.d + a.m) * phys + rounding full logical) hlogical.le
    have hsum : i32 (a.d + a.m) = a.d + a.m := i32_eq (by omega) (by omega)
    rw [Axis.last, hsum, Int.tdiv_eq_ediv_of_nonneg (by omega), i32_eq (by omega) (by omega)]
  have hlast_le : a.last full phys logical ≤ ((a.d + a.m) * phys + (logical - 1)) / logical := by
    rw [hlast]
    exact Int.ediv_le_ediv hlogical (by omega)
  have hlast_nonneg : 0 ≤ a.last full phys logical := by
    rw [hlast]
    exact Int.ediv_nonneg (by omega) hlogical.le
  have hlast_lt := (i32_mem ((i32 (a.d + a.m) * phys + rounding full logical).tdiv logical)).2
  change a.last full phys logical < 2 ^ 31 at hlast_lt
  have hvfirst : a.d * phys / logical ≤ v := by
    have := hv.1
    rw [Axis.onPanel, hfirst] at this
    dsimp only at this
    split at this <;> omega
  have hvlast : v < ((a.d + a.m) * phys + (logical - 1)) / logical := by
    have := hv.2
    rw [Axis.onPanel] at this
    dsimp only at this
    split at this <;> omega
  constructor
  · exact Int.lt_mul_of_ediv_lt hlogical (by omega)
  · have hmul := Int.mul_le_of_le_ediv hlogical (Int.add_one_le_iff.mpr hvlast)
    have hexp : (v + 1) * logical = v * logical + logical := by ring
    omega

end XnuXzs.Framebuffer
