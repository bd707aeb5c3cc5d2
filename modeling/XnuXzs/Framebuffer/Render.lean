import XnuXzs.Lib.Machine
import XnuXzs.Lib.Raster
import Mathlib.Data.List.Perm.Basic
import Mathlib.Data.BitVec

/-!
# Slices of a frame

`AppleCLCD::renderSlice` draws the rows of one worker, by copying, by blocks of 24 of 25 pixels,
by the table of columns, or blended. All are one raster over the target.
-/

namespace XnuXzs.Framebuffer

open Lib

/-- The panel, and the screen of its clients. The table of columns has 1080 entries. -/
structure Panel where
  width : Int
  height : Int
  logicalW : Int
  logicalH : Int
  width_pos : 0 < width
  height_pos : 0 < height
  width_le : width ≤ 1080
  width_logical : width ≤ logicalW
  height_logical : height ≤ logicalH
  logicalW_lt : logicalW < 2 ^ 31
  logicalH_lt : logicalH < 2 ^ 29

/-- What `present` hands to the workers, with the tables `fColumn` and `fColumnWeight`. -/
structure Job where
  sx : Int
  sy : Int
  sw : Int
  sh : Int
  py0 : Int
  py1 : Int
  cx0 : Int
  cx1 : Int
  filter : Bool
  unscaled : Bool
  column : Int → Int
  weight : Int → Int

abbrev Pixel := BitVec 32

/-- The pixels of a surface by row and column. -/
abbrev Pixels := Int → Int → Pixel

def blend (a b : Pixel) (w : Int) : Pixel :=
  let v := BitVec.ofInt 32 w
  let m := 0x00ff00ff#32
  ((((a &&& m) * (256#32 - v) + (b &&& m) * v) >>> 8) &&& m) |||
    ((((a >>> 8) &&& m) * (256#32 - v) + ((b >>> 8) &&& m) * v) &&& 0xff00ff00#32)

def sampleAt (i n out : Int) : Int :=
  let at_ := (((2 * i + 1) * n - out) * 128).tdiv out
  if at_ < 0 then 0 else if at_ > (n - 1) * 256 then (n - 1) * 256 else at_

variable (p : Panel) (job : Job) (px junk : Pixels)

/-- `renderSlice` takes a source as high as the screen for a whole frame. -/
def Job.tall : Bool := job.sy == 0 && job.sh == p.logicalH

def Job.mapY : Int := if job.tall p then 0 else job.py0
def Job.mapH : Int := if job.tall p then p.height else job.py1 - job.py0

def Job.sampleY (y : Int) : Int := sampleAt (y - job.mapY p) job.sh (job.mapH p)

/-- Whether two rows are blended for row `y`. -/
def Job.blends (y : Int) : Bool :=
  !job.unscaled && job.filter && job.sampleY p y % 256 != 0 &&
    decide (job.sampleY p y / 256 + 1 < job.sh)

def Job.row (y : Int) : Int :=
  if job.filter then job.sampleY p y / 256
  else
    let row := ((y - job.mapY p) * job.sh).tdiv (job.mapH p)
    if row ≥ job.sh then job.sh - 1 else row

def Job.blendFirst : Int := job.column job.cx0
def Job.blendLast : Int :=
  let last := job.column (job.cx1 - 1)
  if last + 1 < job.sw then last + 1 else last

/-- A pixel of two rows, as `blendRow` keeps it. -/
def Job.blended (y c : Int) : Pixel :=
  let a := px (job.sy + job.row p y) (job.sx + c)
  let b := px (job.sy + job.row p y + 1) (job.sx + c)
  if a = b then a else blend a b (job.sampleY p y % 256)

/-- The pixel `from[c]` of row `y`, and where it is read. Elsewhere `blendRow` holds what an
earlier row left. -/
def Job.line (y c : Int) : Pixel × List (Int × Int) :=
  if job.blends p y then
    (if job.blendFirst ≤ c ∧ c ≤ job.blendLast then job.blended p px y c else junk y c, [])
  else (px (job.sy + job.row p y) (job.sx + c), [(job.sy + job.row p y, job.sx + c)])

/-- The reads that fill `blendRow` for row `y`. -/
def Job.blendReads (y : Int) : List (Int × Int) :=
  if job.blends p y then
    (span job.blendFirst (job.blendLast + 1)).flatMap fun c =>
      [(job.sy + job.row p y, job.sx + c), (job.sy + job.row p y + 1, job.sx + c)]
  else []

def put (x y : Int) (v : Pixel × List (Int × Int)) : Put Pixel := ⟨x, y, v.1, v.2⟩

/-- A pixel between two columns. The second one is only read for a weight. -/
def between (from_ : Int → Pixel × List (Int × Int)) (c w : Int) : Pixel × List (Int × Int) :=
  if w = 0 then from_ c
  else
    let a := from_ c
    let b := from_ (c + 1)
    (if a.1 = b.1 then a.1 else blend a.1 b.1 w, a.2 ++ b.2)

def Job.renderRow (y : Int) : List (Put Pixel) :=
  if job.unscaled then
    (span job.cx0 job.cx1).map fun x =>
      put x y (px (job.sy + y - job.py0) (job.sx + (x - job.cx0)),
        [(job.sy + y - job.py0, job.sx + (x - job.cx0))])
  else if job.filter then
    let f x := put x y (between (job.line p px junk y) (job.column x) (job.weight x))
    evenFrom f (fun x => twos f x job.cx1) job.cx0 job.cx1
  else if job.cx0 = 0 ∧ job.cx1 = 1080 ∧ job.sw = 1125 then
    (List.range 45).flatMap fun b : Nat => (span 0 24).map fun r =>
      put (24 * b + r) y (job.line p px junk y (25 * b + r))
  else
    let f x := put x y (job.line p px junk y (job.column x))
    evenFrom f (fun x => quads f x job.cx1) job.cx0 job.cx1

/-- Where the rows of worker `w` begin. -/
def Job.bound (total w : Nat) : Int := job.py0 + (i32 ((job.py1 - job.py0) * w)).tdiv total

def Job.renderSlice (w total : Nat) : List (Put Pixel) :=
  let y₀ := job.bound total w
  let y₁ := if w + 1 = total then job.py1 else job.bound total (w + 1)
  if y₀ ≥ y₁ ∨ job.cx0 ≥ job.cx1 then []
  else (span y₀ y₁).flatMap fun y => if y < 0 ∨ y ≥ p.height then [] else job.renderRow p px junk y

/-- The pixel at `(x, y)` and where it is read, whatever path draws it. -/
def Job.pixel (y x : Int) : Pixel × List (Int × Int) :=
  if job.unscaled then
    (px (job.sy + y - job.py0) (job.sx + (x - job.cx0)),
      [(job.sy + y - job.py0, job.sx + (x - job.cx0))])
  else if job.filter then between (job.line p px junk y) (job.column x) (job.weight x)
  else if job.cx0 = 0 ∧ job.cx1 = 1080 ∧ job.sw = 1125 then job.line p px junk y (x + x / 24)
  else job.line p px junk y (job.column x)

theorem Job.renderRow_eq (y : Int) :
    job.renderRow p px junk y = (span job.cx0 job.cx1).map fun x =>
      put x y (job.pixel p px junk y x) := by
  unfold Job.renderRow Job.pixel
  by_cases hun : job.unscaled = true
  · simp [if_pos hun]
  simp only [if_neg hun]
  split
  · exact evenFrom_eq fun x => twos_eq ..
  split
  · next hcut =>
    rw [hcut.1, hcut.2.1, show (1080 : Int) = 24 * (45 : Nat) by rfl, ← span_blocks 24 (by decide),
      List.map_flatMap]
    congr 1
    funext b
    rw [List.map_map]
    apply List.map_congr_left
    intro r hr
    rw [mem_span] at hr
    have hcol : 24 * (b : Int) + r + (24 * b + r) / 24 = 25 * b + r := by omega
    rw [Function.comp_apply, hcol]
  · exact evenFrom_eq fun x => quads_eq ..

theorem Job.bound_eq {total w : Nat} (hrows : job.py0 ≤ job.py1)
    (hsmall : (job.py1 - job.py0) * total < 2 ^ 31) (hw : w ≤ total) :
    job.bound total w = job.py0 + (job.py1 - job.py0) * w / total := by
  have hle : (job.py1 - job.py0) * w ≤ (job.py1 - job.py0) * total :=
    Int.mul_le_mul_of_nonneg_left (by omega) (by omega)
  have hnonneg : 0 ≤ (job.py1 - job.py0) * (w : Int) := Int.mul_nonneg (by omega) (by omega)
  rw [Job.bound, i32_eq (by omega) (by omega), Int.tdiv_eq_ediv_of_nonneg hnonneg]

theorem Job.slices_eq {total : Nat} (htotal : 0 < total) (hrows : job.py0 ≤ job.py1)
    (hlo : 0 ≤ job.py0) (hhi : job.py1 ≤ p.height) (hsmall : (job.py1 - job.py0) * total < 2 ^ 31) :
    ((List.range total).flatMap fun w => job.renderSlice p px junk w total) =
      (span job.py0 job.py1).flatMap fun y =>
        (span job.cx0 job.cx1).map fun x => put x y (job.pixel p px junk y x) := by
  let b (w : Nat) : Int := job.py0 + (job.py1 - job.py0) * w / total
  have hb : ∀ w, b w ≤ b (w + 1) := by
    intro w
    have hle : (job.py1 - job.py0) * (w : Int) ≤ (job.py1 - job.py0) * (w + 1 : Nat) :=
      Int.mul_le_mul_of_nonneg_left (by omega) (by omega)
    have := Int.ediv_le_ediv (c := (total : Int)) (by omega) hle
    simp only [b]
    omega
  have hfirst : b 0 = job.py0 := by simp [b]
  have hlast : b total = job.py1 := by
    simp only [b]
    rw [Int.mul_ediv_cancel _ (by omega)]
    omega
  have hslice : ∀ w ∈ List.range total, job.renderSlice p px junk w total =
      (span (b w) (b (w + 1))).flatMap fun y =>
        (span job.cx0 job.cx1).map fun x => put x y (job.pixel p px junk y x) := by
    intro w hw
    rw [List.mem_range] at hw
    have hend : (if w + 1 = total then job.py1 else job.bound total (w + 1)) = b (w + 1) := by
      split
      · next h => rw [h, hlast]
      · exact job.bound_eq hrows hsmall hw
    rw [Job.renderSlice, hend, job.bound_eq hrows hsmall hw.le]
    split
    · next hempty =>
      rcases hempty with h | h
      · rw [span_empty h]
        rfl
      · simp [span_empty h]
    · apply List.flatMap_congr
      intro y hy
      have hy : b w ≤ y ∧ y < b (w + 1) := mem_span.mp hy
      have hmono : Monotone b := monotone_nat_of_le_succ hb
      have h₀ : b 0 ≤ b w := hmono (Nat.zero_le w)
      have h₁ : b (w + 1) ≤ b total := hmono hw
      rw [if_neg (by omega), Job.renderRow_eq]
  rw [List.flatMap_congr hslice, ← List.flatMap_assoc, span_pieces hb, hfirst, hlast]

variable {p : Panel} {job : Job} {y x i n out c : Int}

theorem sampleAt_eq (hn : 0 < n) (hout : 0 < out) :
    sampleAt i n out = min (max 0 (((2 * i + 1) * n - out) * 128 / out)) ((n - 1) * 256) := by
  rw [sampleAt]
  by_cases hneg : ((2 * i + 1) * n - out) * 128 < 0
  · have htdiv := Int.tdiv_nonneg (Int.neg_nonneg_of_nonpos hneg.le) hout.le
    rw [Int.neg_tdiv] at htdiv
    have hediv := Int.ediv_neg_of_neg_of_pos hneg hout
    rw [max_eq_left hediv.le, min_eq_left (by omega)]
    split
    · rfl
    · rw [if_neg (by omega)]
      omega
  · rw [Int.tdiv_eq_ediv_of_nonneg (by omega)]
    split <;> omega

theorem sampleAt_mem {i n out : Int} (hn : 0 < n) (hout : 0 < out) :
    0 ≤ sampleAt i n out ∧ sampleAt i n out ≤ (n - 1) * 256 := by
  rw [sampleAt_eq hn hout]
  omega

theorem sampleAt_mono {j : Int} (hn : 0 < n) (hout : 0 < out) (h : i ≤ j) :
    sampleAt i n out ≤ sampleAt j n out := by
  have hmul : (2 * i + 1) * n ≤ (2 * j + 1) * n := Int.mul_le_mul_of_nonneg_right (by omega) hn.le
  have := Int.ediv_le_ediv (c := out) hout
    (by omega : ((2 * i + 1) * n - out) * 128 ≤ ((2 * j + 1) * n - out) * 128)
  rw [sampleAt_eq hn hout, sampleAt_eq hn hout]
  omega

theorem floor_mem {v n out : Int} (hv : 0 ≤ v) (hlt : v < out) (hn : 0 < n) :
    0 ≤ (v * n).tdiv out ∧ (v * n).tdiv out < n := by
  have hnonneg := Int.mul_nonneg hv hn.le
  rw [Int.tdiv_eq_ediv_of_nonneg hnonneg]
  refine ⟨Int.ediv_nonneg hnonneg (by omega), Int.ediv_lt_of_lt_mul (by omega) ?_⟩
  rw [Int.mul_comm n]
  exact Int.mul_lt_mul_of_pos_right hlt hn

/-- A job whose target is on the panel and whose tables stay in its source. -/
structure Job.Ok (p : Panel) (job : Job) : Prop where
  cx : 0 ≤ job.cx0 ∧ job.cx0 < job.cx1 ∧ job.cx1 ≤ p.width
  py : 0 ≤ job.py0 ∧ job.py0 < job.py1 ∧ job.py1 ≤ p.height
  sw : 0 < job.sw
  sh : 0 < job.sh
  column : ∀ x, job.cx0 ≤ x → x < job.cx1 → 0 ≤ job.column x ∧ job.column x < job.sw
  weight : ∀ x, job.weight x ≠ 0 → job.column x + 1 < job.sw
  mono : job.filter = true → ∀ x x', x ≤ x' → job.column x ≤ job.column x'
  unscaled : job.unscaled = true → job.cx1 - job.cx0 = job.sw ∧ job.py1 - job.py0 = job.sh

theorem Job.Ok.mapY_mem (h : job.Ok p) (hlo : job.py0 ≤ y) (hhi : y < job.py1) :
    0 ≤ y - job.mapY p ∧ y - job.mapY p < job.mapH p := by
  have := h.py
  rw [Job.mapY, Job.mapH]
  split <;> omega

theorem Job.Ok.row_mem (h : job.Ok p) (hlo : job.py0 ≤ y) (hhi : y < job.py1) :
    0 ≤ job.row p y ∧ job.row p y < job.sh ∧
      (job.blends p y = true → job.row p y + 1 < job.sh) := by
  obtain ⟨hmap, hlt⟩ := h.mapY_mem hlo hhi
  have hsample := @sampleAt_mem (y - job.mapY p) job.sh (job.mapH p) h.sh (by omega)
  have hfloor := floor_mem hmap hlt h.sh
  have hblends : job.blends p y = true → job.filter = true ∧
      job.sampleY p y / 256 + 1 < job.sh := by
    simp only [Job.blends, Bool.and_eq_true, decide_eq_true_eq]
    rintro ⟨⟨⟨-, hfilter⟩, -⟩, hrow⟩
    exact ⟨hfilter, hrow⟩
  rw [Job.row]
  change 0 ≤ job.sampleY p y ∧ job.sampleY p y ≤ _ at hsample
  split
  · exact ⟨by omega, by omega, fun hb => (hblends hb).2⟩
  next hfilter =>
  rw [if_neg (by omega)]
  exact ⟨hfloor.1, hfloor.2, fun hb => absurd (hblends hb).1 hfilter⟩

theorem Job.Ok.blend_mem (h : job.Ok p) (hfilter : job.filter = true)
    (hx : job.cx0 ≤ x ∧ x < job.cx1) :
    job.blendFirst ≤ job.column x ∧ job.column x ≤ job.blendLast ∧
      (job.column x + 1 < job.sw → job.column x + 1 ≤ job.blendLast) := by
  have hlast := h.mono hfilter x (job.cx1 - 1) (by omega)
  refine ⟨h.mono hfilter _ _ hx.1, ?_⟩
  rw [Job.blendLast]
  split <;> omega

def Job.Has (job : Job) (q : Int × Int) : Prop :=
  (job.sy ≤ q.1 ∧ q.1 < job.sy + job.sh) ∧ job.sx ≤ q.2 ∧ q.2 < job.sx + job.sw

theorem Job.has_mk {r : Int} (hr : job.sy ≤ r ∧ r < job.sy + job.sh)
    (hc : job.sx ≤ c ∧ c < job.sx + job.sw) :
    job.Has (r, c) := ⟨hr, hc⟩

theorem Job.Ok.line_has (h : job.Ok p) (px junk : Pixels) (hlo : job.py0 ≤ y) (hhi : y < job.py1)
    (hc : 0 ≤ c) (hcw : c < job.sw) :
    ∀ q ∈ (job.line p px junk y c).2, job.Has q := by
  obtain ⟨hrow, hlt, -⟩ := h.row_mem hlo hhi
  intro q hq
  rw [Job.line] at hq
  split at hq
  · simp at hq
  · rw [List.mem_singleton] at hq
    subst hq
    apply Job.has_mk <;> omega

theorem Job.Ok.pixel_has (h : job.Ok p) (px junk : Pixels) (hx : job.cx0 ≤ x ∧ x < job.cx1)
    (hy : job.py0 ≤ y ∧ y < job.py1) : ∀ q ∈ (job.pixel p px junk y x).2, job.Has q := by
  obtain ⟨hcol, hcolw⟩ := h.column x hx.1 hx.2
  have hline : ∀ c, 0 ≤ c → c < job.sw → ∀ q ∈ (job.line p px junk y c).2, job.Has q :=
    fun c => h.line_has px junk hy.1 hy.2
  rw [Job.pixel]
  split
  · next hun =>
    obtain ⟨hw, hh⟩ := h.unscaled hun
    intro q hq
    rw [List.mem_singleton] at hq
    subst hq
    apply Job.has_mk <;> omega
  · split
    · rw [between]
      split
      · exact hline _ hcol hcolw
      next hw =>
      intro q hq
      rcases List.mem_append.mp hq with hq | hq
      · exact hline _ hcol hcolw q hq
      · exact hline _ (by omega) (h.weight x hw) q hq
    · split
      · exact hline _ (by omega) (by omega)
      · exact hline _ hcol hcolw

theorem Job.Ok.blendReads_has (h : job.Ok p) (hlo : job.py0 ≤ y) (hhi : y < job.py1) :
    ∀ q ∈ job.blendReads p y, job.Has q := by
  obtain ⟨hrow, hlt, hnext⟩ := h.row_mem hlo hhi
  have := h.cx
  have hfirst := h.column job.cx0 (by omega) (by omega)
  have hlast := h.column (job.cx1 - 1) (by omega) (by omega)
  intro q hq
  rw [Job.blendReads] at hq
  split at hq
  · next hb =>
    have hnext := hnext hb
    obtain ⟨c, hc, hq⟩ := List.mem_flatMap.mp hq
    rw [mem_span, Job.blendFirst, Job.blendLast] at hc
    simp only [List.mem_cons, List.not_mem_nil, or_false] at hq
    rcases hq with rfl | rfl <;> apply Job.has_mk <;> omega
  · simp at hq

end XnuXzs.Framebuffer
