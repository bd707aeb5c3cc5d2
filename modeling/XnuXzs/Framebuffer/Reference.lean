import XnuXzs.Framebuffer.Safety

/-!
# What a frame looks like

Whatever path a row takes and however many workers there are, each pixel of the target is put
once: the source pixel at the floor of the scaled coordinates, or a blend around the point.
-/

namespace XnuXzs.Framebuffer

open Lib Framebuffer.Frame

/-- The value at `at_`, in 256ths of a pixel, of a line of `n` pixels. -/
def sampled (line : Int → Pixel) (at_ n : Int) : Pixel :=
  if at_ % 256 = 0 ∨ n ≤ at_ / 256 + 1 then line (at_ / 256)
  else if line (at_ / 256) = line (at_ / 256 + 1) then line (at_ / 256)
  else blend (line (at_ / 256)) (line (at_ / 256 + 1)) (at_ % 256)

variable (f : Frame) (p : Panel)

def Frame.mapY : Int := if f.full then 0 else f.py.1
def Frame.mapH : Int := if f.full then p.height else f.py.2 - f.py.1
def Frame.sampleY (y : Int) : Int := sampleAt (y - f.mapY) (f.sh p) (f.mapH p)

def Frame.source (px : Pixels) (r c : Int) : Pixel :=
  px ((if f.full then 0 else f.y.s) + r) ((if f.full then 0 else f.x.s) + c)

def Frame.reference (bilinear : Bool) (px : Pixels) (x y : Int) : Pixel :=
  if f.filters p bilinear then
    sampled (fun c => sampled (fun r => f.source px r c) (f.sampleY p y) (f.sh p))
      (f.sampleX p x) (f.sw p)
  else f.source px ((y - f.mapY) * f.sh p / f.mapH p) ((x - f.mapX) * f.sw p / f.mapW p)

theorem sampleAt_same {i n : Int} (hi : 0 ≤ i) (hn : i < n) : sampleAt i n n = 256 * i := by
  have hnum : ((2 * i + 1) * n - n) * 128 = 256 * i * n := by ring
  rw [sampleAt_eq (by omega) (by omega), hnum, Int.mul_ediv_cancel _ (by omega)]
  omega

theorem sampled_whole (line : Int → Pixel) (i n : Int) : sampled line (256 * i) n = line i := by
  have hdiv : 256 * i / 256 = i := by omega
  have hmod : 256 * i % 256 = 0 := by omega
  rw [sampled, if_pos (.inl hmod), hdiv]

variable {p : Panel} {f : Frame} {bilinear : Bool} {px junk : Pixels} {x y : Int}

/-- `renderSlice` maps rows as `present` maps columns: it takes no other frame for a whole one,
unless the target is as high as the panel too. -/
def Frame.RowsMapped (f : Frame) (p : Panel) (bilinear : Bool) : Prop :=
  (f.job p bilinear).tall p = true → f.full = true ∨ f.py = (0, p.height)

theorem map_eq (hrows : f.RowsMapped p bilinear) :
    (f.job p bilinear).mapY p = f.mapY ∧ (f.job p bilinear).mapH p = f.mapH p := by
  rw [Job.mapY, Job.mapH, mapY, mapH]
  cases hfull : f.full with
  | true =>
    have htall : (f.job p bilinear).tall p = true := by simp [Job.tall, job, sh, hfull]
    rw [htall]
    exact ⟨rfl, rfl⟩
  | false =>
    cases htall : (f.job p bilinear).tall p with
    | false => exact ⟨rfl, rfl⟩
    | true =>
      have hpy : f.py = (0, p.height) := (hrows htall).resolve_left (by simp [hfull])
      simp [hpy]

theorem unscaled_reference (hun : (f.job p bilinear).unscaled = true)
    (hx : f.px.1 ≤ x ∧ x < f.px.2) (hy : f.py.1 ≤ y ∧ y < f.py.2) :
    ((f.job p bilinear).pixel p px junk y x).1 = f.reference p bilinear px x y := by
  have hpixel : ((f.job p bilinear).pixel p px junk y x).1 = px ((f.job p bilinear).sy + y - f.py.1)
        ((f.job p bilinear).sx + (x - f.px.1)) := by
    rw [Job.pixel, if_pos hun]
    rfl
  simp only [job, Bool.and_eq_true, beq_iff_eq, Bool.not_eq_true'] at hun
  obtain ⟨⟨hw, hh⟩, hfull⟩ := hun
  rw [hpixel]
  simp only [reference, source, sampleX, sampleY, mapX, mapY, mapW,
    mapH, sw, sh, job, hfull, Bool.false_eq_true, if_false, hw, hh, Int.add_sub_assoc]
  split
  · rw [sampleAt_same (by omega) (by omega), sampleAt_same (by omega) (by omega),
      sampled_whole, sampled_whole]
  · rw [Int.mul_ediv_cancel _ (by omega), Int.mul_ediv_cancel _ (by omega)]

theorem line_filtered (hrows : f.RowsMapped p bilinear)
    (hun : (f.job p bilinear).unscaled = false) (hfilter : f.filters p bilinear = true)
    {c : Int} (hc : (f.job p bilinear).blendFirst ≤ c ∧ c ≤ (f.job p bilinear).blendLast) :
    ((f.job p bilinear).line p px junk y c).1 =
      sampled (fun r => f.source px r c) (f.sampleY p y) (f.sh p) := by
  obtain ⟨hmapY, hmapH⟩ := map_eq hrows
  have hsample : (f.job p bilinear).sampleY p y = f.sampleY p y := by
    rw [Job.sampleY, hmapY, hmapH]
    rfl
  have hrow : (f.job p bilinear).row p y = f.sampleY p y / 256 := by
    rw [Job.row, ← hsample]
    exact if_pos hfilter
  have hblends : (f.job p bilinear).blends p y = true ↔
      ¬(f.sampleY p y % 256 = 0 ∨ f.sh p ≤ f.sampleY p y / 256 + 1) := by
    rw [Job.blends, hsample, hun]
    change ((true && f.filters p bilinear && _) && decide (_ < f.sh p)) = true ↔ _
    rw [hfilter]
    simp
  rw [Job.line, sampled]
  by_cases hb : (f.job p bilinear).blends p y = true
  · rw [if_pos hb, if_pos hc, if_neg (hblends.mp hb), Job.blended, hrow, hsample, Int.add_assoc]
    rfl
  · rw [if_neg hb, if_pos (not_not.mp (mt hblends.mpr hb)), hrow]
    rfl

theorem filtered_reference (hok : (f.job p bilinear).Ok p) (hrows : f.RowsMapped p bilinear)
    (hun : (f.job p bilinear).unscaled = false) (hfilter : f.filters p bilinear = true)
    (hx : f.px.1 ≤ x ∧ x < f.px.2) :
    ((f.job p bilinear).pixel p px junk y x).1 = f.reference p bilinear px x y := by
  have hcolumn : (f.job p bilinear).column x = f.sampleX p x / 256 := if_pos hfilter
  obtain ⟨hfirst, hlast, hafter⟩ := hok.blend_mem hfilter hx
  rw [hcolumn] at hfirst hlast hafter
  have hline := @line_filtered p f bilinear px junk y hrows hun hfilter _ ⟨hfirst, hlast⟩
  rw [Job.pixel, hun, if_neg Bool.false_ne_true, if_pos (by exact hfilter),
    reference, if_pos hfilter,
    hcolumn, between, sampled]
  have hweight : (f.job p bilinear).weight x =
      if f.filters p bilinear = true ∧ f.sampleX p x / 256 + 1 < f.sw p then f.sampleX p x % 256
        else 0 := rfl
  by_cases hedge : f.sampleX p x % 256 = 0 ∨ f.sw p ≤ f.sampleX p x / 256 + 1
  · have hzero : (f.job p bilinear).weight x = 0 := by
      rw [hweight]
      split <;> omega
    rw [if_pos hzero, if_pos hedge, hline]
  have hnext : f.sampleX p x / 256 + 1 < f.sw p := by omega
  have hline' := @line_filtered p f bilinear px junk y hrows hun hfilter _ ⟨by omega, hafter hnext⟩
  rw [if_pos ⟨hfilter, hnext⟩] at hweight
  rw [hweight, if_neg (by omega), if_neg hedge]
  dsimp only
  rw [hline, hline']

theorem nearest_reference (hok : (f.job p bilinear).Ok p) (hrows : f.RowsMapped p bilinear)
    (hun : (f.job p bilinear).unscaled = false) (hfilter : f.filters p bilinear = false)
    (hx : f.px.1 ≤ x ∧ x < f.px.2) (hy : f.py.1 ≤ y ∧ y < f.py.2) :
    ((f.job p bilinear).pixel p px junk y x).1 = f.reference p bilinear px x y := by
  obtain ⟨hmapY, hmapH⟩ := map_eq hrows
  have hjob : (f.job p bilinear).filter = false := hfilter
  have hrow : (f.job p bilinear).row p y = (y - f.mapY) * f.sh p / f.mapH p := by
    obtain ⟨hlo, hhi⟩ := hok.mapY_mem hy.1 hy.2
    have hfloor := floor_mem hlo hhi hok.sh
    rw [Job.row, hjob, if_neg Bool.false_ne_true]
    dsimp only
    rw [if_neg (by omega), hmapY, hmapH, Int.tdiv_eq_ediv_of_nonneg]
    · rfl
    · exact Int.mul_nonneg (hmapY ▸ hlo) hok.sh.le
  have hmapX : 0 ≤ x - f.mapX := by
    have : 0 ≤ f.px.1 := hok.cx.1
    rw [mapX]
    split <;> omega
  have hcolumn : (f.job p bilinear).column x = (x - f.mapX) * f.sw p / f.mapW p := by
    change (if f.filters p bilinear = true then _ else _) = _
    have hnonneg : 0 ≤ (x - f.mapX) * f.sw p := Int.mul_nonneg hmapX hok.sw.le
    rw [hfilter, if_neg Bool.false_ne_true, Int.tdiv_eq_ediv_of_nonneg hnonneg]
  have hline : ∀ c, ((f.job p bilinear).line p px junk y c).1 = f.source px
      ((y - f.mapY) * f.sh p / f.mapH p) c := by
    intro c
    rw [Job.line, Job.blends, hjob, hrow]
    simp only [Bool.and_false, Bool.false_and, Bool.false_eq_true, if_false]
    rfl
  rw [Job.pixel, hun, hjob, reference, hfilter]
  simp only [Bool.false_eq_true, if_false]
  split
  · next hcut =>
    obtain ⟨h₀, h₁, hsw⟩ := hcut
    change f.px.1 = 0 at h₀
    change f.px.2 = 1080 at h₁
    change f.sw p = 1125 at hsw
    have hwidth : f.px.2 ≤ p.width := hok.cx.2.2
    have := p.width_le
    have hW : f.mapW p = 1080 := by
      rw [mapW]
      split <;> omega
    have hX : f.mapX = 0 := by
      rw [mapX, h₀]
      split <;> rfl
    have hcol : (x - f.mapX) * f.sw p / f.mapW p = x + x / 24 := by
      rw [hW, hX, hsw]
      omega
    rw [hline, hcol]
  · rw [hline, hcolumn]

theorem pixel_reference (hok : (f.job p bilinear).Ok p)
    (hrows : (f.job p bilinear).unscaled = false → f.RowsMapped p bilinear)
    (hx : f.px.1 ≤ x ∧ x < f.px.2) (hy : f.py.1 ≤ y ∧ y < f.py.2) :
    ((f.job p bilinear).pixel p px junk y x).1 = f.reference p bilinear px x y := by
  cases hun : (f.job p bilinear).unscaled with
  | true => exact unscaled_reference hun hx hy
  | false =>
    cases hf : f.filters p bilinear with
    | true => exact filtered_reference hok (hrows hun) hun hf hx
    | false => exact nearest_reference hok (hrows hun) hun hf hx hy

variable {s : Surface} {g : Geometry}

/-- The slices of any number of workers, in any order, put each pixel of the target once and no
other pixel. The picture is the same for any number; it is the reference, if rows that are scaled
are mapped as columns are. -/
theorem render_refines (hacc : (g.cut p s).accepted s = true) : ∃ picture : Int → Int → Pixel,
    (∀ total : Nat, 0 < total → p.height * total < 2 ^ 31 → ∀ puts : List (Put Pixel),
      puts.Perm ((List.range total).flatMap fun w =>
        ((g.cut p s).job p bilinear).renderSlice p px junk w total) →
      ∀ x y, (puts.filter (Put.isAt x y)).map Put.value =
        if ((g.cut p s).px.1 ≤ x ∧ x < (g.cut p s).px.2) ∧
          (g.cut p s).py.1 ≤ y ∧ y < (g.cut p s).py.2 then [picture x y] else []) ∧
    ((((g.cut p s).job p bilinear).unscaled = false → (g.cut p s).RowsMapped p bilinear) →
      ∀ x y, (g.cut p s).px.1 ≤ x ∧ x < (g.cut p s).px.2 →
        (g.cut p s).py.1 ≤ y ∧ y < (g.cut p s).py.2 →
        picture x y = (g.cut p s).reference p bilinear px x y) := by
  have hok := job_ok hacc bilinear
  have hpy := hok.py
  refine ⟨fun x y => (((g.cut p s).job p bilinear).pixel p px junk y x).1, ?_, ?_⟩
  · intro total htotal hsmall puts hputs x y
    have hrows : (((g.cut p s).job p bilinear).py1 - ((g.cut p s).job p bilinear).py0) * total <
        2 ^ 31 := by
      apply lt_of_le_of_lt _ hsmall
      exact Int.mul_le_mul_of_nonneg_right (by omega) (by omega)
    rw [Job.slices_eq _ _ _ _ htotal hpy.2.1.le hpy.1 hpy.2.2 hrows] at hputs
    have hfilter := (hputs.filter (Put.isAt x y)).map Put.value
    rw [raster_at (fun _ _ => rfl) (fun _ _ => rfl)] at hfilter
    change List.Perm _ (List.map _ (if ((g.cut p s).px.1 ≤ x ∧ x < (g.cut p s).px.2) ∧
      (g.cut p s).py.1 ≤ y ∧ y < (g.cut p s).py.2 then _ else _)) at hfilter
    split
    · next hin =>
      rw [if_pos hin] at hfilter
      exact List.perm_singleton.mp hfilter
    · next hout =>
      rw [if_neg hout] at hfilter
      exact List.perm_nil.mp hfilter
  · intro hrows x y hx hy
    exact pixel_reference hok hrows hx hy

/-- Six pixels of a row, shown as three on the screen and two on the panel. -/
def sixToTwo : Geometry := ⟨⟨0, 6, 0, 3⟩, ⟨0, 1, 0, 2⟩⟩

def columns : Pixels := fun _ c => BitVec.ofInt 32 c

theorem render_refines_six : (sixToTwo.cut phone square).accepted square = true ∧
    ((((List.range 4).flatMap fun w =>
      ((sixToTwo.cut phone square).job phone false).renderSlice phone columns columns w 4).filter
        (Put.isAt 1 0)).map Put.value) = [3#32] := by
  have hacc : (sixToTwo.cut phone square).accepted square = true := by decide
  obtain ⟨picture, hputs, hvalue⟩ :=
    @render_refines phone false columns columns square sixToTwo hacc
  refine ⟨hacc, (hputs 4 (by decide) (by decide) _ (.refl _) 1 0).trans ?_⟩
  rw [if_pos (by decide), hvalue (fun _ h => absurd h (by decide)) 1 0 (by decide) (by decide)]
  decide

def toMdp5 (v : Pixel) : Pixel :=
  (v &&& 0xff00ff00#32) ||| ((v &&& 0x00ff0000#32) >>> 16) ||| ((v &&& 0x000000ff#32) <<< 16)

/-- The centre of the first of the two pixels is in the second of the six; the first is drawn. -/
theorem render_takes_first : (sixToTwo.cut phone square).accepted square = true ∧
    ¬∀ x y, ((sixToTwo.cut phone square).px.1 ≤ x ∧ x < (sixToTwo.cut phone square).px.2) →
      ((sixToTwo.cut phone square).py.1 ≤ y ∧ y < (sixToTwo.cut phone square).py.2) →
      ((((sixToTwo.cut phone square).job phone false).renderSlice phone columns columns 0 1).filter
        (Put.isAt x y)).map Put.value = [toMdp5 ((sixToTwo.cut phone square).source columns
          ((sixToTwo.cut phone square).sampleY phone y / 256)
            ((sixToTwo.cut phone square).sampleX phone x / 256))] := by
  refine ⟨by decide, fun h => ?_⟩
  have hfirst := h 0 0 (by decide) (by decide)
  have hslices :=
    @Job.slices_eq phone ((sixToTwo.cut phone square).job phone false) columns columns 1
    (by decide) (by decide) (by decide) (by decide) (by decide)
  rw [List.range_one, List.flatMap_singleton] at hslices
  rw [hslices] at hfirst
  exact absurd hfirst (by decide)

end XnuXzs.Framebuffer
