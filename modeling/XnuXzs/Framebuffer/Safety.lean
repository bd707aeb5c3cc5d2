import XnuXzs.Framebuffer.Present

/-!
# Where a swap reads and writes

A layer stays inside exactly if its destination, on both axes, does not begin before the screen,
or reaches into it with the start of the source still in range.
-/

namespace XnuXzs.Framebuffer

open Lib Framebuffer.Frame

structure Layer where
  shown : Bool
  surface : Surface
  geometry : Geometry

def Layer.present (l : Layer) (p : Panel) (px junk : Pixels) (gate : Gate) :
    List (Int × Int) × List (Put Pixel) :=
  if l.shown then presentLayer p l.surface l.geometry px junk gate else ([], [])

/-- What is drawn of a layer, if anything is. -/
def Layer.frame (l : Layer) (p : Panel) : Frame := l.geometry.cut p l.surface

def Layer.filled (l : Layer) (p : Panel) : Geometry := l.geometry.fill p l.surface

def Surface.Has (s : Surface) (q : Int × Int) : Prop :=
  (0 ≤ q.1 ∧ q.1 < s.height) ∧ 0 ≤ q.2 ∧ q.2 < s.width

/-- `v` is a pixel of the panel for what is left of the destination on the screen. -/
def Axis.Target (a : Axis) (phys logical v : Int) : Prop :=
  (0 ≤ v ∧ v < phys) ∧ Shows phys logical (max a.d 0) (min (a.d + a.m) logical) v

def Axis.Meets (a : Axis) (logical : Int) : Prop := max a.d 0 < min (a.d + a.m) logical

/-- Whatever the state of the driver and the pixels are. -/
structure Layer.Safe (p : Panel) (l : Layer) : Prop where
  reads : ∀ px junk gate, ∀ q ∈ (l.present p px junk gate).1, l.surface.Has q
  puts : ∀ px junk gate, ∀ v ∈ (l.present p px junk gate).2,
    (l.filled p).x.Target p.width p.logicalW v.x ∧ (l.filled p).y.Target p.height p.logicalH v.y
  misses : ¬((l.filled p).x.Meets p.logicalW ∧ (l.filled p).y.Meets p.logicalH) →
    ∀ px junk gate, (l.present p px junk gate).2 = []

def Layer.Good (p : Panel) (l : Layer) : Prop :=
  l.shown = true → (l.frame p).accepted l.surface = true →
    (l.filled p).x.Ok ∧ (l.filled p).y.Ok

variable {p : Panel} {s : Surface} {g : Geometry} {f : Frame} {bilinear : Bool}

theorem panel_bounds (p : Panel) : (0 < p.width ∧ p.width ≤ p.logicalW ∧ p.logicalW < 2 ^ 31) ∧
    0 < p.height ∧ p.height ≤ p.logicalH ∧ p.logicalH < 2 ^ 29 :=
  ⟨⟨p.width_pos, p.width_logical, p.logicalW_lt⟩, p.height_pos, p.height_logical, p.logicalH_lt⟩

theorem surface_bounds (hs : s.Holds) :
    (0 < s.width ∧ s.width < 2 ^ 31) ∧ 0 < s.height ∧ s.height < 2 ^ 31 := by
  have := hs.stride
  have := hs.stride_lt
  exact ⟨⟨hs.width, by omega⟩, hs.height, hs.height_lt⟩

theorem fill_ok (hs : s.Holds) (hx : g.x.Int32) (hy : g.y.Int32) :
    ((g.fill p s).x.Int32 ∧ 0 < (g.fill p s).x.m) ∧ (g.fill p s).y.Int32 ∧
      0 < (g.fill p s).y.m := by
  have := surface_bounds hs
  have := panel_bounds p
  rw [Geometry.fill]
  simp only [Axis.Int32] at hx hy
  split <;> split <;> simp only [Axis.Int32] <;> omega

theorem cut_px (g : Geometry) (p : Panel) (s : Surface) :
    (0 ≤ (g.cut p s).px.1 ∧ (g.cut p s).px.2 ≤ p.width) ∧ 0 ≤ (g.cut p s).py.1 ∧
      (g.cut p s).py.2 ≤ p.height := by
  have := panel_bounds p
  exact ⟨onPanel_mem _ p.width_pos (by omega), onPanel_mem _ p.height_pos (by omega)⟩

theorem accepted_iff : f.accepted s = true ↔ s.usable = true ∧ f.px.1 < f.px.2 ∧ f.py.1 < f.py.2 ∧
    0 < f.x.n ∧ 0 < f.y.n ∧ f.last s ≤ s.length := by
  rw [accepted, Bool.and_eq_true, decide_eq_true_eq]

theorem job_ok (hacc : (g.cut p s).accepted s = true) (bilinear : Bool) :
    ((g.cut p s).job p bilinear).Ok p := by
  obtain ⟨-, hpx, hpy, hn, hn', -⟩ := accepted_iff.mp hacc
  obtain ⟨hx, hy⟩ := cut_px g p s
  generalize g.cut p s = f at hpx hpy hn hn' hx hy ⊢
  have hp := panel_bounds p
  have hsw : 0 < f.sw p := by
    rw [sw]
    split <;> omega
  have hmapW : 0 < f.mapW p := by
    rw [mapW]
    split <;> omega
  constructor
  · exact ⟨hx.1, hpx, hx.2⟩
  · exact ⟨hy.1, hpy, hy.2⟩
  · exact hsw
  · change 0 < f.sh p
    rw [sh]
    split <;> omega
  · intro x hlo hhi
    change f.px.1 ≤ x at hlo
    change x < f.px.2 at hhi
    have hsample : 0 ≤ f.sampleX p x ∧ f.sampleX p x ≤ _ := sampleAt_mem hsw hmapW
    have hmap : 0 ≤ x - f.mapX ∧ x - f.mapX < f.mapW p := by
      rw [mapX, mapW]
      split <;> omega
    have hfloor := floor_mem hmap.1 hmap.2 hsw
    simp only [job]
    split
    · omega
    · exact hfloor
  · intro x hw
    simp only [job, ne_eq, ite_eq_right_iff, not_forall] at hw ⊢
    obtain ⟨⟨hfilter, hlt⟩, -⟩ := hw
    rw [if_pos hfilter]
    exact hlt
  · intro hfilter x x' hle
    have hmono : f.sampleX p x ≤ f.sampleX p x' := sampleAt_mono hsw hmapW (by omega)
    simp only [job] at hfilter ⊢
    rw [if_pos hfilter, if_pos hfilter]
    omega
  · simp only [job, Bool.and_eq_true, beq_iff_eq, Bool.not_eq_true']
    rintro ⟨⟨h₁, h₂⟩, h₃⟩
    simp [sw, sh, h₁, h₂, h₃]

theorem draw_slices (hok : (f.job p bilinear).Ok p) (px junk : Pixels) :
    ((List.range (if f.py.2 - f.py.1 ≥ 120 then 4 else 1)).flatMap fun w =>
        (f.job p bilinear).renderSlice p px junk w (if f.py.2 - f.py.1 ≥ 120 then 4 else 1)) =
      (span f.py.1 f.py.2).flatMap fun y =>
        (span f.px.1 f.px.2).map fun x => put x y ((f.job p bilinear).pixel p px junk y x) := by
  have hpy : 0 ≤ f.py.1 ∧ f.py.1 < f.py.2 ∧ f.py.2 ≤ p.height := hok.py
  apply Job.slices_eq
  · split <;> decide
  · exact hpy.2.1.le
  · exact hpy.1
  · exact hpy.2.2
  · have := panel_bounds p
    change (f.py.2 - f.py.1) * _ < _
    split <;> push_cast <;> omega

theorem mem_strided {a b k v : Int} (h : v ∈ strided a b k) : a ≤ v ∧ v < b :=
  mem_span.mp (List.mem_filter.mp h).1

theorem signatureReads_has {job : Job} : ∀ q ∈ job.signatureReads, job.Has q := by
  intro q hq
  rw [Job.signatureReads] at hq
  split at hq
  · next hwords =>
    obtain ⟨r, hr, hq⟩ := List.mem_flatMap.mp hq
    obtain ⟨k, hk, hq⟩ := List.mem_flatMap.mp hq
    have hr := mem_strided hr
    rw [mem_span] at hk
    have hstep : 0 < job.sw / 2 / 16 := by omega
    have hshift := Int.emod_nonneg (r * 5 % 2 ^ 32) hstep.ne'
    have hshift' := Int.emod_lt_of_pos (r * 5 % 2 ^ 32) hstep
    have hmul := Int.mul_nonneg hk.1 hstep.le
    have hmul' : k * (job.sw / 2 / 16) ≤ 15 * (job.sw / 2 / 16) :=
      Int.mul_le_mul_of_nonneg_right (by omega) hstep.le
    simp only [List.mem_cons, List.not_mem_nil, or_false] at hq
    rcases hq with rfl | rfl <;> apply Job.has_mk <;> omega
  · simp at hq

theorem draw_reads (hacc : f.accepted s = true) (px junk : Pixels) (gate : Gate)
    (hok : (f.job p gate.bilinear).Ok p) {P : Int × Int → Prop}
    (hjob : ∀ q, (f.job p gate.bilinear).Has q → P q)
    (hframe : ∀ r c, (f.y.s ≤ r ∧ r < f.y.s + f.y.n) → (f.x.s ≤ c ∧ c < f.x.s + f.x.n) → P (r, c)) :
    ∀ q ∈ (f.draw p px junk gate).1, P q := by
  obtain ⟨-, -, -, hn, hn', -⟩ := accepted_iff.mp hacc
  have hscan : ∀ q ∈ (if gate.paused then [] else f.scanReads), P q := by
    intro q hq
    split at hq
    · cases hq
    · obtain ⟨r, hr, hq⟩ := List.mem_flatMap.mp hq
      obtain ⟨c, hc, rfl⟩ := List.mem_map.mp hq
      exact hframe r c (mem_strided hr) (mem_strided hc)
  have hbefore : ∀ q ∈ (if gate.paused then [] else f.scanReads) ++
      (if gate.logs then [(f.y.s + f.y.n / 2, f.x.s + f.x.n / 2)] else []) ++
        (f.job p gate.bilinear).signatureReads, P q := by
    intro q hq
    rcases List.mem_append.mp hq with hq | hq
    · rcases List.mem_append.mp hq with hq | hq
      · exact hscan q hq
      split at hq
      · rw [List.mem_singleton] at hq
        subst hq
        exact hframe _ _ (by omega) (by omega)
      · cases hq
    · exact hjob q (signatureReads_has q hq)
  rw [draw]
  dsimp only
  split
  · exact hscan
  split
  · exact hbefore
  rw [draw_slices hok]
  intro q hq
  rcases List.mem_append.mp hq with hq | hq
  · rcases List.mem_append.mp hq with hq | hq
    · exact hbefore q hq
    · obtain ⟨y, hy, hq⟩ := List.mem_flatMap.mp hq
      rw [mem_span] at hy
      exact hjob q (hok.blendReads_has hy.1 hy.2 q hq)
  · obtain ⟨v, hv, hq⟩ := List.mem_flatMap.mp hq
    obtain ⟨y, hy, hv⟩ := List.mem_flatMap.mp hv
    obtain ⟨x, hx, rfl⟩ := List.mem_map.mp hv
    exact hjob q (hok.pixel_has px junk (mem_span.mp hx) (mem_span.mp hy) q hq)

theorem draw_puts (px junk : Pixels) (gate : Gate) (hok : (f.job p gate.bilinear).Ok p) :
    ∀ v ∈ (f.draw p px junk gate).2, (f.px.1 ≤ v.x ∧ v.x < f.px.2) ∧
      f.py.1 ≤ v.y ∧ v.y < f.py.2 := by
  rw [draw]
  dsimp only
  split
  · nofun
  split
  · nofun
  rw [draw_slices hok]
  intro v hv
  obtain ⟨y, hy, hv⟩ := List.mem_flatMap.mp hv
  obtain ⟨x, hx, rfl⟩ := List.mem_map.mp hv
  exact ⟨mem_span.mp hx, mem_span.mp hy⟩

/-- The console is gone, and the frame is a new one. -/
def plainGate : Gate := ⟨true, false, false, false, false, false⟩

theorem draw_first (hok : (f.job p false).Ok p) (px junk : Pixels) :
    put f.px.1 f.py.1 ((f.job p false).pixel p px junk f.py.1 f.px.1) ∈
      (f.draw p px junk plainGate).2 ∧
    ∀ q ∈ ((f.job p false).pixel p px junk f.py.1 f.px.1).2,
      q ∈ (f.draw p px junk plainGate).1 := by
  have hput : put f.px.1 f.py.1 ((f.job p false).pixel p px junk f.py.1 f.px.1) ∈
      (f.draw p px junk plainGate).2 := by
    change _ ∈ (List.range _).flatMap _
    rw [@draw_slices p f plainGate.bilinear hok]
    apply List.mem_flatMap.mpr
    refine ⟨_, mem_span.mpr ⟨Int.le_refl _, hok.py.2.1⟩,
      List.mem_map.mpr ⟨_, mem_span.mpr ⟨Int.le_refl _, hok.cx.2.1⟩, rfl⟩⟩
  refine ⟨hput, fun q hq => ?_⟩
  apply List.mem_append_right
  exact List.mem_flatMap.mpr ⟨_, hput, hq⟩

theorem cut_full (h : (g.cut p s).full = true) : 0 ≤ (g.cut p s).x.s ∧ 0 ≤ (g.cut p s).y.s ∧
    s.width = p.logicalW ∧ s.height = p.logicalH := by
  obtain ⟨hx, hy, -, -, hw, hh⟩ := of_decide_eq_true h
  exact ⟨hx ▸ shift_d _, hy ▸ shift_d _, hw, hh⟩

theorem first_reads (hacc : f.accepted s = true) (hfull : f.full = false) (px junk : Pixels) :
    ∃ r, ((f.job p false).pixel p px junk f.py.1 f.px.1).2 = [(f.y.s + r, f.x.s)] ∧
      (f.y.s < 0 → r = 0) := by
  obtain ⟨-, -, -, -, hn', -⟩ := accepted_iff.mp hacc
  have hfilter : (f.job p false).filter = false := rfl
  have hblends : (f.job p false).blends p f.py.1 = false := by simp [Job.blends, hfilter]
  have hcolumn : (f.job p false).column f.px.1 = 0 := by simp [job, filters, mapX, hfull]
  have hsx : (f.job p false).sx = f.x.s := by simp [job, hfull]
  have hsy : (f.job p false).sy = f.y.s := by simp [job, hfull]
  have hline : ∀ c, ((f.job p false).line p px junk f.py.1 c).2 =
      [(f.y.s + (f.job p false).row p f.py.1, f.x.s + c)] := by
    intro c
    rw [Job.line, hblends, hsx, hsy]
    rfl
  have hrow : f.y.s < 0 → (f.job p false).row p f.py.1 = 0 := by
    intro hneg
    have htall : (f.job p false).tall p = false := by simp [Job.tall, hsy, hneg.ne]
    have hsh : (f.job p false).sh = f.y.n := by simp [job, sh, hfull]
    have hmap : f.py.1 - (f.job p false).mapY p = 0 := by
      rw [Job.mapY, htall]
      exact Int.sub_self _
    rw [Job.row, hfilter, hmap, Int.zero_mul, Int.zero_tdiv, hsh]
    simp only [Bool.false_eq_true, if_false]
    exact if_neg (by omega)
  rw [Job.pixel, hfilter]
  split
  · refine ⟨0, ?_, fun _ => rfl⟩
    change [((f.job p false).sy + f.py.1 - f.py.1, (f.job p false).sx + (f.px.1 - f.px.1))] = _
    rw [hsx, hsy]
    simp
  refine ⟨(f.job p false).row p f.py.1, ?_, hrow⟩
  rw [if_neg Bool.false_ne_true]
  split
  · next hcut =>
    have hzero : f.px.1 = 0 := hcut.1
    rw [hline, hzero]
    simp
  · rw [hcolumn, hline, Int.add_zero]

variable {a : Axis} {phys logical v : Int}

/-- An axis that is not in order misses the screen, or its source begins before the surface. -/
theorem bad_axis (size logical : Int) (ha : a.Int32) (hbad : ¬a.Ok) :
    a.d + a.m ≤ 0 ∨ (a.clip size logical).s < 0 := by
  obtain ⟨⟨hs₀, hs₁⟩, -, ⟨hd₀, hd₁⟩, -⟩ := ha
  simp only [Axis.Ok, not_or, not_and, not_lt, not_le] at hbad
  by_cases hreach : a.d + a.m ≤ 0
  · exact .inl hreach
  have hs : (if a.s < 0 then 0 else a.s) = max a.s 0 := by split <;> omega
  right
  change a.shift.s < 0
  rw [Axis.shift, if_pos hbad.1, hs]
  change i32 (max a.s 0 - a.d) < 0
  rw [i32]
  omega

theorem not_target (hphys : 0 < phys) (hlogical : 0 < logical) (h : a.d + a.m ≤ 0) :
    ¬a.Target phys logical v := by
  rintro ⟨⟨hv, -⟩, -, hlt⟩
  have hle : min (a.d + a.m) logical * phys ≤ 0 :=
    Int.mul_nonpos_of_nonpos_of_nonneg (by omega) hphys.le
  have := Int.mul_nonneg hv hlogical.le
  omega

theorem target_meets (hphys : 0 < phys) (hlogical : 0 < logical) (hm : 0 < a.m)
    (h : a.Target phys logical v) : a.Meets logical := by
  have hreach : ¬a.d + a.m ≤ 0 := fun hmiss => not_target hphys hlogical hmiss h
  obtain ⟨⟨-, hv⟩, hlo, -⟩ := h
  have hle : (v + 1) * logical ≤ phys * logical :=
    Int.mul_le_mul_of_nonneg_right (by omega) hlogical.le
  have hstart : max a.d 0 < logical := by
    apply Int.lt_of_mul_lt_mul_right (a := phys) _ hphys.le
    rw [Int.mul_comm logical]
    omega
  rw [Axis.Meets]
  omega

theorem target_of_onPanel {size : Int} {full : Bool} (ha : a.Int32) (hm : 0 < a.m) (hok : a.Ok)
    (hsize : 0 < size ∧ size < 2 ^ 31) (hphys : 0 < phys ∧ phys ≤ logical)
    (hlogical : logical < 2 ^ 31)
    (hv : ((a.clip size logical).onPanel full phys logical).1 ≤ v ∧
      v < ((a.clip size logical).onPanel full phys logical).2) :
    a.Target phys logical v := by
  obtain ⟨-, -, hd, hend⟩ := clip_ok ha hm hsize ⟨by omega, hlogical⟩ hok
  have hrange := @onPanel_mem (a.clip size logical) phys logical full hphys.1 (by omega)
  have hreach : 0 < a.d + a.m := by
    rcases hok with h | h
    · omega
    · exact h.1
  have hshows := onPanel_shows full hphys hlogical (by have := ha.2.2.1; omega) (by omega) hv
  rw [hend, hd] at hshows
  exact ⟨⟨by omega, by omega⟩, hshows⟩

variable {l : Layer}

theorem present_eq (hshown : l.shown = true) (hacc : (l.frame p).accepted l.surface = true)
    (px junk : Pixels) (gate : Gate) :
    l.present p px junk gate = (l.frame p).draw p px junk gate := by
  rw [Layer.present, if_pos hshown, presentLayer]
  exact if_pos hacc

theorem present_cases (l : Layer) (p : Panel) (px junk : Pixels) (gate : Gate) :
    l.present p px junk gate = ([], []) ∨ l.shown = true ∧ (l.frame p).accepted l.surface = true ∧
      l.present p px junk gate = (l.frame p).draw p px junk gate := by
  by_cases hshown : l.shown = true
  · by_cases hacc : (l.frame p).accepted l.surface = true
    · exact .inr ⟨hshown, hacc, present_eq hshown hacc px junk gate⟩
    · left
      rw [Layer.present, if_pos hshown, presentLayer]
      exact if_neg hacc
  · exact .inl (if_neg hshown)

theorem good_of_safe (hs : l.surface.Holds) (hx : l.geometry.x.Int32) (hy : l.geometry.y.Int32)
    (h : l.Safe p) : l.Good p := by
  intro hshown hacc
  obtain ⟨⟨hx, -⟩, hy, -⟩ := fill_ok (p := p) hs hx hy
  have hok : ((l.frame p).job p false).Ok p := job_ok hacc false
  obtain ⟨hput, hread⟩ := draw_first hok (fun _ _ => 0) (fun _ _ => 0)
  have hpresent := present_eq hshown hacc (fun _ _ => 0) (fun _ _ => 0) plainGate
  obtain ⟨htx, hty⟩ := h.puts _ _ _ _ (hpresent ▸ hput)
  have hp := panel_bounds p
  -- a source that begins before the surface is read there
  have hstart : 0 ≤ (l.frame p).x.s ∧ 0 ≤ (l.frame p).y.s := by
    cases hfull : (l.frame p).full with
    | true => exact ⟨(cut_full hfull).1, (cut_full hfull).2.1⟩
    | false =>
      obtain ⟨r, hr, hzero⟩ := first_reads hacc hfull (fun _ _ => 0) (fun _ _ => 0)
      rw [hr] at hread
      have hhas := h.reads _ _ _ _ (hpresent ▸ hread _ (List.mem_singleton.mpr rfl))
      refine ⟨hhas.2.1, not_lt.mp fun hneg => ?_⟩
      have := hhas.1.1
      omega
  constructor
  · by_contra hbad
    rcases bad_axis l.surface.width p.logicalW hx hbad with hmiss | hneg
    · exact not_target hp.1.1 (by omega) hmiss htx
    · exact absurd hstart.1 (not_le.mpr hneg)
  by_contra hbad
  rcases bad_axis l.surface.height p.logicalH hy hbad with hmiss | hneg
  · exact not_target hp.2.1 (by omega) hmiss hty
  · exact absurd hstart.2 (not_le.mpr hneg)

theorem safe_of_good (hs : l.surface.Holds) (hx : l.geometry.x.Int32) (hy : l.geometry.y.Int32)
    (h : l.Good p) : l.Safe p := by
  obtain ⟨⟨hx, hmx⟩, hy, hmy⟩ := fill_ok (p := p) hs hx hy
  have hp := panel_bounds p
  have hH : p.logicalH < 2 ^ 31 := by omega
  obtain ⟨hsw, hsh⟩ := surface_bounds hs
  have hputs : ∀ px junk gate, ∀ v ∈ (l.present p px junk gate).2,
      (l.filled p).x.Target p.width p.logicalW v.x ∧
        (l.filled p).y.Target p.height p.logicalH v.y := by
    intro px junk gate v hv
    obtain hnone | ⟨hshown, hacc, hdraw⟩ := present_cases l p px junk gate
    · rw [hnone] at hv
      cases hv
    rw [hdraw] at hv
    obtain ⟨hokx, hoky⟩ := h hshown hacc
    obtain ⟨hvx, hvy⟩ := draw_puts px junk gate (job_ok hacc _) v hv
    exact ⟨target_of_onPanel hx hmx hokx hsw ⟨hp.1.1, hp.1.2.1⟩ hp.1.2.2 hvx,
      target_of_onPanel hy hmy hoky hsh ⟨hp.2.1, hp.2.2.1⟩ hH hvy⟩
  refine ⟨fun px junk gate q hq => ?_, hputs, fun hmiss px junk gate => ?_⟩
  · obtain hnone | ⟨hshown, hacc, hdraw⟩ := present_cases l p px junk gate
    · rw [hnone] at hq
      cases hq
    rw [hdraw] at hq
    obtain ⟨hokx, hoky⟩ := h hshown hacc
    obtain ⟨hs₀, hs₁, -⟩ := clip_ok hx hmx hsw ⟨by omega, hp.1.2.2⟩ hokx
    obtain ⟨ht₀, ht₁, -⟩ := clip_ok hy hmy hsh ⟨by omega, hH⟩ hoky
    change 0 ≤ (l.frame p).x.s at hs₀
    change (l.frame p).x.s + (l.frame p).x.n ≤ _ at hs₁
    change 0 ≤ (l.frame p).y.s at ht₀
    change (l.frame p).y.s + (l.frame p).y.n ≤ _ at ht₁
    refine draw_reads hacc px junk gate (job_ok hacc _) ?_ ?_ q hq
    · intro q hq
      cases hfull : (l.frame p).full with
      | true =>
        obtain ⟨-, -, hwidth, hheight⟩ := cut_full hfull
        simp only [Job.Has, job, sw, sh, hfull, if_true] at hq
        exact ⟨by omega, by omega⟩
      | false =>
        simp only [Job.Has, job, sw, sh, hfull, Bool.false_eq_true, if_false] at hq
        exact ⟨by omega, by omega⟩
    · intro r c hr hc
      simp only [Surface.Has]
      omega
  · apply List.eq_nil_iff_forall_not_mem.mpr
    intro v hv
    obtain ⟨htx, hty⟩ := hputs px junk gate v hv
    exact hmiss ⟨target_meets hp.1.1 (by omega) hmx htx, target_meets hp.2.1 (by omega) hmy hty⟩

theorem safe_of_unusable {p : Panel} {l : Layer} (hun : ¬l.surface.usable = true) :
    l.Safe p ∧ l.Good p := by
  have hacc : ¬(l.frame p).accepted l.surface = true := fun h => hun (accepted_iff.mp h).1
  have hnone (px junk gate) : l.present p px junk gate = ([], []) :=
    (present_cases l p px junk gate).resolve_right fun h => hacc h.2.1
  refine ⟨⟨?_, ?_, ?_⟩, fun _ h => absurd h hacc⟩ <;> simp [hnone]

/-- Every layer of a swap stays inside its surface and its part of the panel exactly if every
layer that is drawn is in order on both axes. -/
theorem present_iff (p : Panel) (record : List Layer) (hrecord : ∀ l ∈ record,
    (l.surface.usable = true → l.surface.Holds) ∧ l.geometry.x.Int32 ∧ l.geometry.y.Int32) :
    (∀ l ∈ record, l.Safe p) ↔ ∀ l ∈ record, l.Good p := by
  refine forall₂_congr fun l hl => ?_
  obtain ⟨hs, hx, hy⟩ := hrecord l hl
  by_cases husable : l.surface.usable = true
  · exact ⟨good_of_safe (hs husable) hx hy, safe_of_good (hs husable) hx hy⟩
  · exact iff_of_true (safe_of_unusable husable).1 (safe_of_unusable husable).2

def phone : Panel := ⟨1080, 1920, 1125, 2436,
    by decide, by decide, by decide, by decide, by decide, by decide, by decide⟩

def square : Surface := ⟨1000, 1000, 4000, 0, 4000000, true⟩

theorem square_holds : square.Holds := by constructor <;> decide

/-- A layer of 100 pixels, 50 of them left of the screen. -/
def cutLayer : Layer := ⟨true, square, ⟨⟨0, 100, -50, 100⟩, ⟨0, 100, 0, 100⟩⟩⟩

theorem present_of_cut : cutLayer.Safe phone := by
  refine (present_iff phone [cutLayer] ?_).mpr ?_ cutLayer (List.mem_singleton_self _)
  · rintro l hl
    obtain rfl := List.mem_singleton.mp hl
    refine ⟨fun _ => square_holds, ?_, ?_⟩ <;> simp only [Axis.Int32, cutLayer] <;> decide
  · rintro l hl - -
    obtain rfl := List.mem_singleton.mp hl
    exact ⟨.inr (by decide), .inl (by decide)⟩

/-- A layer of 1000 pixels, shown as 100 of them and wholly left of the screen. -/
def lostLayer : Layer := ⟨true, square, ⟨⟨0, 1000, -200, 100⟩, ⟨0, 1000, 0, 1000⟩⟩⟩

/-- The end of its destination is at -96, which as an unsigned number is behind the panel's
1080: the layer is drawn over the whole width of the panel. -/
theorem present_off_screen :
    (lostLayer.surface.Holds ∧ lostLayer.geometry.x.Int32 ∧ lostLayer.geometry.y.Int32) ∧
    ¬lostLayer.Safe phone := by
  refine ⟨⟨square_holds, ?_, ?_⟩, fun h => ?_⟩
  · simp only [Axis.Int32, lostLayer]
    decide
  · simp only [Axis.Int32, lostLayer]
    decide
  have hacc : (lostLayer.frame phone).accepted lostLayer.surface = true := by decide
  have hok : ((lostLayer.frame phone).job phone false).Ok phone := job_ok hacc false
  have hput := (draw_first hok (fun _ _ => 0) fun _ _ => 0).1
  have hempty := h.misses (fun hmeets => absurd hmeets.1 (by simp only [Axis.Meets]; decide))
    (fun _ _ => 0) (fun _ _ => 0) plainGate
  rw [present_eq rfl hacc] at hempty
  rw [hempty] at hput
  cases hput

end XnuXzs.Framebuffer
