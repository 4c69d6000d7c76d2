import Cncpp.Pacing

/-! Where an interpolated block starts and where it ends.  A block with a well-defined
profile starts at the target of the block before it, and ends at its own target,
unless it is an arc whose target is not on the circle around its centre. -/

namespace Cncpp

open DataArith Lib XReal

noncomputable section

/-- A point whose coordinates are numbers. -/
def Point.IsReal (p : Point XReal) : Prop :=
  ∃ x y z : ℝ, p = .ofCoords (.fin x) (.fin y) (.fin z)

/-! ## The ends of an arc -/

section Arc

variable {type : BlockType} {R I J : XReal} {x0 y0 x y : ℝ} {z0 z : XReal} {a : Arc}

/-- A point of the circle, from its direction. -/
theorem add_polar {xc yc x y r θ : ℝ} (hθ : Complex.arg ⟨x - xc, y - yc⟩ = θ)
    (hr : (x - xc) ^ 2 + (y - yc) ^ 2 = r ^ 2) (h0 : 0 ≤ r) :
    xc + r * Real.cos θ = x ∧ yc + r * Real.sin θ = y := by
  obtain ⟨hx, hy⟩ := polar (x - xc) (y - yc)
  rw [hr, Real.sqrt_sq h0, hθ] at hx hy
  constructor
  · linarith
  · linarith

/-- The arc turns around its centre from the direction of one point to that of another, the
first one being on its circle. -/
structure Arc.Leads (a : Arc) (type : BlockType) (x0 y0 x y : ℝ) : Prop where
  dist : (x0 - a.xc) ^ 2 + (y0 - a.yc) ^ 2 = a.r ^ 2
  θ0 : a.θ0 = Complex.arg ⟨x0 - a.xc, y0 - a.yc⟩
  dθ : a.dθ = sweepAngle type a.θ0 (Complex.arg ⟨x - a.xc, y - a.yc⟩)

theorem ArcOf.leads (h : ArcOf type (.ofCoords (.fin x0) (.fin y0) z0) (.ofCoords (.fin x) (.fin y) z)
    R I J a) : a.Leads type x0 y0 x y := by
  cases h with
  | @radius R' x0' y0' x' y' z0' z' hR hd hle hty hRw hp0 hp =>
    cases hp0
    cases hp
    exact ⟨(center_dist type hd hle).1.trans (sq_abs R').symm, rfl, rfl⟩
  | @center i j x0' y0' θ z0' x' y' z' hr hθ hturn hty hRw hI hJ hp0 hp hat =>
    cases hp0
    cases hp
    rw [sub_def, sub_def, atan2_def] at hat
    injection hat with hat
    have hx : x0 - (x0 + i) = -i := by ring
    have hy : y0 - (y0 + j) = -j := by ring
    refine ⟨?_, ?_, ?_⟩
    · simp only [Arc.ofCenter, hx, hy]
      rw [Real.sq_sqrt (by positivity)]
      ring
    · simp only [Arc.ofCenter, hx, hy]
    · simp only [Arc.ofCenter, hat]

theorem Arc.Leads.start (h : a.Leads type x0 y0 x y) :
    a.xc + a.r * Real.cos a.θ0 = x0 ∧ a.yc + a.r * Real.sin a.θ0 = y0 :=
  add_polar h.θ0.symm h.dist a.r_pos.le

theorem Arc.Leads.target (h : a.Leads type x0 y0 x y)
    (ht : (x - a.xc) ^ 2 + (y - a.yc) ^ 2 = a.r ^ 2) :
    a.xc + a.r * Real.cos (a.θ0 + a.dθ) = x ∧ a.yc + a.r * Real.sin (a.θ0 + a.dθ) = y := by
  rw [h.dθ]
  obtain ⟨hcos, hsin⟩ := cos_sin_sweepAngle type a.θ0 (Complex.arg ⟨x - a.xc, y - a.yc⟩)
  rw [hcos, hsin]
  exact add_polar rfl ht a.r_pos.le

theorem ArcOf.start (h : ArcOf type (.ofCoords (.fin x0) (.fin y0) z0) (.ofCoords (.fin x) (.fin y) z)
    R I J a) : a.xc + a.r * Real.cos a.θ0 = x0 ∧ a.yc + a.r * Real.sin a.θ0 = y0 :=
  h.leads.start

/-- The target of an arc given by its centre is on the circle. -/
def TargetOnCircle (type : BlockType) (p0 p : Point XReal) (R I J : XReal) : Prop :=
  type.IsArc → R = .fin 0 → ∀ x0 y0 x y i j : ℝ, ∀ z0 z : XReal,
    p0 = .ofCoords (.fin x0) (.fin y0) z0 → p = .ofCoords (.fin x) (.fin y) z →
    I = .fin i → J = .fin j → (x - (x0 + i)) ^ 2 + (y - (y0 + j)) ^ 2 = i ^ 2 + j ^ 2

theorem ArcOf.target (h : ArcOf type (.ofCoords (.fin x0) (.fin y0) z0)
    (.ofCoords (.fin x) (.fin y) z) R I J a)
    (hc : TargetOnCircle type (.ofCoords (.fin x0) (.fin y0) z0) (.ofCoords (.fin x) (.fin y) z) R I J) :
    a.xc + a.r * Real.cos (a.θ0 + a.dθ) = x ∧ a.yc + a.r * Real.sin (a.θ0 + a.dθ) = y := by
  refine h.leads.target ?_
  cases h with
  | @radius R' x0' y0' x' y' z0' z' hR hd hle hty hRw hp0 hp =>
    cases hp0
    cases hp
    exact (center_dist type hd hle).2.trans (sq_abs R').symm
  | @center i j x0' y0' θ z0' x' y' z' hr hθ hturn hty hRw hI hJ hp0 hp hat =>
    cases hp0
    cases hp
    have hon := hc hty hRw _ _ _ _ i j _ _ rfl rfl hI hJ
    exact hon.trans (Real.sq_sqrt (by positivity)).symm

end Arc

/-! ## The first and the last setpoint -/

/-- The block of `line`, behind `text`, has a well-defined profile, and leads from one
point to another. -/
structure Drawable (m : Machine XReal) (text : List Line) (line : Line) (c : Block XReal) :
    Prop where
  profile : ProfileDefined m line c
  start : (modalTarget m text).IsReal
  target : (modalTarget m (text ++ [line])).IsReal

/-- A block that ends at its target. -/
def EndsAtTarget (m : Machine XReal) (text : List Line) (line : Line) (c : Block XReal) : Prop :=
  c.type = .rapid ∨ Drawable m text line c ∧
    TargetOnCircle (typeCode line) (modalTarget m text) (modalTarget m (text ++ [line]))
      (ownWord 'R' line) (ownWord 'I' line) (ownWord 'J' line)

section Setpoints

variable {m m' : Machine XReal} {text : List Line} {line : Line} {c : Block XReal}
  {prev : Option (Block XReal)} {A tq : ℝ}

theorem progress_zero (T : Trapezoid) : progress T 0 = 0 := by
  rw [progress, T.dist_before le_rfl, zero_div]

theorem progress_after {T : Trapezoid} {t : ℝ} (h : T.duration ≤ t) : progress T t = 1 := by
  rw [progress, T.dist_after h, div_self T.length_pos.ne']

/-- The points of the path of a block, by its progress. -/
theorem interpolate_ends (h : MadeFrom m text line c) (ht : c.type.Interpolated) {G : Leg}
    {fM : XReal} (hG : LegAt m text line G fM) (ho : Block.origin m' prev = modalTarget m text)
    (h0 : (modalTarget m text).IsReal) (h1 : (modalTarget m (text ++ [line])).IsReal) :
    c.interpolate m' prev (.fin 0) = .ok (modalTarget m text) ∧
      (TargetOnCircle (typeCode line) (modalTarget m text) (modalTarget m (text ++ [line]))
        (ownWord 'R' line) (ownWord 'I' line) (ownWord 'J' line) →
        c.interpolate m' prev (.fin 1) = .ok c.target) := by
  have hpar := (hasLeg_of_madeFrom h ht hG).parsed
  have hty := h.type_eq
  have hmod := h.modal
  obtain ⟨x0, y0, z0, h0⟩ := h0
  obtain ⟨x, y, z, h1⟩ := h1
  have hleg := hG.leg
  rw [h0, h1] at hleg
  have htgt : c.target = .ofCoords (.fin x) (.fin y) (.fin z) := hmod.target.trans h1
  rw [h0, h1, htgt]
  rw [h0] at ho
  cases h with
  | @mk prev' b c next hb hcar h =>
    have hpar : c.parsed = true := hpar
    have hty : c.type = typeCode line := hty
    have htgt : c.target = .ofCoords (.fin x) (.fin y) (.fin z) := htgt
    obtain ⟨x0', y0', z0', x', y', z', h0', h1', hd, hma, -⟩ := Block.points_of_parse h
    rw [Block.origin_of_carried hcar] at h0'
    cases h0.symm.trans h0'
    cases htgt.symm.trans h1'
    rw [sub_def, sub_def, sub_def] at hd
    cases hleg with
    | line htl _ _ _ =>
      have hl : c.type = .line := hty.trans htl
      have hint := interpolate_line hpar hma hl ho hd
      refine ⟨(hint 0).trans ?_, fun _ => (hint 1).trans ?_⟩
      · simp only [mul_zero, add_zero]
      · simp only [mul_one, add_sub_cancel]
    | @arc a ha hl =>
      have harc : c.type.IsArc := by
        rw [hty]
        cases ha <;> assumption
      have hst : HasArc c a := by
        refine hasArc_of_parse hb h ?_
        rw [hty, htgt, Block.origin_of_carried hcar, h0]
        exact ha
      have hint := interpolate_arc hpar hma harc ho hd hst
      refine ⟨(hint 0).trans ?_, fun hc => (hint 1).trans ?_⟩
      · simp only [mul_zero, add_zero, ha.start]
      · simp only [mul_one, add_sub_cancel, ha.target hc]

/-- The first setpoint of a block. -/
theorem first_setpoint (h : MadeFrom m text line c) (ht : c.type.Interpolated)
    (hA : m.A = .fin A) (hA0 : 0 < A) (htq : m.tq = .fin tq) (htq0 : 0 < tq)
    (hd : Drawable m text line c) (ho : Block.origin m' prev = modalTarget m text) :
    ∃ s, c.interpolateAt m' prev (num 0) = .ok (modalTarget m text, s) := by
  obtain ⟨G, fM, hG, hfit⟩ := (profileDefined_iff h ht hA hA0 htq htq0).mp hd.profile
  have hleg := hasLeg_of_madeFrom h ht hG
  have hlam : (c.profile.lambda (num 0)).lambda = .fin 0 := by
    rw [hleg.profile_law hG.tq hfit, num_def, Rat.cast_zero, lambda_ofLaw, progress_zero]
  exact ⟨_, interpolateAt_of_lambda hleg.parsed hlam
    (interpolate_ends h ht hG ho hd.start hd.target).1⟩

/-- Every setpoint after the duration of a block is its target. -/
theorem last_setpoint (h : MadeFrom m text line c) (ht : c.type.Interpolated)
    (hA : m.A = .fin A) (hA0 : 0 < A) (htq : m.tq = .fin tq) (htq0 : 0 < tq)
    (hend : EndsAtTarget m text line c) (ho : Block.origin m' prev = modalTarget m text)
    (hq : m'.tq = m.tq) {t : XReal} (hlt : DataArith.lt (c.profile.dt + m'.tq / num 10) t = true) :
    ∃ s, c.interpolateAt m' prev t = .ok (c.target, s) := by
  have hnr : c.type ≠ .rapid := by
    rintro hr
    rw [hr] at ht
    exact absurd ht (by decide)
  obtain ⟨hd, hc⟩ := hend.resolve_left hnr
  obtain ⟨G, fM, hG, hfit⟩ := (profileDefined_iff h ht hA hA0 htq htq0).mp hd.profile
  have hleg := hasLeg_of_madeFrom h ht hG
  have hprof := hleg.profile_law hG.tq hfit
  have hlam : (c.profile.lambda t).lambda = .fin 1 := by
    rw [hprof, hq, htq, num_def, Rat.cast_ofNat, div_of_ne (by norm_num)] at hlt
    change DataArith.lt (.fin ((G.lawOf fM).duration + tq / 10)) t = true at hlt
    rw [hprof]
    cases t with
    | fin t =>
      rw [lt_def] at hlt
      have hlate : (G.lawOf fM).duration ≤ t := by linarith [div_pos htq0 (by norm_num : (0 : ℝ) < 10)]
      rw [lambda_ofLaw, progress_after hlate]
    | posInf =>
      rw [lambda_posInf]
      change (.fin (G.lawOf fM).length / .fin (G.lawOf fM).length : XReal) = _
      rw [div_of_ne (G.lawOf fM).length_pos.ne', div_self (G.lawOf fM).length_pos.ne']
    | negInf => cases hlt
    | nan => cases hlt
  exact ⟨_, interpolateAt_of_lambda hleg.parsed hlam
    ((interpolate_ends h ht hG ho hd.start hd.target).2 hc)⟩

end Setpoints

end

end Cncpp
