import Cncpp.ArcChecks

/-! The sweep of an arc.  Its two conditional complements keep it within one full turn to the
side of its direction; a counterclockwise arc to a target in the direction of its start is the
exception, which does not turn at all. -/

namespace Cncpp

open DataArith Lib XReal

noncomputable section

/-! ## Headings -/

section Headings

/-- An infinite coordinate, against which the finite ones do not count. -/
def infSign : XReal → ℝ
  | .posInf => 1
  | .negInf => -1
  | _ => 0

/-- A vector in the direction that is taken for `(x, y)`; the origin counts as a point on the
first axis. -/
def heading : XReal → XReal → ℂ
  | .fin x, .fin y => if x = 0 ∧ y = 0 then 1 else ⟨x, y⟩
  | x, y => ⟨infSign x, infSign y⟩

/-- The direction of a vector from its angle. -/
theorem arg_of_polar {r θ : ℝ} {z : ℂ} (hr : 0 < r) (hθ : θ ∈ Set.Ioc (-Real.pi) Real.pi)
    (hx : z.re = r * Real.cos θ) (hy : z.im = r * Real.sin θ) : z ≠ 0 ∧ z.arg = θ := by
  have hz : z = r * (Complex.cos θ + Complex.sin θ * Complex.I) := by
    apply Complex.ext
    · simp [hx, ← Complex.ofReal_cos, ← Complex.ofReal_sin]
    · simp [hy, ← Complex.ofReal_cos, ← Complex.ofReal_sin]
  constructor
  · rintro rfl
    rw [Complex.zero_re] at hx
    rw [Complex.zero_im] at hy
    have hcos := (mul_eq_zero.mp hx.symm).resolve_left hr.ne'
    have hsin := (mul_eq_zero.mp hy.symm).resolve_left hr.ne'
    have hone := Real.sin_sq_add_cos_sq θ
    rw [hcos, hsin] at hone
    norm_num at hone
  · rw [hz, Complex.arg_mul_cos_add_sin_mul_I hr hθ]

/-- The angle that `atan2` gives is the one of the heading. -/
theorem atan2_heading {x y : XReal} {θ : ℝ} (h : DataArith.atan2 y x = .fin θ) :
    heading x y ≠ 0 ∧ ∃ k : ℤ, θ = (heading x y).arg + k * (2 * Real.pi) := by
  have hpi := Real.pi_pos
  have h2 : (0 : ℝ) < √2 := by positivity
  have hroot : √2 * (√2 / 2) = 1 := by
    rw [← mul_div_assoc, Real.mul_self_sqrt (by norm_num)]
    norm_num
  have hpolar : ∀ {r : ℝ} (θ0 : ℝ) (k : ℤ), 0 < r → θ0 ∈ Set.Ioc (-Real.pi) Real.pi →
      (heading x y).re = r * Real.cos θ0 → (heading x y).im = r * Real.sin θ0 →
      θ = θ0 + k * (2 * Real.pi) →
      heading x y ≠ 0 ∧ ∃ k : ℤ, θ = (heading x y).arg + k * (2 * Real.pi) := by
    intro r θ0 k hr hθ0 hre him hk
    obtain ⟨hne, harg⟩ := arg_of_polar hr hθ0 hre him
    exact ⟨hne, k, by rw [harg, hk]⟩
  have h34 : 3 * Real.pi / 4 = Real.pi - Real.pi / 4 := by ring
  change Lib.XReal.atan2 y x = _ at h
  cases y <;> cases x <;> simp only [Lib.XReal.atan2, reduceCtorEq, Lib.XReal.fin.injEq] at h
  case fin.fin y x =>
    have hvec : heading (.fin x) (.fin y) = if x = 0 ∧ y = 0 then 1 else ⟨x, y⟩ := rfl
    rw [hvec]
    by_cases h0 : x = 0 ∧ y = 0
    · obtain ⟨rfl, rfl⟩ := h0
      refine ⟨by simp, 0, ?_⟩
      rw [if_pos ⟨rfl, rfl⟩, ← h, Complex.arg_one]
      exact Complex.arg_zero.trans (by simp)
    · rw [if_neg h0]
      refine ⟨fun hz => h0 ⟨congrArg Complex.re hz, congrArg Complex.im hz⟩, 0, ?_⟩
      rw [← h]
      simp
  case fin.posInf =>
    refine hpolar 0 0 one_pos ⟨by linarith, by linarith⟩ ?_ ?_ ?_ <;>
      simp [heading, infSign, ← h]
  case fin.negInf y =>
    have hre : (heading .negInf (.fin y)).re = 1 * Real.cos Real.pi := by simp [heading, infSign]
    have him : (heading .negInf (.fin y)).im = 1 * Real.sin Real.pi := by simp [heading, infSign]
    have hmem : Real.pi ∈ Set.Ioc (-Real.pi) Real.pi := ⟨by linarith, le_rfl⟩
    split at h
    · cases h
      exact hpolar Real.pi (-1) one_pos hmem hre him (by push_cast; ring)
    · cases h
      exact hpolar Real.pi 0 one_pos hmem hre him (by push_cast; ring)
  case posInf.fin =>
    refine hpolar (Real.pi / 2) 0 one_pos ⟨by linarith, by linarith⟩ ?_ ?_ ?_ <;>
      simp [heading, infSign, ← h]
  case negInf.fin =>
    refine hpolar (-(Real.pi / 2)) 0 one_pos ⟨by linarith, by linarith⟩ ?_ ?_ ?_ <;>
      simp [heading, infSign, ← h]
  case posInf.posInf =>
    refine hpolar (Real.pi / 4) 0 h2 ⟨by linarith, by linarith⟩ ?_ ?_ ?_ <;>
      simp [heading, infSign, ← h, hroot]
  case posInf.negInf =>
    refine hpolar (3 * Real.pi / 4) 0 h2 ⟨by linarith, by linarith⟩ ?_ ?_ ?_ <;>
      simp [heading, infSign, ← h, h34, hroot]
  case negInf.posInf =>
    refine hpolar (-(Real.pi / 4)) 0 h2 ⟨by linarith, by linarith⟩ ?_ ?_ ?_ <;>
      simp [heading, infSign, ← h, hroot]
  case negInf.negInf =>
    refine hpolar (-(3 * Real.pi / 4)) 0 h2 ⟨by linarith, by linarith⟩ ?_ ?_ ?_ <;>
      simp [heading, infSign, ← h, h34, hroot]

/-- There is no turn from a vector to a point exactly where that lies on its ray. -/
theorem turn_eq_zero_iff_ray {u : ℂ} (hu : u ≠ 0) {x y : XReal} {θ : ℝ}
    (h : DataArith.atan2 y x = .fin θ) :
    turn u.arg θ = 0 ↔ ∃ t : ℝ, 0 < t ∧ heading x y = t * u := by
  obtain ⟨hv, k, hk⟩ := atan2_heading h
  obtain ⟨hlow, hhigh⟩ := atan2_mem h
  have hsame : (∃ n : ℤ, θ - u.arg = n * (2 * Real.pi)) ↔
      ∃ n : ℤ, (heading x y).arg - u.arg = n * (2 * Real.pi) := by
    constructor
    · rintro ⟨n, hn⟩
      exact ⟨n - k, by push_cast; linarith⟩
    · rintro ⟨n, hn⟩
      exact ⟨n + k, by push_cast; linarith⟩
  have hone := Complex.neg_pi_lt_arg u
  have htwo := Complex.arg_le_pi u
  rw [turn_eq_zero_iff hone htwo hlow hhigh, hsame, ← turn_eq_zero_iff hone htwo
    (Complex.neg_pi_lt_arg _).le (Complex.arg_le_pi _), turn_eq_zero htwo (Complex.neg_pi_lt_arg _)]
  constructor
  · intro harg
    refine ⟨‖heading x y‖ / ‖u‖, by positivity, ?_⟩
    rw [Complex.ofReal_div]
    exact ((Complex.arg_eq_arg_iff hu hv).mp harg.symm).symm
  · rintro ⟨t, ht, he⟩
    rw [he, Complex.arg_real_mul u ht]

end Headings

/-! ## Directions of turn -/

section Sweeps

variable {m : Machine XReal} {prev : Option (Block XReal)} {line : Line} {b c : Block XReal}
  {r : ℝ}

/-- The sweep is a turn to the left on a counterclockwise arc and to the right on a clockwise
one, of at most a full circle. -/
structure Directed (c : Block XReal) : Prop where
  ccwa : c.type = .ccwa → ∃ v, c.dtheta = .fin v ∧ 0 < v ∧ v ≤ 2 * Real.pi
  cwa : c.type = .cwa → ∃ v, c.dtheta = .fin v ∧ -(2 * Real.pi) ≤ v ∧ v < 0

/-- The points are one in the plane. -/
def SamePlace (p0 p : Point XReal) : Prop :=
  ∃ x y z0 z, p0 = .ofCoords x y z0 ∧ p = .ofCoords x y z

/-- The inputs of an arc that turns: the radius fits the chord; or the start is a pair of
numbers, the target has no NaN, and on a counterclockwise arc it does not lie on the ray from
the centre through the start. -/
inductive Turning (type : BlockType) (R I J : XReal) (p0 p : Point XReal) : Prop
  | radius : DataArith.nonzero R = true → FitsRadius R p0 p → Turning type R I J p0 p
  | center {x0 y0 i j : ℝ} {z0 x y z : XReal} : ¬ DataArith.nonzero R = true → I = .fin i →
      J = .fin j → p0 = .ofCoords (.fin x0) (.fin y0) z0 → p = .ofCoords x y z → x ≠ .nan →
      y ≠ .nan → (type = .ccwa → ¬ ∃ t : ℝ, 0 < t ∧
        heading (x - .fin (x0 + i)) (y - .fin (y0 + j)) = t * ⟨-i, -j⟩) →
      Turning type R I J p0 p

/-- A sweep that is a number leaves its side only by being none. -/
theorem directed_iff {θ0 θ : ℝ} (h0 : -Real.pi < θ0) (h0' : θ0 ≤ Real.pi)
    (hθ : -Real.pi ≤ θ) (hθ' : θ ≤ Real.pi) (hd : c.dtheta = .fin (sweepAngle c.type θ0 θ)) :
    Directed c ↔ (c.type = .ccwa → turn θ0 θ ≠ 0) := by
  have hlt := turn_lt h0 hθ'
  have hnn := turn_nonneg h0' hθ
  constructor
  · intro h hty
    obtain ⟨v, hv, hpos, -⟩ := h.ccwa hty
    rw [hd, hty, sweepAngle, if_neg (by decide)] at hv
    cases hv
    exact hpos.ne'
  · intro hne
    refine ⟨fun hty => ⟨_, hd, ?_⟩, fun hty => ⟨_, hd, ?_⟩⟩
    · rw [hty, sweepAngle, if_neg (by decide)]
      exact ⟨lt_of_le_of_ne hnn (hne hty).symm, hlt.le⟩
    · rw [hty, sweepAngle, if_pos rfl]
      constructor <;> linarith

theorem Directed.dtheta_fin (h : Directed c) (ha : c.type.IsArc) : ∃ v, c.dtheta = .fin v := by
  rcases ha with hty | hty
  · obtain ⟨v, hv, -⟩ := h.cwa hty
    exact ⟨v, hv⟩
  · obtain ⟨v, hv, -⟩ := h.ccwa hty
    exact ⟨v, hv⟩

/-- An accepted arc with a radius turns exactly where the radius fits its chord. -/
theorem directed_radius_iff (hb : Block.Constructed line prev b)
    (h : (Block.parse m prev).run b = .ok () c) (ha : c.type.IsArc)
    (hnz : DataArith.nonzero (ownWord 'R' line : XReal) = true) :
    Directed c ↔ FitsRadius (ownWord 'R' line) (Block.origin m prev) c.target := by
  constructor
  · intro hdir
    by_contra hno
    obtain ⟨-, -, -, hnan, -⟩ := undefined_of_parse hb h ha hnz hno
    obtain ⟨v, hv⟩ := hdir.dtheta_fin ha
    cases hnan.symm.trans hv
  · intro hfits
    obtain ⟨v, _, _, z0, _, _, z, hR, h0, ht, x0, y0, x, y, rfl, rfl, rfl, rfl, hd, hle⟩ := hfits
    rw [hR, nonzero_def] at hnz
    have harc := hasArc_of_parse hb h (.radius hnz hd hle ha hR h0 ht)
    have hne := (Arc.ofRadius c.type hnz hd hle).dθ_ne
    refine (directed_iff (Complex.neg_pi_lt_arg _) (Complex.arg_le_pi _)
      (Complex.neg_pi_lt_arg _).le (Complex.arg_le_pi _) harc.dtheta).mpr fun hty => ?_
    refine (sweepAngle_ne_zero (Complex.neg_pi_lt_arg _) (Complex.arg_le_pi _)).mp hne ?_
    rw [hty]
    decide

/-- Back at its start an arc has turned by a full circle, or not at all. -/
theorem CenterArc.closed {u v i j : ℝ} (h : CenterArc c (.fin u) (.fin v) (.fin u) (.fin v) i j) :
    c.dtheta = .fin (if c.type = .cwa then -(2 * Real.pi) else 0) := by
  have hturn : turn (Complex.arg ⟨-i, -j⟩) (Complex.arg ⟨-i, -j⟩) = 0 :=
    (turn_eq_zero (Complex.arg_le_pi _) (Complex.neg_pi_lt_arg _)).mpr rfl
  have hx : u - (u + i) = -i := by ring
  have hy : v - (v + j) = -j := by ring
  rw [h.dtheta, h.theta0, add_def, add_def, sub_def, sub_def, atan2_def, hx, hy, sweep_fin,
    sweepAngle, hturn, sub_zero]

/-- An arc back to its start that turns at all makes a full circle. -/
theorem CenterArc.full_turn {u v i j : ℝ}
    (h : CenterArc c (.fin u) (.fin v) (.fin u) (.fin v) i j) (ha : c.type.IsArc)
    (hdir : Directed c) : c.length = .fin (2 * Real.pi * √(i ^ 2 + j ^ 2)) := by
  have hback := h.closed
  rcases ha with hty | hty
  · rw [h.length, hback, if_pos hty, mul_def, fabs_def, abs_mul, abs_of_nonneg (Real.sqrt_nonneg _),
      abs_neg, abs_of_pos Real.two_pi_pos]
  · obtain ⟨w, hw, hpos, -⟩ := hdir.ccwa hty
    rw [if_neg (by rw [hty]; decide)] at hback
    cases hback.symm.trans hw
    exact absurd hpos (lt_irrefl 0)

/-- An accepted arc around a centre turns exactly where its target does not lie on the ray of
its start. -/
theorem directed_center_iff (hb : Block.Constructed line prev b)
    (h : (Block.parse m prev).run b = .ok () c) (ha : c.type.IsArc)
    (hR : (ownWord 'R' line : XReal) = .fin 0) (hr : c.r = .fin r) (hr0 : 0 < r) :
    Directed c ∧ (SamePlace (Block.origin m prev) c.target → c.length = .fin (2 * Real.pi * r)) ↔
      Turning c.type (ownWord 'R' line) (ownWord 'I' line) (ownWord 'J' line)
        (Block.origin m prev) c.target := by
  obtain ⟨x0, y0, z0, x, y, z, i, j, h0, ht, hI, hJ, harc⟩ := exists_centerArc hb h ha hR
  have hri : √(i ^ 2 + j ^ 2) = r := by
    have hri := harc.r.symm.trans hr
    injection hri
  have hu : (⟨-i, -j⟩ : ℂ) ≠ 0 := by
    intro hz
    have hi : -i = 0 := congrArg Complex.re hz
    have hj : -j = 0 := congrArg Complex.im hz
    rw [neg_eq_zero.mp hi, neg_eq_zero.mp hj] at hri
    simp at hri
    exact hr0.ne hri
  rcases harc.sweep_cases with ⟨u, v, θ, rfl, rfl, hx, hy, -, hθ, hdθ⟩ | ⟨hnan, hno⟩
  · obtain ⟨hlow, hhigh⟩ := atan2_mem hθ
    have hdir := directed_iff (Complex.neg_pi_lt_arg _) (Complex.arg_le_pi _) hlow hhigh hdθ
    have hray := turn_eq_zero_iff_ray hu hθ
    constructor
    · rintro ⟨hd, -⟩
      exact .center (by rw [hR]; simp) hI hJ h0 ht hx hy fun hty hon =>
        hdir.mp hd hty (hray.mpr hon)
    · intro hturn
      cases hturn with
      | radius hnz => simp [hR] at hnz
      | center _ hI' hJ' h0' ht' _ _ hoff =>
        cases hI.symm.trans hI'
        cases hJ.symm.trans hJ'
        cases h0.symm.trans h0'
        cases ht.symm.trans ht'
        have hne : c.type = .ccwa → turn (Complex.arg ⟨-i, -j⟩) θ ≠ 0 := fun hty hon =>
          hoff hty (hray.mp hon)
        refine ⟨hdir.mpr hne, fun hsame => ?_⟩
        obtain ⟨x', y', _, _, hp0, hp⟩ := hsame
        cases h0.symm.trans hp0
        cases ht.symm.trans hp
        rw [harc.full_turn ha (hdir.mpr hne), hri]
  · constructor
    · rintro ⟨hd, -⟩
      obtain ⟨w, hw⟩ := hd.dtheta_fin ha
      cases hnan.symm.trans hw
    · intro hturn
      cases hturn with
      | radius hnz => simp [hR] at hnz
      | center _ _ _ h0' ht' hx hy _ =>
        cases h0.symm.trans h0'
        cases ht.symm.trans ht'
        exact absurd ⟨⟨_, rfl⟩, ⟨_, rfl⟩, hx, hy⟩ hno

/-- An accepted arc sweeps to its side, and back to its start in a full circle, exactly where
its inputs turn: a counterclockwise arc back to its start does not move. -/
theorem sweep_directed_iff (hb : Block.Constructed line prev b)
    (h : (Block.parse m prev).run b = .ok () c) (ha : c.type.IsArc) (hr : c.r = .fin r)
    (hr0 : 0 < r) :
    Directed c ∧ (¬ DataArith.nonzero (ownWord 'R' line : XReal) = true →
      SamePlace (Block.origin m prev) c.target → c.length = .fin (2 * Real.pi * r)) ↔
      Turning (typeCode line) (ownWord 'R' line) (ownWord 'I' line) (ownWord 'J' line)
        (Block.origin m prev) (ownTarget m prev line) := by
  rw [← Block.type_of_parse hb h, ← target_of_parse hb h]
  by_cases hnz : DataArith.nonzero (ownWord 'R' line : XReal) = true
  · rw [directed_radius_iff hb h ha hnz]
    constructor
    · rintro ⟨hfits, -⟩
      exact .radius hnz hfits
    · intro hturn
      cases hturn with
      | radius _ hfits => exact ⟨hfits, fun hno => absurd hnz hno⟩
      | center hno => exact absurd hnz hno
  · rw [← directed_center_iff hb h ha (eq_zero_of_nonzero hnz) hr hr0]
    exact and_congr_right fun _ => ⟨fun hall => hall hnz, fun hlen _ => hlen⟩

theorem arcLine_complement : ArcLine Block.complementLine .ccwa 1 1 := by
  constructor <;> decide +kernel

/-- Three quarters of a turn to the left. -/
theorem sweep_directed_iff_complement : ∃ c : Block XReal,
    (Block.parse .default none).run (Block.ofLine 0 Block.complementLine) = .ok () c ∧
      c.type = .ccwa ∧ Directed c := by
  have hl := arcLine_complement
  have hR : ∀ t ∈ commands Block.complementLine, letter t ≠ 'R' := by decide +kernel
  obtain ⟨hR0, hI, hJ⟩ := Block.turnWords_complement.own
  obtain ⟨c, h, hty, htgt⟩ := hl.exists_center (.first 0) origin_default rfl hR hI hJ
  have hr : c.r = .fin 1 := by
    obtain ⟨_, _, _, _, _, _, i, j, -, -, hI', hJ', harc⟩ :=
      exists_centerArc (.first 0) h (.inr hty) hR0
    cases hI.symm.trans hI'
    cases hJ.symm.trans hJ'
    rw [harc.r]
    simp
  refine ⟨c, h, hty, ((sweep_directed_iff (.first 0) h (.inr hty) hr one_pos).mpr ?_).1⟩
  refine .center (by rw [hR0]; simp) hI hJ origin_default (hl.target origin_default) (by simp)
    (by simp) fun _ => ?_
  rintro ⟨t, ht, he⟩
  rw [sub_def, sub_def, heading, if_neg (by simp)] at he
  have hre := congrArg Complex.re he
  simp at hre
  exact ht.ne' hre

/-- Around `(1, 0)` back to the start. -/
def backLine : Line := "G3 X0 Y0 I1 J0 F100".toList

theorem arcLine_back : ArcLine backLine .ccwa 0 0 := by
  constructor <;> decide +kernel

/-- A counterclockwise full circle is accepted as an arc without a length. -/
theorem accepts_empty_turn : ∃ c : Block XReal,
    (Block.parse .default none).run (Block.ofLine 0 backLine) = .ok () c ∧ c.type = .ccwa ∧
      ¬ DataArith.nonzero (ownWord 'R' backLine : XReal) = true ∧ c.r = .fin 1 ∧
      SamePlace (Block.origin .default none) c.target ∧ c.dtheta = .fin 0 ∧ c.length = .fin 0 ∧
      ¬ Directed c := by
  have hR : ∀ t ∈ commands backLine, letter t ≠ 'R' := by decide +kernel
  have hR0 := ownWord_absent hR
  have hI := ownWord_finite backLine 'I' 1 (by decide +kernel)
  have hJ := ownWord_finite backLine 'J' 0 (by decide +kernel)
  obtain ⟨c, h, hty, htgt⟩ := arcLine_back.exists_center (.first 0) origin_default rfl hR hI hJ
  rw [Rat.cast_zero] at htgt
  obtain ⟨_, _, _, _, _, _, i, j, h0', ht', hI', hJ', harc⟩ :=
    exists_centerArc (.first 0) h (.inr hty) hR0
  cases origin_default.symm.trans h0'
  cases htgt.symm.trans ht'
  cases hI.symm.trans hI'
  cases hJ.symm.trans hJ'
  have hd := harc.closed
  rw [if_neg (by rw [hty]; decide)] at hd
  refine ⟨c, h, hty, by rw [hR0]; simp, ?_, ⟨_, _, _, _, origin_default, htgt⟩, hd, ?_,
    fun hdir => ?_⟩
  · rw [harc.r]
    simp
  · rw [harc.length, hd]
    simp
  · obtain ⟨v, hv, hpos, -⟩ := hdir.ccwa hty
    cases hd.symm.trans hv
    exact absurd hpos (lt_irrefl 0)

end Sweeps

end

end Cncpp
