import Cncpp.Lib.Curve
import Cncpp.Profiles

/-! How fast the tool moves along an interpolated block: the distance between the
setpoints at two times, against the time between them. -/

namespace Cncpp

open DataArith Lib XReal

noncomputable section

/-! ## Setpoints -/

section Setpoints

variable {m : Machine XReal} {prev : Option (Block XReal)} {c : Block XReal}
  {x0 y0 z0 dx dy dz : ℝ}

theorem interpolate_line (hpar : c.parsed = true) (hma : c.hasMachine = true)
    (ht : c.type = .line) (h0 : Block.origin m prev = .ofCoords (.fin x0) (.fin y0) (.fin z0))
    (hd : c.delta = .ofCoords (.fin dx) (.fin dy) (.fin dz)) (u : ℝ) :
    c.interpolate m prev (.fin u) =
      .ok (.ofCoords (.fin (x0 + dx * u)) (.fin (y0 + dy * u)) (.fin (z0 + dz * u))) := by
  have hs : c.startPoint m prev = .ok (.ofCoords (.fin x0) (.fin y0) (.fin z0)) :=
    Block.startPoint_eq_ok.mpr ⟨hma, h0⟩
  simp only [Block.interpolate, hpar, Bool.not_true, Bool.false_eq_true, ↓reduceIte, hs, ht, hd,
    Point.getX_ofCoords, Point.getY_ofCoords, Point.getZ_ofCoords, bind_pure_comp, Except.map_ok,
    mul_def, pure_bind]
  rfl

/-- The points of an arc, whatever its centre and its angles are. -/
theorem interpolate_of_center {xc yc x0 y0 z0 dx dy dz : XReal} (hpar : c.parsed = true)
    (hma : c.hasMachine = true) (ht : c.type.IsArc) (h0 : Block.origin m prev = .ofCoords x0 y0 z0)
    (hd : c.delta = .ofCoords dx dy dz) (hx : c.center.x = some xc) (hy : c.center.y = some yc)
    (u : XReal) : c.interpolate m prev u =
      .ok (.ofCoords (xc + c.r * DataArith.cos (c.theta0 + c.dtheta * u))
        (yc + c.r * DataArith.sin (c.theta0 + c.dtheta * u)) (z0 + dz * u)) := by
  have hs : c.startPoint m prev = .ok (.ofCoords x0 y0 z0) :=
    Block.startPoint_eq_ok.mpr ⟨hma, h0⟩
  have hl : c.type ≠ .line := by rcases ht with ht | ht <;> rw [ht] <;> decide
  have hx : c.center.getX = .ok xc := Point.value_eq_ok.mpr hx
  have hy : c.center.getY = .ok yc := Point.value_eq_ok.mpr hy
  have ht : c.type = .cwa ∨ c.type = .ccwa := ht
  simp only [Block.interpolate, hpar, Bool.not_true, Bool.false_eq_true, ↓reduceIte, hs, hl, ht,
    hx, hy, hd, Point.getZ_ofCoords, bind_pure_comp, Except.map_ok, pure_bind]
  rfl

theorem interpolate_arc {a : Arc} (hpar : c.parsed = true) (hma : c.hasMachine = true)
    (ht : c.type.IsArc) (h0 : Block.origin m prev = .ofCoords (.fin x0) (.fin y0) (.fin z0))
    (hd : c.delta = .ofCoords (.fin dx) (.fin dy) (.fin dz)) (ha : HasArc c a) (u : ℝ) :
    c.interpolate m prev (.fin u) =
      .ok (.ofCoords (.fin (a.xc + a.r * Real.cos (a.θ0 + a.dθ * u)))
        (.fin (a.yc + a.r * Real.sin (a.θ0 + a.dθ * u))) (.fin (z0 + dz * u))) := by
  rw [interpolate_of_center hpar hma ht h0 hd ha.xc ha.yc, ha.r, ha.theta0, ha.dtheta]
  simp only [mul_def, add_def, cos_def, sin_def]

/-- The setpoint of a block at a time. -/
def Setpoint (m : Machine XReal) (prev : Option (Block XReal)) (c : Block XReal) (t : ℝ)
    (P : Point XReal) : Prop :=
  ∃ s, c.interpolateAt m prev (.fin t) = .ok (P, s)

/-- The setpoint never moves faster than `F` mm/min. -/
def Paced (m : Machine XReal) (prev : Option (Block XReal)) (c : Block XReal) (F : ℝ) : Prop :=
  ∀ s t, 0 ≤ s → s ≤ t → ∃ P Q D d, Setpoint m prev c s P ∧ Setpoint m prev c t Q ∧
    Q.delta P = .ok D ∧ D.length = .ok (.fin d) ∧ d ≤ F / 60 * (t - s)

theorem paced_iff_of_setpoint {f g h : ℝ → ℝ} {F : ℝ}
    (hset : ∀ t, Setpoint m prev c t (.ofCoords (.fin (f t)) (.fin (g t)) (.fin (h t)))) :
    Paced m prev c F ↔ ∀ s t, 0 ≤ s → s ≤ t →
      √((f t - f s) ^ 2 + (g t - g s) ^ 2 + (h t - h s) ^ 2) ≤ F / 60 * (t - s) := by
  constructor
  · intro hp s t hs hst
    obtain ⟨P, Q, D, d, ⟨_, hP⟩, ⟨_, hQ⟩, hD, hd, hle⟩ := hp s t hs hst
    obtain ⟨_, hP'⟩ := hset s
    obtain ⟨_, hQ'⟩ := hset t
    cases hP.symm.trans hP'
    cases hQ.symm.trans hQ'
    rw [Point.delta_ofCoords] at hD
    cases hD
    rw [Point.length_ofCoords, sub_def, sub_def, sub_def, hypot3_def] at hd
    cases hd
    exact hle
  · intro hle s t hs hst
    refine ⟨_, _, _, _, hset s, hset t, Point.delta_ofCoords .., ?_, hle s t hs hst⟩
    rw [Point.length_ofCoords, sub_def, sub_def, sub_def, hypot3_def]

/-- The progress of a motion law. -/
def progress (T : Trapezoid) (t : ℝ) : ℝ := T.dist t / T.length

theorem lambda_ofLaw (T : Trapezoid) (dt t : ℝ) :
    ((ofLaw T dt).lambda (.fin t)).lambda = .fin (progress T t) := by
  rw [Profile.lambda, phase_ofLaw]
  exact div_of_ne T.length_pos.ne'

/-- The setpoint at a time is the point of the path at the progress of that time. -/
theorem interpolateAt_of_lambda {t u : XReal} {P : Point XReal} (hpar : c.parsed = true)
    (hlam : (c.profile.lambda t).lambda = u) (hP : c.interpolate m prev u = .ok P) :
    c.interpolateAt m prev t = .ok (P, c.profile.lambda t) := by
  rw [Block.interpolateAt, Block.lambda, if_pos hpar]
  show (do let p ← c.interpolate m prev (c.profile.lambda t).lambda
           pure (p, c.profile.lambda t) : Except _ _) = _
  rw [hlam, hP]
  rfl

theorem setpoint_of_law {T : Trapezoid} {dt : ℝ} {P : Point XReal} (hpar : c.parsed = true)
    (hprof : c.profile = ofLaw T dt) {t : ℝ}
    (hP : c.interpolate m prev (.fin (progress T t)) = .ok P) : Setpoint m prev c t P :=
  ⟨_, interpolateAt_of_lambda hpar (by rw [hprof, lambda_ofLaw]) hP⟩

end Setpoints

/-! ## Lines and arcs -/

section Paths

variable (T : Trapezoid) {s t : ℝ}

theorem progress_sub_mem (h : s ≤ t) : 0 ≤ progress T t - progress T s ∧
    T.length * (progress T t - progress T s) ≤ T.v * (t - s) := by
  have hl := T.length_pos
  obtain ⟨h0, h1⟩ := T.dist_sub_mem h
  have he : progress T t - progress T s = (T.dist t - T.dist s) / T.length := by
    rw [progress, progress, sub_div]
  rw [he, mul_div_cancel₀ _ hl.ne']
  exact ⟨div_nonneg h0 hl.le, h1⟩

/-- A straight line as long as its law is walked at most at the speed of the law. -/
theorem line_paced {x0 y0 z0 dx dy dz : ℝ} (hl : T.length = √(dx ^ 2 + dy ^ 2 + dz ^ 2))
    (h : s ≤ t) :
    √((x0 + dx * progress T t - (x0 + dx * progress T s)) ^ 2 +
      (y0 + dy * progress T t - (y0 + dy * progress T s)) ^ 2 +
      (z0 + dz * progress T t - (z0 + dz * progress T s)) ^ 2) ≤ T.v * (t - s) := by
  obtain ⟨h0, h1⟩ := progress_sub_mem T h
  have hsq : (x0 + dx * progress T t - (x0 + dx * progress T s)) ^ 2 +
      (y0 + dy * progress T t - (y0 + dy * progress T s)) ^ 2 +
      (z0 + dz * progress T t - (z0 + dz * progress T s)) ^ 2 =
      (dx ^ 2 + dy ^ 2 + dz ^ 2) * (progress T t - progress T s) ^ 2 := by ring
  rw [hsq, Real.sqrt_mul (by positivity), Real.sqrt_sq h0, ← hl]
  exact h1

theorem helixSq_comm (r θ θ' z z' : ℝ) : helixSq r θ θ' z z' = helixSq r θ' θ z' z := by
  unfold helixSq
  ring

/-- Along an arc that rises by `dz` the tool keeps to the speed `k` exactly when the
law does, measured along the helix. -/
theorem arc_paced_iff (θ0 z0 : ℝ) {r dθ dz k : ℝ} (hl : T.length = |dθ| * r) (hk : 0 ≤ k) :
    (∀ s t, 0 ≤ s → s ≤ t →
      √(helixSq r (θ0 + dθ * progress T s) (θ0 + dθ * progress T t) (z0 + dz * progress T s)
        (z0 + dz * progress T t)) ≤ k * (t - s)) ↔
      T.v * √(T.length ^ 2 + dz ^ 2) ≤ k * T.length := by
  have hL := T.length_pos
  have hv := T.v_pos
  have hsq : (r * dθ) ^ 2 = T.length ^ 2 := by rw [hl, mul_pow, mul_pow, sq_abs]; ring
  constructor
  · -- at the end of the first phase the speed is the one of the middle phase
    intro hall
    have hu : HasDerivWithinAt (progress T) (T.v / T.length) (Set.Icc 0 T.t1) T.t1 :=
      T.hasDerivWithinAt_dist.div_const T.length
    have hne : (nhdsWithin T.t1 (Set.Icc 0 T.t1 \ {T.t1})).NeBot := by
      rw [Set.Icc_sdiff_right]
      exact right_nhdsWithin_Ico_neBot T.t1_pos
    have hspeed := helix_speed_le r θ0 dθ z0 dz k hu hne (by
        intro t ht
        have h := (Real.sqrt_le_left (mul_nonneg hk (sub_nonneg.mpr ht.2))).mp
          (hall t T.t1 ht.1 ht.2)
        rw [helixSq_comm] at h
        refine h.trans_eq ?_
        ring)
    rw [hsq, div_pow, ← mul_div_assoc, div_le_iff₀ (by positivity)] at hspeed
    refine abs_le_of_sq_le_sq' ?_ (by positivity) |>.2
    rw [mul_pow, mul_pow, Real.sq_sqrt (by positivity)]
    linarith
  · intro hle s t hs hst
    obtain ⟨h0, h1⟩ := progress_sub_mem T hst
    have hchord := helixSq_le r θ0 dθ z0 dz (progress T s) (progress T t)
    rw [hsq] at hchord
    refine (Real.sqrt_le_sqrt hchord).trans ?_
    rw [Real.sqrt_mul (by positivity), Real.sqrt_sq h0, ← mul_le_mul_iff_right₀ hL]
    calc T.length * (√(T.length ^ 2 + dz ^ 2) * (progress T t - progress T s))
        = √(T.length ^ 2 + dz ^ 2) * (T.length * (progress T t - progress T s)) := by ring
      _ ≤ √(T.length ^ 2 + dz ^ 2) * (T.v * (t - s)) :=
        mul_le_mul_of_nonneg_left h1 (Real.sqrt_nonneg _)
      _ = T.v * √(T.length ^ 2 + dz ^ 2) * (t - s) := by ring
      _ ≤ k * T.length * (t - s) := mul_le_mul_of_nonneg_right hle (by linarith)
      _ = T.length * (k * (t - s)) := by ring

end Paths

/-! ## Parsed blocks -/

section Parsed

variable {m : Machine XReal} {prev : Option (Block XReal)} {b c : Block XReal}
  {A tq l F r x0 y0 z0 x y z : ℝ}

/-- A line is as long as its profile says. -/
theorem paced_line (h : (Block.parse m prev).run b = .ok () c) (ht : c.type = .line)
    (hA : m.A = .fin A) (hA0 : 0 < A) (htq : m.tq = .fin tq) (htq0 : 0 < tq)
    (hl : c.length = .fin l) (hl0 : 0 < l) (hF : c.feedrate = .fin F) (hF0 : 0 < F)
    (h0 : Block.origin m prev = .ofCoords (.fin x0) (.fin y0) (.fin z0))
    (h1 : c.target = .ofCoords (.fin x) (.fin y) (.fin z)) : Paced m prev c F := by
  obtain ⟨x0', y0', z0', x', y', z', h0', h1', hd, hma, hlen⟩ := Block.points_of_parse h
  cases h0.symm.trans h0'
  cases h1.symm.trans h1'
  rw [sub_def, sub_def, sub_def] at hd hlen
  obtain ⟨hf, hpar, -, hprof⟩ := law_of_parse (r := 0) h (.inl ht) hA hA0 htq htq0 hl hl0 hF hF0
    fun hne => absurd ht hne
  set G : Leg := ⟨l, A, tq, hl0, hA0, htq0⟩
  set T := G.law (effectiveFeed c.type A F 0 / 60) hf
  have hTl : T.length = l := G.law_length hf
  have hlen := hlen (by rw [ht]; decide)
  rw [hl, hypot3_def] at hlen
  injection hlen with hlen
  have hv : T.v ≤ F / 60 := (G.law_v_le hf).trans (by linarith [effectiveFeed_le c.type A F 0])
  refine (paced_iff_of_setpoint fun t =>
    setpoint_of_law hpar hprof (interpolate_line hpar hma ht h0 hd _)).mpr fun s t _ hst => ?_
  exact (line_paced T (hTl.trans hlen) hst).trans (mul_le_mul_of_nonneg_right hv (by linarith))

/-- The setpoint of an arc moves at most at its feedrate exactly when the speed of its law,
measured along the helix of its path, is within the feedrate. -/
theorem paced_arc_iff (h : (Block.parse m prev).run b = .ok () c) (ht : c.type.IsArc)
    (hA : m.A = .fin A) (hA0 : 0 < A) (htq : m.tq = .fin tq) (htq0 : 0 < tq)
    (hl : c.length = .fin l) (hl0 : 0 < l) (hF : c.feedrate = .fin F) (hF0 : 0 < F)
    (hr : c.r = .fin r) (h0 : Block.origin m prev = .ofCoords (.fin x0) (.fin y0) (.fin z0))
    (h1 : c.target = .ofCoords (.fin x) (.fin y) (.fin z)) :
    Paced m prev c F ↔
      Leg.peak ⟨l, A, tq, hl0, hA0, htq0⟩ (.fin (effectiveFeed c.type A F r / 60)) *
        √(l ^ 2 + (z - z0) ^ 2) ≤ F / 60 * l := by
  obtain ⟨x0', y0', z0', x', y', z', h0', h1', hd, hma, -⟩ := Block.points_of_parse h
  cases h0.symm.trans h0'
  cases h1.symm.trans h1'
  rw [sub_def, sub_def, sub_def] at hd
  obtain ⟨a, ha⟩ := exists_hasArc h ht h0 h1 hl hl0
  obtain rfl : a.r = r := by
    have hra := ha.r.symm.trans hr
    injection hra
  obtain ⟨hf, hpar, -, hprof⟩ := law_of_parse h (.inr ht) hA hA0 htq htq0 hl hl0 hF hF0
    fun _ => ⟨hr, a.r_pos⟩
  set G : Leg := ⟨l, A, tq, hl0, hA0, htq0⟩
  set T := G.law (effectiveFeed c.type A F a.r / 60) hf
  have hTl : T.length = l := G.law_length hf
  have hpeak : G.peak (.fin (effectiveFeed c.type A F a.r / 60)) = T.v := by
    rw [← G.lawOf_v, Leg.lawOf, dif_pos hf]
  have hal : T.length = |a.dθ| * a.r := by
    have hla := ha.length.symm.trans hl
    injection hla with hla
    rw [hTl, ← hla]
    rfl
  have hset := fun t => setpoint_of_law (t := t) hpar hprof
    (interpolate_arc hpar hma ht h0 hd ha (progress T t))
  rw [hpeak, paced_iff_of_setpoint hset, ← hTl, ← arc_paced_iff T a.θ0 z0 hal (by positivity)]
  have hsq : ∀ s t, (a.xc + a.r * Real.cos (a.θ0 + a.dθ * progress T t) -
      (a.xc + a.r * Real.cos (a.θ0 + a.dθ * progress T s))) ^ 2 +
      (a.yc + a.r * Real.sin (a.θ0 + a.dθ * progress T t) -
      (a.yc + a.r * Real.sin (a.θ0 + a.dθ * progress T s))) ^ 2 +
      (z0 + (z - z0) * progress T t - (z0 + (z - z0) * progress T s)) ^ 2 =
      helixSq a.r (a.θ0 + a.dθ * progress T s) (a.θ0 + a.dθ * progress T t)
        (z0 + (z - z0) * progress T s) (z0 + (z - z0) * progress T t) := by
    intro s t
    rw [helixSq]
    ring
  simp only [hsq]

/-- The setpoint of a parsed block moves at most at its feedrate exactly when the
block is a line, or the speed of its law, measured along the helix of its path, is
within the feedrate. -/
theorem paced_iff (h : (Block.parse m prev).run b = .ok () c) (ht : c.type.Interpolated)
    (hA : m.A = .fin A) (hA0 : 0 < A) (htq : m.tq = .fin tq) (htq0 : 0 < tq)
    (hl : c.length = .fin l) (hl0 : 0 < l) (hF : c.feedrate = .fin F) (hF0 : 0 < F)
    (hr : c.type ≠ .line → c.r = .fin r)
    (h0 : Block.origin m prev = .ofCoords (.fin x0) (.fin y0) (.fin z0))
    (h1 : c.target = .ofCoords (.fin x) (.fin y) (.fin z)) :
    Paced m prev c F ↔ c.type = .line ∨
      Leg.peak ⟨l, A, tq, hl0, hA0, htq0⟩ (.fin (effectiveFeed c.type A F r / 60)) *
        √(l ^ 2 + (z - z0) ^ 2) ≤ F / 60 * l := by
  by_cases hline : c.type = .line
  · exact iff_of_true (paced_line h hline hA hA0 htq htq0 hl hl0 hF hF0 h0 h1) (.inl hline)
  · rw [or_iff_right hline]
    exact paced_arc_iff h (ht.resolve_left hline) hA hA0 htq htq0 hl hl0 hF hF0 (hr hline) h0 h1

end Parsed

/-- A line that draws half a turn of radius 5 from the reference point, and rises by `z`. -/
structure HalfTurn (line : Line) (z : ℝ) : Prop where
  words : ∀ t ∈ commands line, IsWord t
  type : typeCode line = .cwa
  radius : lastOf (numeralWord 'R') (commands line) = some (.finite 5)
  feedrate : lastOf (numeralWord 'F') (wordsOf [line]) = some (.finite 100)
  target : modalTarget (Machine.default : Machine XReal) [line] =
    .ofCoords (.fin 10) (.fin 0) (.fin z)

theorem HalfTurn.parsed {line : Line} {z : ℝ} (hline : HalfTurn line z) : ∃ c : Block XReal,
    (Block.parse Machine.default none).run (Block.ofLine 0 line) = .ok () c ∧
      c.type = .cwa ∧ c.feedrate = .fin 100 ∧ c.r = .fin 5 ∧ c.length = .fin (5 * Real.pi) ∧
      c.target = .ofCoords (.fin 10) (.fin 0) (.fin z) := by
  have hb : Block.Constructed line none (Block.ofLine (K := XReal) 0 line) := .first 0
  have hR : (ownWord 'R' line : XReal) = .fin 5 := by
    rw [ownWord, lastOf_dataWord, hline.radius]
    simp [ofNumeral]
  have hty : ((lastOf typeWord (commands line)).getD .noMotion).IsArc := .inl hline.type
  obtain ⟨c, h⟩ := Block.exists_parse_radius (m := Machine.default) hb hline.words
    (by simp) rfl hty (by rw [hR]; simp) (by rw [hR]; simp)
  have hm : ModalState Machine.default ([] ++ [line]) c := Block.modal_of_parse hb rfl h
  have ht : c.type = .cwa := (Block.type_of_parse hb h).trans hline.type
  have htgt := hm.target.trans hline.target
  have hch : chord 0 0 10 0 = 10 := by
    rw [chord, show ((10 : ℝ) - 0) ^ 2 + (0 - 0) ^ 2 = 10 ^ 2 by norm_num]
    exact Real.sqrt_sq (by norm_num)
  have h5 : (5 : ℝ) ≠ 0 := by norm_num
  have hd : 0 < chord 0 0 10 0 := by rw [hch]; norm_num
  have hle : chord 0 0 10 0 ≤ 2 * |(5 : ℝ)| := by rw [hch]; norm_num
  have harc := hasArc_of_parse hb h (.radius h5 hd hle (.inl ht) hR origin_default htgt)
  refine ⟨c, h, ht, ?_, ?_, ?_, htgt⟩
  · rw [hm.feedrate, List.nil_append, modalWord, lastOf_dataWord, hline.feedrate]
    simp [ofNumeral]
  · rw [harc.r]
    simp [Arc.ofRadius]
  · have hcx : centerX .cwa 5 0 0 10 0 = 5 := by simp [centerX]; norm_num
    have hcy : centerY .cwa 5 0 0 10 0 = 0 := by
      rw [centerY, hch]
      norm_num
    have hθ0 : Complex.arg ⟨-5, 0⟩ = Real.pi := Complex.arg_ofReal_of_neg (by norm_num)
    have hθf : Complex.arg ⟨5, 0⟩ = 0 := Complex.arg_ofReal_of_nonneg (by norm_num)
    have hsw : sweepAngle .cwa Real.pi 0 = -Real.pi := by
      have hpi := Real.pi_pos
      rw [sweepAngle, if_pos rfl, turn, if_pos (by linarith)]
      ring
    have hx0 : (0 : ℝ) - 5 = -5 := by norm_num
    have hx1 : (10 : ℝ) - 5 = 5 := by norm_num
    rw [harc.length, Arc.length]
    simp only [Arc.ofRadius, ht, hcx, hcy, hx0, hx1, sub_zero, hθ0, hθf, hsw]
    rw [abs_neg, abs_of_pos Real.pi_pos, abs_of_pos (by norm_num : (0 : ℝ) < 5), mul_comm]

/-- Half a turn in the plane, and one that rises by 100. -/
def flatLine : Line := "G2 X10 R5 F100".toList
def helixLine : Line := "G2 X10 Z100 R5 F100".toList

theorem halfTurn_flat : HalfTurn flatLine 0 := by
  refine ⟨by decide +kernel, by decide +kernel, by decide +kernel, by decide +kernel, ?_⟩
  exact (modalTarget_along (x := 10) (by decide +kernel) (by decide +kernel)
    (by decide +kernel)).trans (by norm_num)

theorem halfTurn_helix : HalfTurn helixLine 100 := by
  refine ⟨by decide +kernel, by decide +kernel, by decide +kernel, by decide +kernel, ?_⟩
  have hx : lastOf (numeralWord 'X') (wordsOf [helixLine]) = some (.finite 10) := by decide +kernel
  have hy : lastOf (numeralWord 'Y') (wordsOf [helixLine]) = none := by decide +kernel
  have hz : lastOf (numeralWord 'Z') (wordsOf [helixLine]) = some (.finite 100) := by decide +kernel
  rw [modalTarget, lastOf_dataWord, lastOf_dataWord, lastOf_dataWord, hx, hy, hz]
  simp [Machine.default, Point.ofCoords, ofNumeral]

/-- A line, and half a turn in the plane. -/
theorem paced_iff_sample : (∃ c : Block XReal,
    (Block.parse Machine.default none).run (Block.ofLine 0 sampleLine) = .ok () c ∧
      c.type = .line ∧ Paced Machine.default none c 100) ∧
    ∃ c : Block XReal, (Block.parse Machine.default none).run (Block.ofLine 0 flatLine) = .ok () c ∧
      c.type = .cwa ∧ Paced Machine.default none c 100 := by
  obtain ⟨hA, htq⟩ := default_limits
  constructor
  · obtain ⟨c, h, ht, hl, hF⟩ := sample_parsed
    obtain ⟨x0, y0, z0, x, y, z, h0, h1, -, -, hlen⟩ := Block.points_of_parse h
    have hlen := hlen (by rw [ht]; decide)
    obtain ⟨dx, dy, dz, hdx, hdy, hdz, -⟩ := hypot3_eq_fin (hlen.symm.trans hl)
    obtain ⟨x, x0, rfl, rfl, -⟩ := sub_eq_fin hdx
    obtain ⟨y, y0, rfl, rfl, -⟩ := sub_eq_fin hdy
    obtain ⟨z, z0, rfl, rfl, -⟩ := sub_eq_fin hdz
    exact ⟨c, h, ht, (paced_iff (r := 0) h (.inl ht) hA (by norm_num) htq (by norm_num) hl
      (by norm_num) hF (by norm_num) (fun hne => absurd ht hne) h0 h1).mpr (.inl ht)⟩
  · obtain ⟨c, h, ht, hF, hr, hl, h1⟩ := halfTurn_flat.parsed
    have hint : c.type.Interpolated := .inr (.inl ht)
    have hl0 : 0 < 5 * Real.pi := mul_pos (by norm_num) Real.pi_pos
    refine ⟨c, h, ht, (paced_iff h hint hA (by norm_num) htq (by norm_num) hl hl0 hF (by norm_num)
      (fun _ => hr) origin_default h1).mpr (.inr ?_)⟩
    obtain ⟨hf, -⟩ := law_of_parse h hint hA (by norm_num) htq (by norm_num) hl hl0 hF (by norm_num)
      fun _ => ⟨hr, by norm_num⟩
    have hflat : √((5 * Real.pi) ^ 2 + (0 - 0) ^ 2) = 5 * Real.pi := by
      rw [sub_zero, zero_pow two_ne_zero, add_zero, Real.sqrt_sq hl0.le]
    have hpeak : Leg.peak ⟨5 * Real.pi, 5, 1 / 1000, hl0, by norm_num, by norm_num⟩
        (.fin (effectiveFeed c.type 5 100 5 / 60)) ≤ 100 / 60 := by
      rw [← Leg.lawOf_v, Leg.lawOf, dif_pos hf]
      exact (Leg.law_v_le _ hf).trans (by linarith [effectiveFeed_le c.type 5 100 5])
    rw [hflat]
    exact mul_le_mul_of_nonneg_right hpeak hl0.le

/-- A block that is walked faster than its feedrate. -/
theorem helix_too_fast : ∃ c : Block XReal,
    (Block.parse Machine.default none).run (Block.ofLine 0 helixLine) = .ok () c ∧
      c.type = .cwa ∧ c.feedrate = .fin 100 ∧ (∃ l, 0 < l ∧ c.length = .fin l) ∧
      ¬ Paced Machine.default none c 100 := by
  obtain ⟨c, h, ht, hF, hr, hl, h1⟩ := halfTurn_helix.parsed
  obtain ⟨hA, htq⟩ := default_limits
  have hpi := Real.two_le_pi
  have hpi4 := Real.pi_le_four
  have hl0 : 0 < 5 * Real.pi := by linarith
  refine ⟨c, h, ht, hF, ⟨_, hl0, hl⟩, ?_⟩
  rw [paced_arc_iff h (.inl ht) hA (by norm_num) htq (by norm_num) hl hl0 hF (by norm_num) hr
    origin_default h1, not_le]
  have hlim : effectiveFeed c.type 5 100 5 = 100 := by
    have h25 : √((5 : ℝ) * 5) = 5 := Real.sqrt_mul_self (by norm_num)
    rw [effectiveFeed, ht, if_neg (by decide), arcFeed, h25, min_eq_left (by norm_num)]
  rw [hlim]
  set G : Leg := ⟨5 * Real.pi, 5, 1 / 1000, hl0, by norm_num, by norm_num⟩ with hG
  have hf : (0 : ℝ) < 100 / 60 := by norm_num
  have hlong : (100 / 60 : ℝ) ^ 2 < G.l * G.A := by
    simp only [hG]
    linarith
  have hv := (G.trapezoid_v_mem hf hlong).1
  have hpeak : G.peak (.fin (100 / 60)) = (G.trapezoid (100 / 60) hf hlong).v := by
    rw [← G.lawOf_v, Leg.lawOf, dif_pos hf, Leg.law, dif_pos hlong]
  rw [hpeak]
  have hroot : (100 : ℝ) ≤ √((5 * Real.pi) ^ 2 + (100 - 0) ^ 2) :=
    Real.le_sqrt_of_sq_le (by nlinarith)
  have hden : 0 < G.l + 100 / 60 * G.tq := by simp only [hG]; linarith
  calc 100 / 60 * (5 * Real.pi)
      < 100 / 60 * G.l / (G.l + 100 / 60 * G.tq) * 100 := by
        rw [div_mul_eq_mul_div _ _ (100 : ℝ), lt_div_iff₀ hden]
        simp only [hG]
        nlinarith
    _ ≤ (G.trapezoid (100 / 60) hf hlong).v * √((5 * Real.pi) ^ 2 + (100 - 0) ^ 2) :=
        mul_le_mul hv hroot (by norm_num) (G.trapezoid (100 / 60) hf hlong).v_pos.le

end

end Cncpp
