import Cncpp.Lib.Trapezoid
import Cncpp.Parsing

/-! The motion plan of a block.  In exact arithmetic the two branches of `compute`
are motion laws: a trapezoid for a long block, a triangle for a short one, each
stretched to a whole number of ticks.  The stored profile follows its law. -/

namespace Cncpp

open DataArith Lib

noncomputable section

/-! ## Ticks -/

/-- The next multiple of `tq` after `t`. -/
def nextTick (tq t : ℝ) : ℝ := ⌊t / tq + 1⌋₊ * tq

/-- The time from `t` to the next tick. -/
def slack (tq t : ℝ) : ℝ := nextTick tq t - t

theorem slack_pos {tq t : ℝ} (hq : 0 < tq) : 0 < slack tq t := by
  have h : t / tq + 1 < ⌊t / tq + 1⌋₊ + 1 := Nat.lt_floor_add_one _
  have h' : t / tq < ⌊t / tq + 1⌋₊ := by linarith
  rw [div_lt_iff₀ hq] at h'
  exact sub_pos.mpr h'

theorem slack_le {tq t : ℝ} (hq : 0 < tq) (ht : 0 ≤ t) : slack tq t ≤ tq := by
  have h : (⌊t / tq + 1⌋₊ : ℝ) ≤ t / tq + 1 := Nat.floor_le (by positivity)
  have h' : (⌊t / tq + 1⌋₊ : ℝ) * tq ≤ (t / tq + 1) * tq := mul_le_mul_of_nonneg_right h hq.le
  have he : (t / tq + 1) * tq = t + tq := by field_simp
  rw [slack, nextTick]
  linarith

/-! ## Laws -/

/-- A path to cover: its length, the acceleration and the tick. -/
structure Leg where
  l : ℝ
  A : ℝ
  tq : ℝ
  l_pos : 0 < l
  A_pos : 0 < A
  tq_pos : 0 < tq

namespace Leg

variable (G : Leg) {f : ℝ}

/-- The plan for a long block at speed `f`. -/
def trapezoid (f : ℝ) (hf : 0 < f) (hlong : f ^ 2 < G.l * G.A) : Trapezoid where
  t1 := f / G.A
  tm := G.l / f - f / G.A + slack G.tq (G.l / f + f / G.A)
  t2 := f / G.A
  v := G.l / (G.l / f + slack G.tq (G.l / f + f / G.A))
  t1_pos := div_pos hf G.A_pos
  tm_nonneg := by
    have h : f / G.A ≤ G.l / f := by
      rw [div_le_div_iff₀ G.A_pos hf]
      nlinarith
    linarith [slack_pos G.tq_pos (t := G.l / f + f / G.A)]
  t2_pos := div_pos hf G.A_pos
  v_pos := div_pos G.l_pos (add_pos (div_pos G.l_pos hf) (slack_pos G.tq_pos))

/-- The plan for a short block. -/
def triangle : Trapezoid where
  t1 := √(G.l / G.A)
  tm := 0
  t2 := √(G.l / G.A) + slack G.tq (2 * √(G.l / G.A))
  v := 2 * G.l / (2 * √(G.l / G.A) + slack G.tq (2 * √(G.l / G.A)))
  t1_pos := Real.sqrt_pos.mpr (div_pos G.l_pos G.A_pos)
  tm_nonneg := le_rfl
  t2_pos := add_pos (Real.sqrt_pos.mpr (div_pos G.l_pos G.A_pos)) (slack_pos G.tq_pos)
  v_pos := div_pos (by linarith [G.l_pos])
    (add_pos (by linarith [Real.sqrt_pos.mpr (div_pos G.l_pos G.A_pos)]) (slack_pos G.tq_pos))

theorem trapezoid_length (hf : 0 < f) (hlong : f ^ 2 < G.l * G.A) :
    (G.trapezoid f hf hlong).length = G.l := by
  have hd : 0 < G.l / f + slack G.tq (G.l / f + f / G.A) :=
    add_pos (div_pos G.l_pos hf) (slack_pos G.tq_pos)
  simp only [Trapezoid.length, trapezoid]
  rw [div_mul_eq_mul_div, div_eq_iff hd.ne']
  ring

theorem triangle_length : G.triangle.length = G.l := by
  have hs : 0 < √(G.l / G.A) := Real.sqrt_pos.mpr (div_pos G.l_pos G.A_pos)
  have hd : 0 < 2 * √(G.l / G.A) + slack G.tq (2 * √(G.l / G.A)) :=
    add_pos (by linarith) (slack_pos G.tq_pos)
  simp only [Trapezoid.length, triangle]
  rw [div_mul_eq_mul_div, div_eq_iff hd.ne']
  ring

/-- The plans last a whole number of ticks. -/
theorem trapezoid_duration (hf : 0 < f) (hlong : f ^ 2 < G.l * G.A) :
    (G.trapezoid f hf hlong).duration = nextTick G.tq (G.l / f + f / G.A) := by
  simp only [Trapezoid.duration, trapezoid, slack]
  ring

theorem triangle_duration : G.triangle.duration = nextTick G.tq (2 * √(G.l / G.A)) := by
  simp only [Trapezoid.duration, triangle, slack]
  ring

/-- Rounding the duration up lowers the cruise speed, by at most one tick. -/
theorem trapezoid_v_mem (hf : 0 < f) (hlong : f ^ 2 < G.l * G.A) :
    f * G.l / (G.l + f * G.tq) ≤ (G.trapezoid f hf hlong).v ∧
      (G.trapezoid f hf hlong).v < f := by
  have hl := G.l_pos
  have hA := G.A_pos
  have hq := G.tq_pos
  have hs := slack_pos hq (t := G.l / f + f / G.A)
  have hle := slack_le hq (t := G.l / f + f / G.A) (by positivity)
  have hd : 0 < G.l / f + slack G.tq (G.l / f + f / G.A) := by positivity
  have hfl : f * (G.l / f) = G.l := by field_simp
  simp only [trapezoid]
  constructor
  · rw [div_le_div_iff₀ (by positivity) hd]
    have h := mul_le_mul_of_nonneg_left hle (mul_pos hf hl).le
    calc f * G.l * (G.l / f + slack G.tq (G.l / f + f / G.A))
        = G.l * (f * (G.l / f)) + f * G.l * slack G.tq (G.l / f + f / G.A) := by ring
      _ ≤ G.l * G.l + f * G.l * G.tq := by rw [hfl]; linarith
      _ = G.l * (G.l + f * G.tq) := by ring
  · rw [div_lt_iff₀ hd, mul_add, hfl]
    linarith [mul_pos hf hs]

theorem triangle_v_lt : G.triangle.v < √(G.l * G.A) := by
  have hl := G.l_pos
  have hA := G.A_pos
  have ht : 0 < √(G.l / G.A) := Real.sqrt_pos.mpr (div_pos hl hA)
  have hs := slack_pos G.tq_pos (t := 2 * √(G.l / G.A))
  have hprod : √(G.l * G.A) * √(G.l / G.A) = G.l := by
    rw [← Real.sqrt_mul (mul_pos hl hA).le]
    have : G.l * G.A * (G.l / G.A) = G.l ^ 2 := by field_simp
    rw [this, Real.sqrt_sq hl.le]
  have hroot : 0 < √(G.l * G.A) := Real.sqrt_pos.mpr (mul_pos hl hA)
  simp only [triangle]
  rw [div_lt_iff₀ (by positivity)]
  calc 2 * G.l = √(G.l * G.A) * (2 * √(G.l / G.A)) := by linarith
    _ < √(G.l * G.A) * (2 * √(G.l / G.A) + slack G.tq (2 * √(G.l / G.A))) :=
        mul_lt_mul_of_pos_left (by linarith) hroot

/-- The plan for speed `f`. -/
def law (f : ℝ) (hf : 0 < f) : Trapezoid :=
  if h : f ^ 2 < G.l * G.A then G.trapezoid f hf h else G.triangle

theorem law_length (hf : 0 < f) : (G.law f hf).length = G.l := by
  unfold law
  split
  · exact G.trapezoid_length hf _
  · exact G.triangle_length

theorem law_v_le (hf : 0 < f) : (G.law f hf).v ≤ f := by
  unfold law
  split
  · next h => exact (G.trapezoid_v_mem hf h).2.le
  · next h =>
    refine G.triangle_v_lt.le.trans ?_
    rw [← Real.sqrt_sq hf.le]
    exact Real.sqrt_le_sqrt (not_lt.mp h)

/-- The plans keep to the acceleration. -/
theorem law_acc_le (hf : 0 < f) :
    (G.law f hf).v / (G.law f hf).t1 ≤ G.A ∧ (G.law f hf).v / (G.law f hf).t2 ≤ G.A := by
  have hl := G.l_pos
  have hA := G.A_pos
  unfold law
  split
  · next h =>
    have hv := (G.trapezoid_v_mem hf h).2.le
    have h1 : (G.trapezoid f hf h).v / (f / G.A) ≤ G.A := by
      rw [div_le_iff₀ (by positivity), mul_div_cancel₀ _ hA.ne']
      exact hv
    exact ⟨h1, h1⟩
  · have ht := G.triangle.t1_pos
    have hv : G.triangle.v / G.triangle.t1 ≤ G.A := by
      rw [div_le_iff₀ ht]
      refine G.triangle_v_lt.le.trans (Real.sqrt_le_iff.mpr ⟨by positivity, ?_⟩)
      simp only [triangle]
      rw [mul_pow, Real.sq_sqrt (div_pos hl hA).le]
      have : G.A ^ 2 * (G.l / G.A) = G.l * G.A := by field_simp
      exact this.ge
    refine ⟨hv, le_trans ?_ hv⟩
    refine div_le_div_of_nonneg_left G.triangle.v_pos.le ht ?_
    simp only [triangle]
    linarith [slack_pos G.tq_pos (t := 2 * √(G.l / G.A))]

end Leg

/-! ## The stored profile -/

open XReal

/-- The profile that stores a law. -/
def ofLaw (T : Trapezoid) (dt : ℝ) : Profile XReal where
  a := .fin (T.v / T.t1)
  d := .fin (-(T.v / T.t2))
  f := .fin T.v
  l := .fin T.length
  dt1 := .fin T.t1
  dtM := .fin T.tm
  dt2 := .fin T.t2
  dt := .fin dt

theorem ofPhases_law (T : Trapezoid) (dt : ℝ) :
    Profile.ofPhases (.fin T.length) (.fin T.v) (.fin T.t1) (.fin T.tm) (.fin T.t2) (.fin dt) =
      ofLaw T dt := by
  simp [Profile.ofPhases, ofLaw, T.t1_pos.ne', T.t2_pos.ne']

/-- The profile of a law follows it. -/
theorem phase_ofLaw (T : Trapezoid) (dt t : ℝ) :
    (ofLaw T dt).phase (.fin t) = (.fin (T.dist t), .fin (T.speed t), .fin (T.acc t)) := by
  have hm := T.tm_nonneg
  simp only [Profile.phase, ofLaw, num_def, lt_def, add_def, mul_def, sub_def, Rat.cast_zero,
    Rat.cast_ofNat, ne_eq, OfNat.ofNat_ne_zero, not_false_eq_true, div_of_ne]
  split_ifs with h0 h1 hM h2
  · simp only [T.dist_before h0.le, Trapezoid.speed, Trapezoid.acc, if_pos h0]
  · simp only [T.dist_first (not_lt.mp h0) h1.le, Trapezoid.speed, Trapezoid.acc, if_neg h0,
      if_pos h1]
    ring_nf
  · simp only [T.dist_middle (not_lt.mp h1) hM.le, Trapezoid.speed, Trapezoid.acc, if_neg h0,
      if_neg h1, if_pos hM]
  · simp only [T.dist_last (not_lt.mp hM) h2.le, Trapezoid.speed, Trapezoid.acc, if_neg h0,
      if_neg h1, if_neg hM, if_pos h2]
    ring_nf
  · simp only [T.dist_after ((Trapezoid.duration.eq_def T).le.trans (not_lt.mp h2)),
      Trapezoid.speed, Trapezoid.acc, if_neg h0, if_neg h1, if_neg hM, if_neg h2]

/-- Whatever the time is, the profile reports what it reports at a real time. -/
theorem phase_real_time (T : Trapezoid) (dt : ℝ) (t : XReal) :
    ∃ t' : ℝ, (ofLaw T dt).phase t = (ofLaw T dt).phase (.fin t') := by
  have hend : (ofLaw T dt).phase (.fin (T.t1 + T.tm + T.t2)) = (.fin T.length, .fin 0, .fin 0) := by
    have h1 := T.t1_pos
    have h2 := T.t2_pos
    have hm := T.tm_nonneg
    rw [phase_ofLaw, T.dist_after (Trapezoid.duration.eq_def T).le, Trapezoid.speed, Trapezoid.acc]
    simp only [lt_irrefl, if_neg (show ¬ T.t1 + T.tm + T.t2 < 0 by linarith),
      if_neg (show ¬ T.t1 + T.tm + T.t2 < T.t1 by linarith),
      if_neg (show ¬ T.t1 + T.tm + T.t2 < T.t1 + T.tm by linarith), if_false]
  have hstart : (ofLaw T dt).phase (.fin (-1)) = (.fin 0, .fin 0, .fin 0) := by
    rw [phase_ofLaw, T.dist_before (by norm_num), Trapezoid.speed, Trapezoid.acc]
    simp
  cases t with
  | fin t => exact ⟨t, rfl⟩
  | posInf =>
    refine ⟨_, Eq.trans ?_ hend.symm⟩
    simp [Profile.phase, ofLaw, DataArith.lt, XReal.lt]
  | negInf =>
    refine ⟨_, Eq.trans ?_ hstart.symm⟩
    simp [Profile.phase, DataArith.lt, XReal.lt]
  | nan =>
    refine ⟨_, Eq.trans ?_ hend.symm⟩
    simp [Profile.phase, ofLaw, DataArith.lt, XReal.lt]

/-! ## The two branches of `compute` -/

section Compute

variable {m : Machine XReal} {G : Leg}

theorem quantize_fin {tq : ℝ} (htq : m.tq = .fin tq) (hq : 0 < tq) (t : ℝ) :
    m.quantize (.fin t) = (.fin (nextTick tq t), .fin (slack tq t)) := by
  simp only [Machine.quantize, htq, div_of_ne hq.ne', num_def, Rat.cast_one, add_def,
    toSize_def, ofNat_def, mul_def, sub_def, nextTick, slack]

/-- The time a plan takes before it is rounded up to whole ticks. -/
def Leg.travel (G : Leg) (f : ℝ) : ℝ :=
  if f ^ 2 < G.l * G.A then G.l / f + f / G.A else 2 * √(G.l / G.A)

theorem Leg.law_duration (G : Leg) {f : ℝ} (hf : 0 < f) :
    (G.law f hf).duration = nextTick G.tq (G.travel f) := by
  unfold Leg.law Leg.travel
  split
  · exact G.trapezoid_duration hf _
  · exact G.triangle_duration

theorem Leg.long_iff (G : Leg) {f : ℝ} (hf : 0 < f) :
    0 < G.l / f - (f / G.A + f / G.A) / 2 ↔ f ^ 2 < G.l * G.A := by
  have h : (f / G.A + f / G.A) / 2 = f / G.A := by ring
  rw [h, sub_pos, div_lt_div_iff₀ G.A_pos hf, sq]

/-- The short branch, which any feed takes that is not below the boundary. -/
theorem motionProfile_triangle (htq : m.tq = .fin G.tq) {fM : XReal}
    (hshort : DataArith.lt (num 0) (.fin G.l / fM - (fM / .fin G.A + fM / .fin G.A) / num 2) =
      false) :
    Block.motionProfile m (.fin G.l) (.fin G.A) fM =
      ofLaw G.triangle (nextTick G.tq (2 * √(G.l / G.A))) := by
  have hs : 0 < √(G.l / G.A) := Real.sqrt_pos.mpr (div_pos G.l_pos G.A_pos)
  have hq := quantize_fin htq G.tq_pos (2 * √(G.l / G.A))
  have hd : √(G.l / G.A) + (√(G.l / G.A) + slack G.tq (2 * √(G.l / G.A))) ≠ 0 := by
    linarith [slack_pos G.tq_pos (t := 2 * √(G.l / G.A))]
  have hsum : √(G.l / G.A) + √(G.l / G.A) = 2 * √(G.l / G.A) := by ring
  rw [← ofPhases_law, G.triangle_length]
  simp only [num_def, Rat.cast_zero, Rat.cast_ofNat] at hshort
  simp only [Block.motionProfile, hshort, Bool.false_eq_true, if_false, div_of_ne G.A_pos.ne',
    sqrt_of_nonneg (div_pos G.l_pos G.A_pos).le, add_def, hsum, hq, num_def, mul_def,
    Rat.cast_ofNat, div_of_ne hd, Rat.cast_zero, Leg.triangle]
  congr 2
  ring

theorem motionProfile_law (htq : m.tq = .fin G.tq) {f : ℝ} (hf : 0 < f) :
    Block.motionProfile m (.fin G.l) (.fin G.A) (.fin f) =
      ofLaw (G.law f hf) (nextTick G.tq (G.travel f)) := by
  have hl := G.l_pos
  have hA := G.A_pos
  have hM : DataArith.lt (num 0 : XReal)
      (.fin G.l / .fin f - (.fin f / .fin G.A + .fin f / .fin G.A) / num 2) = true ↔
      f ^ 2 < G.l * G.A := by
    rw [← G.long_iff hf]
    simp [hf.ne', hA.ne']
  by_cases hlong : f ^ 2 < G.l * G.A
  · have hq := quantize_fin htq G.tq_pos (G.l / f + f / G.A)
    have hsum : f / G.A + (G.l / f - (f / G.A + f / G.A) / 2) + f / G.A = G.l / f + f / G.A := by
      ring
    have hs := slack_pos G.tq_pos (t := G.l / f + f / G.A)
    have hden : f / G.A + f / G.A +
        2 * (G.l / f - (f / G.A + f / G.A) / 2 + slack G.tq (G.l / f + f / G.A)) =
        2 * (G.l / f + slack G.tq (G.l / f + f / G.A)) := by ring
    have hd : 2 * (G.l / f + slack G.tq (G.l / f + f / G.A)) ≠ 0 := by positivity
    rw [Leg.law, dif_pos hlong, Leg.travel, if_pos hlong, ← ofPhases_law,
      G.trapezoid_length hf hlong]
    have hM := hM.mpr hlong
    simp only [div_of_ne hf.ne', div_of_ne hA.ne', num_def, Rat.cast_zero, Rat.cast_ofNat,
      add_def, sub_def, ne_eq, OfNat.ofNat_ne_zero, not_false_eq_true, div_of_ne] at hM
    simp only [Block.motionProfile, div_of_ne hf.ne', div_of_ne hA.ne', num_def, Rat.cast_zero,
      Rat.cast_ofNat, add_def, sub_def, ne_eq, OfNat.ofNat_ne_zero, not_false_eq_true, div_of_ne,
      hM, if_true, hsum, hq, mul_def, hden, hd, Leg.trapezoid]
    congr 2
    · rw [mul_div_mul_left _ _ two_ne_zero]
    · ring
  · rw [Leg.law, dif_neg hlong, Leg.travel, if_neg hlong]
    exact motionProfile_triangle htq (Bool.eq_false_iff.mpr (mt hM.mp hlong))

end Compute

end

end Cncpp
