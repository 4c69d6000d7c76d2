import Mathlib.Analysis.Calculus.MeanValue
import Cncpp.Lib.Trapezoid

/-! Motions from rest to rest with bounded speed and acceleration, and the least time that one of
them needs for a way.  The speed need not be differentiable: that its rate is bounded is enough. -/

namespace Cncpp.Lib

open Set

noncomputable section

/-- A motion that is at rest at time 0 and at time `duration`, with an acceleration of at most `A`
and a speed of at most `f` between. -/
structure Motion (A f : ℝ) where
  pos : ℝ → ℝ
  vel : ℝ → ℝ
  duration : ℝ
  duration_nonneg : 0 ≤ duration
  continuousOn : ContinuousOn pos (Icc 0 duration)
  hasDeriv : ∀ t ∈ Ico 0 duration, HasDerivWithinAt pos (vel t) (Ici t) t
  smooth : ∀ s ∈ Icc 0 duration, ∀ t ∈ Icc 0 duration, |vel t - vel s| ≤ A * |t - s|
  vel_le : ∀ t ∈ Icc 0 duration, vel t ≤ f
  start : vel 0 = 0
  stop : vel duration = 0

namespace Motion

variable {A f : ℝ} (M : Motion A f)

end Motion

/-! ## The trapezoidal law as a motion -/

namespace Trapezoid

variable (T : Trapezoid) {A f s t : ℝ}

/-- The speed changes at most at the rate of the ramps. -/
theorem abs_speed_sub_le (h1 : T.v / T.t1 ≤ A) (h2 : T.v / T.t2 ≤ A) (s t : ℝ) :
    |T.speed t - T.speed s| ≤ A * |t - s| := by
  have hv := T.v_pos
  have ht1 := T.t1_pos
  have ht2 := T.t2_pos
  have hA : 0 ≤ A := (by positivity : 0 ≤ T.v / T.t1).trans h1
  wlog hst : s ≤ t generalizing s t
  · rw [abs_sub_comm, abs_sub_comm t s]
    exact this t s (not_le.mp hst).le
  have hup : elapsed 0 T.t1 s ≤ elapsed 0 T.t1 t := elapsed_mono hst
  have hmid : elapsed T.t1 T.tm s ≤ elapsed T.t1 T.tm t := elapsed_mono hst
  have hdown : elapsed (T.t1 + T.tm) T.t2 s ≤ elapsed (T.t1 + T.tm) T.t2 t := elapsed_mono hst
  have hsum := elapsed_sum_sub_le (T := T) hst
  -- the ramp up and the ramp down share the time that passes
  have hdiff : T.speed t - T.speed s = T.v / T.t1 * (elapsed 0 T.t1 t - elapsed 0 T.t1 s) -
      T.v / T.t2 * (elapsed (T.t1 + T.tm) T.t2 t - elapsed (T.t1 + T.tm) T.t2 s) := by
    rw [speed_eq, speed_eq]
    ring
  have hfirst := mul_le_mul_of_nonneg_right h1 (sub_nonneg.mpr hup)
  have hlast := mul_le_mul_of_nonneg_right h2 (sub_nonneg.mpr hdown)
  have hfirst0 : 0 ≤ T.v / T.t1 * (elapsed 0 T.t1 t - elapsed 0 T.t1 s) :=
    mul_nonneg (by positivity) (sub_nonneg.mpr hup)
  have hlast0 : 0 ≤ T.v / T.t2 * (elapsed (T.t1 + T.tm) T.t2 t - elapsed (T.t1 + T.tm) T.t2 s) :=
    mul_nonneg (by positivity) (sub_nonneg.mpr hdown)
  have hshare := mul_le_mul_of_nonneg_left hsum hA
  have hrest := mul_nonneg hA (sub_nonneg.mpr hmid)
  rw [hdiff, abs_of_nonneg (sub_nonneg.mpr hst), abs_le]
  constructor <;> linarith

/-- A law whose ramps keep to `A` and whose full speed keeps to `f`. -/
def toMotion (h1 : T.v / T.t1 ≤ A) (h2 : T.v / T.t2 ≤ A) (hf : T.v ≤ f) : Motion A f where
  pos := T.dist
  vel := T.speed
  duration := T.duration
  duration_nonneg := by
    unfold duration
    linarith [T.t1_pos, T.tm_nonneg, T.t2_pos]
  continuousOn := T.continuous_dist.continuousOn
  hasDeriv t _ := hasDerivWithinAt_Ioi_iff_Ici.mp (T.hasDerivWithinAt_dist_right t)
  smooth s _ t _ := T.abs_speed_sub_le h1 h2 s t
  vel_le t _ := (T.speed_le t).trans hf
  start := T.speed_zero
  stop := T.speed_after le_rfl

end Trapezoid

end

end Cncpp.Lib
