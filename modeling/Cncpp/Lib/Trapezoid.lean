import Mathlib.Analysis.Calculus.Deriv.Pow
import Mathlib.Analysis.Calculus.Deriv.Mul
import Mathlib.MeasureTheory.Integral.IntervalIntegral.FundThmCalculus
import Cncpp.Lib.Literals

/-! The trapezoidal motion law: a phase of constant acceleration from rest, a phase
of constant speed, and a phase of constant deceleration to rest.  Without a middle
phase it is the triangular law. -/

namespace Cncpp.Lib

noncomputable section

/-- The part of the interval of length `d` from `a` on that lies before `t`. -/
def elapsed (a d t : ℝ) : ℝ := min (max (t - a) 0) d

section Elapsed

variable {a d s t : ℝ}

theorem elapsed_nonneg (hd : 0 ≤ d) : 0 ≤ elapsed a d t := le_min (le_max_right _ _) hd

theorem elapsed_le : elapsed a d t ≤ d := min_le_right _ _

theorem elapsed_mono (h : s ≤ t) : elapsed a d s ≤ elapsed a d t :=
  min_le_min_right _ (max_le_max_right _ (by linarith))

theorem elapsed_before (hd : 0 ≤ d) (h : t ≤ a) : elapsed a d t = 0 := by
  rw [elapsed, max_eq_right (by linarith), min_eq_left hd]

theorem elapsed_inside (h : a ≤ t) (h' : t ≤ a + d) : elapsed a d t = t - a := by
  rw [elapsed, max_eq_left (by linarith), min_eq_left (by linarith)]

theorem elapsed_after (hd : 0 ≤ d) (h : a + d ≤ t) : elapsed a d t = d := by
  rw [elapsed, max_eq_left (by linarith), min_eq_right (by linarith)]

/-- Adjacent intervals add up. -/
theorem elapsed_add {e : ℝ} (hd : 0 ≤ d) (he : 0 ≤ e) :
    elapsed a d t + elapsed (a + d) e t = elapsed a (d + e) t := by
  rcases le_total t a with h | h
  · rw [elapsed_before hd h, elapsed_before he (by linarith), elapsed_before (by linarith) h,
      add_zero]
  rcases le_total t (a + d) with h' | h'
  · rw [elapsed_inside h h', elapsed_before he h', elapsed_inside h (by linarith), add_zero]
  rw [elapsed_after hd h']
  rcases le_total t (a + d + e) with h'' | h''
  · rw [elapsed_inside h' h'', elapsed_inside h (by linarith)]; ring
  · rw [elapsed_after he h'', elapsed_after (by linarith) (by linarith)]

theorem elapsed_sub_le (hd : 0 ≤ d) (h : s ≤ t) : elapsed a d t - elapsed a d s ≤ t - s := by
  rcases le_total s a with hs | hs
  · rw [elapsed_before hd hs]
    rcases le_total t a with ht | ht
    · rw [elapsed_before hd ht]; linarith
    · have : elapsed a d t ≤ t - a := (min_le_left _ _).trans (max_eq_left (by linarith)).le
      linarith
  rcases le_total s (a + d) with hs' | hs'
  · rw [elapsed_inside hs hs']
    have : elapsed a d t ≤ t - a := (min_le_left _ _).trans (max_eq_left (by linarith)).le
    linarith
  · rw [elapsed_after hd hs', elapsed_after hd (hs'.trans h)]; linarith

/-- Read backwards from the time `c` the interval is one that ends at `c - a`. -/
theorem elapsed_reflect (hd : 0 ≤ d) (c : ℝ) :
    elapsed a d (c - t) + elapsed (c - a - d) d t = d := by
  rcases le_total (c - t) a with h | h
  · rw [elapsed_before hd h, elapsed_after hd (by linarith), zero_add]
  rcases le_total (c - t) (a + d) with h' | h'
  · rw [elapsed_inside h h', elapsed_inside (by linarith) (by linarith)]
    ring
  · rw [elapsed_after hd h', elapsed_before hd (by linarith), add_zero]

theorem continuous_elapsed (a d : ℝ) : Continuous (elapsed a d) := by
  unfold elapsed
  fun_prop

end Elapsed

/-- A motion law: the durations of its phases, and the speed of the middle one. -/
structure Trapezoid where
  t1 : ℝ
  tm : ℝ
  t2 : ℝ
  v : ℝ
  t1_pos : 0 < t1
  tm_nonneg : 0 ≤ tm
  t2_pos : 0 < t2
  v_pos : 0 < v

namespace Trapezoid

variable (T : Trapezoid) (s t : ℝ)

/-- The length of the path. -/
def length : ℝ := T.v * (T.t1 / 2 + T.tm + T.t2 / 2)

def duration : ℝ := T.t1 + T.tm + T.t2

/-- The distance covered at time `t`, the sum over the phases. -/
def dist : ℝ :=
  T.v * (elapsed 0 T.t1 t ^ 2 / (2 * T.t1) + elapsed T.t1 T.tm t +
    (elapsed (T.t1 + T.tm) T.t2 t - elapsed (T.t1 + T.tm) T.t2 t ^ 2 / (2 * T.t2)))

def speed : ℝ :=
  if t < 0 then 0
  else if t < T.t1 then T.v / T.t1 * t
  else if t < T.t1 + T.tm then T.v
  else if t < T.t1 + T.tm + T.t2 then T.v - T.v / T.t2 * (t - (T.t1 + T.tm))
  else 0

def acc : ℝ :=
  if t < 0 then 0
  else if t < T.t1 then T.v / T.t1
  else if t < T.t1 + T.tm then 0
  else if t < T.t1 + T.tm + T.t2 then -(T.v / T.t2)
  else 0

/-! ## Speed and acceleration -/

theorem speed_nonneg : 0 ≤ T.speed t := by
  have h1 := T.t1_pos
  have h2 := T.t2_pos
  have hv := T.v_pos
  unfold speed
  split
  · exact le_rfl
  split
  · exact mul_nonneg (div_nonneg hv.le h1.le) (by linarith)
  split
  · exact hv.le
  split
  · next h =>
    rw [div_mul_eq_mul_div, sub_nonneg, div_le_iff₀ h2]
    exact mul_le_mul_of_nonneg_left (by linarith) hv.le
  · exact le_rfl

theorem speed_le : T.speed t ≤ T.v := by
  have h1 := T.t1_pos
  have h2 := T.t2_pos
  have hv := T.v_pos
  unfold speed
  split
  · exact hv.le
  split
  · next h =>
    rw [div_mul_eq_mul_div, div_le_iff₀ h1]
    exact mul_le_mul_of_nonneg_left h.le hv.le
  split
  · exact le_rfl
  split
  · next h =>
    have : 0 ≤ T.v / T.t2 * (t - (T.t1 + T.tm)) :=
      mul_nonneg (by positivity) (by linarith)
    linarith
  · exact hv.le

/-- The speed of the middle phase is reached. -/
theorem speed_peak : T.speed T.t1 = T.v := by
  have h1 := T.t1_pos
  have h2 := T.t2_pos
  have hm := T.tm_nonneg
  rw [speed, if_neg (by linarith), if_neg (lt_irrefl _)]
  split
  · rfl
  · next h =>
    have htm : T.tm = 0 := le_antisymm (by linarith) hm
    rw [if_pos (by linarith), htm]
    simp

theorem abs_acc_le {A : ℝ} (h1 : T.v / T.t1 ≤ A) (h2 : T.v / T.t2 ≤ A) : |T.acc t| ≤ A := by
  have hv1 : 0 < T.v / T.t1 := div_pos T.v_pos T.t1_pos
  have hv2 : 0 < T.v / T.t2 := div_pos T.v_pos T.t2_pos
  have hA : 0 ≤ A := hv1.le.trans h1
  unfold acc
  split
  · rwa [abs_zero]
  split
  · rwa [abs_of_pos hv1]
  split
  · rwa [abs_zero]
  split
  · rwa [abs_neg, abs_of_pos hv2]
  · rwa [abs_zero]

/-! ## Distance -/

/-- A ramp of duration `d` covers at most what the full speed would. -/
theorem ramp_sub_mem {a b d : ℝ} (hd : 0 < d) (ha : 0 ≤ a) (hab : a ≤ b) (hb : b ≤ d) :
    0 ≤ b ^ 2 / (2 * d) - a ^ 2 / (2 * d) ∧ b ^ 2 / (2 * d) - a ^ 2 / (2 * d) ≤ b - a := by
  have hsq : b ^ 2 / (2 * d) - a ^ 2 / (2 * d) = (b + a) * (b - a) / (2 * d) := by ring
  rw [hsq]
  constructor
  · exact div_nonneg (mul_nonneg (by linarith) (by linarith)) (by linarith)
  · rw [div_le_iff₀ (by linarith), mul_comm (b - a)]
    exact mul_le_mul_of_nonneg_right (by linarith) (by linarith)

section Order

variable {T s t}

/-- The phases share the time that passes. -/
theorem elapsed_sum_sub_le (h : s ≤ t) :
    (elapsed 0 T.t1 t - elapsed 0 T.t1 s) + (elapsed T.t1 T.tm t - elapsed T.t1 T.tm s) +
      (elapsed (T.t1 + T.tm) T.t2 t - elapsed (T.t1 + T.tm) T.t2 s) ≤ t - s := by
  have h1 := T.t1_pos
  have h2 := T.t2_pos
  have hm := T.tm_nonneg
  have hsum : ∀ u, elapsed 0 T.t1 u + elapsed T.t1 T.tm u + elapsed (T.t1 + T.tm) T.t2 u =
      elapsed 0 (T.t1 + T.tm + T.t2) u := by
    intro u
    rw [← elapsed_add (by linarith) h2.le, ← elapsed_add h1.le hm, zero_add, zero_add]
  have hle := elapsed_sub_le (a := 0) (d := T.t1 + T.tm + T.t2) (by linarith) h
  linarith [hsum s, hsum t]

/-- Over any interval of time the law covers between nothing and `v` times its
duration. -/
theorem dist_sub_mem (h : s ≤ t) :
    0 ≤ T.dist t - T.dist s ∧ T.dist t - T.dist s ≤ T.v * (t - s) := by
  have hv := T.v_pos
  have hacc := ramp_sub_mem T.t1_pos (elapsed_nonneg (a := 0) (t := s) T.t1_pos.le)
    (elapsed_mono h) elapsed_le
  have hdec := ramp_sub_mem T.t2_pos (elapsed_nonneg (a := T.t1 + T.tm) (t := s) T.t2_pos.le)
    (elapsed_mono h) elapsed_le
  have hmid : elapsed T.t1 T.tm s ≤ elapsed T.t1 T.tm t := elapsed_mono h
  have hsum := elapsed_sum_sub_le (T := T) h
  rw [dist, dist, ← mul_sub]
  constructor
  · exact mul_nonneg hv.le (by linarith [hacc.1, hdec.2])
  · exact mul_le_mul_of_nonneg_left (by linarith [hacc.2, hdec.1]) hv.le

theorem dist_mono (h : s ≤ t) : T.dist s ≤ T.dist t := by linarith [(dist_sub_mem (T := T) h).1]

end Order

/-! The law, phase by phase. -/

variable {t}

theorem dist_before (h : t ≤ 0) : T.dist t = 0 := by
  have h1 := T.t1_pos
  have hm := T.tm_nonneg
  rw [dist, elapsed_before h1.le h, elapsed_before hm (by linarith),
    elapsed_before T.t2_pos.le (by linarith)]
  simp

theorem dist_first (h : 0 ≤ t) (h' : t ≤ T.t1) : T.dist t = T.v / T.t1 * t ^ 2 / 2 := by
  have h1 := T.t1_pos
  have hm := T.tm_nonneg
  rw [dist, elapsed_inside h (by linarith), elapsed_before hm h',
    elapsed_before T.t2_pos.le (by linarith)]
  field_simp
  ring

theorem dist_middle (h : T.t1 ≤ t) (h' : t ≤ T.t1 + T.tm) :
    T.dist t = T.v * (T.t1 / 2 + (t - T.t1)) := by
  have h1 := T.t1_pos
  rw [dist, elapsed_after h1.le (by linarith), elapsed_inside h h',
    elapsed_before T.t2_pos.le h']
  field_simp
  ring

theorem dist_last (h : T.t1 + T.tm ≤ t) (h' : t ≤ T.t1 + T.tm + T.t2) :
    T.dist t = T.v * (T.t1 / 2 + T.tm) + T.v * (t - (T.t1 + T.tm)) -
      T.v / T.t2 * (t - (T.t1 + T.tm)) ^ 2 / 2 := by
  have h1 := T.t1_pos
  have h2 := T.t2_pos
  have hm := T.tm_nonneg
  rw [dist, elapsed_after h1.le (by linarith), elapsed_after hm h, elapsed_inside h h']
  field_simp
  ring

theorem dist_after (h : T.duration ≤ t) : T.dist t = T.length := by
  have h1 := T.t1_pos
  have h2 := T.t2_pos
  have hm := T.tm_nonneg
  unfold duration at h
  rw [dist, elapsed_after h1.le (by linarith), elapsed_after hm (by linarith),
    elapsed_after h2.le h, length]
  field_simp
  ring

theorem dist_nonneg : 0 ≤ T.dist t := by
  rcases le_total t 0 with h | h
  · exact (T.dist_before h).ge
  · exact (T.dist_before le_rfl).ge.trans (dist_mono h)

theorem dist_le_length : T.dist t ≤ T.length := by
  rcases le_total t T.duration with h | h
  · exact (dist_mono h).trans (T.dist_after le_rfl).le
  · exact (T.dist_after h).le

theorem length_pos : 0 < T.length :=
  mul_pos T.v_pos (by linarith [T.t1_pos, T.t2_pos, T.tm_nonneg])

/-- At the end of the first phase the law moves with the speed of the middle one. -/
theorem hasDerivWithinAt_dist : HasDerivWithinAt T.dist T.v (Set.Icc 0 T.t1) T.t1 := by
  have h1 := T.t1_pos
  have hd : HasDerivAt (fun t : ℝ => T.v / T.t1 * t ^ 2 / 2) T.v T.t1 := by
    have h := ((hasDerivAt_pow 2 T.t1).const_mul (T.v / T.t1)).div_const 2
    have hv : T.v / T.t1 * ((2 : ℕ) * T.t1 ^ (2 - 1)) / 2 = T.v := by
      norm_num
      field_simp
    rwa [hv] at h
  exact hd.hasDerivWithinAt.congr (fun t ht => T.dist_first ht.1 ht.2)
    (T.dist_first h1.le le_rfl)

/-! ## Position and speed -/

/-- The speed, the sum over the ramps. -/
theorem speed_eq (t : ℝ) : T.speed t =
    T.v * (elapsed 0 T.t1 t / T.t1 - elapsed (T.t1 + T.tm) T.t2 t / T.t2) := by
  have h1 := T.t1_pos
  have h2 := T.t2_pos
  have hm := T.tm_nonneg
  unfold speed
  split_ifs with h0 hA hM hD
  · rw [elapsed_before h1.le h0.le, elapsed_before h2.le (by linarith)]
    simp
  · rw [elapsed_inside (not_lt.mp h0) (by linarith), elapsed_before h2.le (by linarith)]
    ring
  · rw [elapsed_after h1.le (by linarith), elapsed_before h2.le hM.le]
    field_simp
    ring
  · rw [elapsed_after h1.le (by linarith), elapsed_inside (not_lt.mp hM) hD.le]
    field_simp
  · rw [elapsed_after h1.le (by linarith), elapsed_after h2.le (not_lt.mp hD)]
    field_simp
    ring

theorem continuous_speed : Continuous T.speed := by
  have h1 := continuous_elapsed 0 T.t1
  have h2 := continuous_elapsed (T.t1 + T.tm) T.t2
  rw [show T.speed = _ from funext T.speed_eq]
  fun_prop

theorem continuous_dist : Continuous T.dist := by
  have h1 := continuous_elapsed 0 T.t1
  have hm := continuous_elapsed T.t1 T.tm
  have h2 := continuous_elapsed (T.t1 + T.tm) T.t2
  unfold dist
  fun_prop

theorem speed_pos (h : 0 < t) (h' : t < T.duration) : 0 < T.speed t := by
  have h1 := T.t1_pos
  have h2 := T.t2_pos
  have hv := T.v_pos
  unfold duration at h'
  unfold speed
  rw [if_neg h.not_gt]
  split_ifs with hA hM
  · positivity
  · exact hv
  · rw [div_mul_eq_mul_div, sub_pos, div_lt_iff₀ h2]
    exact mul_lt_mul_of_pos_left (by linarith) hv

theorem speed_zero : T.speed 0 = 0 := by
  rw [speed, if_neg (lt_irrefl 0), if_pos T.t1_pos, mul_zero]

theorem speed_after (h : T.duration ≤ t) : T.speed t = 0 := by
  have h1 := T.t1_pos
  have h2 := T.t2_pos
  have hm := T.tm_nonneg
  unfold duration at h
  rw [speed, if_neg (by linarith), if_neg (by linarith), if_neg (by linarith), if_neg (by linarith)]

/-- Up to some later time the function is another one, which has a derivative. -/
theorem hasDerivWithinAt_right {f g : ℝ → ℝ} {g' s u : ℝ} (hsu : s < u) (hg : HasDerivAt g g' s)
    (h : ∀ r, s ≤ r → r < u → f r = g r) : HasDerivWithinAt f g' (Set.Ioi s) s := by
  refine hg.hasDerivWithinAt.congr_of_eventuallyEq ?_ (h s le_rfl hsu)
  filter_upwards [Ioo_mem_nhdsGT hsu] with r hr
  exact h r hr.1.le hr.2

/-- The speed is the derivative of the distance: phase by phase, from the right. -/
theorem hasDerivWithinAt_dist_right (t : ℝ) :
    HasDerivWithinAt T.dist (T.speed t) (Set.Ioi t) t := by
  have hend : T.t1 + T.tm + T.t2 = T.duration := rfl
  have hsq : ∀ c u : ℝ, HasDerivAt (fun r : ℝ => c * (r - u) ^ 2 / 2) (c * (t - u)) t := by
    intro c u
    have h := ((((hasDerivAt_id t).sub_const u).pow 2).const_mul c).div_const 2
    refine h.congr_deriv ?_
    simp
    ring
  unfold speed
  split_ifs with h0 hA hM hD
  · exact hasDerivWithinAt_right h0 (hasDerivAt_const t 0) fun r _ hr => T.dist_before hr.le
  · refine hasDerivWithinAt_right hA ((hsq (T.v / T.t1) 0).congr_deriv (by rw [sub_zero]))
      fun r hr hr' => ?_
    rw [T.dist_first ((not_lt.mp h0).trans hr) hr'.le, sub_zero]
  · have hlin : HasDerivAt (fun r : ℝ => T.v * (T.t1 / 2 + (r - T.t1))) T.v t := by
      have h := ((((hasDerivAt_id t).sub_const T.t1).const_add (T.t1 / 2)).const_mul T.v)
      simpa using h
    exact hasDerivWithinAt_right hM hlin fun r hr hr' =>
      T.dist_middle ((not_lt.mp hA).trans hr) hr'.le
  · have hlin : HasDerivAt (fun r : ℝ => T.v * (T.t1 / 2 + T.tm) + T.v * (r - (T.t1 + T.tm))) T.v
        t := by
      have h := (((hasDerivAt_id t).sub_const (T.t1 + T.tm)).const_mul T.v).const_add
        (T.v * (T.t1 / 2 + T.tm))
      simpa using h
    exact hasDerivWithinAt_right hD (hlin.sub (hsq (T.v / T.t2) (T.t1 + T.tm))) fun r hr hr' =>
      T.dist_last ((not_lt.mp hM).trans hr) hr'.le
  · rw [hend, not_lt] at hD
    exact hasDerivWithinAt_right (lt_add_one t) (hasDerivAt_const t T.length) fun r hr _ =>
      T.dist_after (hD.trans hr)

/-- The distance covered is the integral of the speed. -/
theorem dist_sub_eq_integral {s t : ℝ} (h : s ≤ t) :
    T.dist t - T.dist s = ∫ u in s..t, T.speed u :=
  (intervalIntegral.integral_eq_sub_of_hasDeriv_right_of_le h T.continuous_dist.continuousOn
    (fun u _ => T.hasDerivWithinAt_dist_right u) (T.continuous_speed.intervalIntegrable s t)).symm

/-- Until it is at rest again the law always moves on. -/
theorem dist_lt_dist {s t : ℝ} (hs : 0 ≤ s) (h : s < t) (ht : t ≤ T.duration) :
    T.dist s < T.dist t := by
  rw [← sub_pos, T.dist_sub_eq_integral h.le]
  refine intervalIntegral.intervalIntegral_pos_of_pos_on (T.continuous_speed.intervalIntegrable s t)
    (fun u hu => ?_) h
  exact T.speed_pos (hs.trans_lt hu.1) (hu.2.trans_le ht)

/-! ## Symmetry -/

section Symmetry

variable {T}

/-- With ramps of one length each phase is another one read backwards. -/
theorem elapsed_symm (h : T.t1 = T.t2) (t : ℝ) :
    elapsed 0 T.t1 (T.duration - t) + elapsed (T.t1 + T.tm) T.t2 t = T.t1 ∧
      elapsed T.t1 T.tm (T.duration - t) + elapsed T.t1 T.tm t = T.tm ∧
      elapsed (T.t1 + T.tm) T.t2 (T.duration - t) + elapsed 0 T.t1 t = T.t1 := by
  have hfirst : T.duration - 0 - T.t1 = T.t1 + T.tm := by
    rw [duration]
    linarith
  have hmiddle : T.duration - T.t1 - T.tm = T.t1 := by
    rw [duration]
    linarith
  have hlast : T.duration - (T.t1 + T.tm) - T.t1 = 0 := by
    rw [duration]
    linarith
  have h1 := elapsed_reflect (a := 0) (t := t) T.t1_pos.le T.duration
  have hm := elapsed_reflect (a := T.t1) (t := t) T.tm_nonneg T.duration
  have h2 := elapsed_reflect (a := T.t1 + T.tm) (t := t) T.t1_pos.le T.duration
  rw [hfirst] at h1
  rw [hmiddle] at hm
  rw [hlast] at h2
  rw [← h]
  exact ⟨h1, hm, h2⟩

/-- What is covered before a time is left after its mirror image. -/
theorem dist_symm (h : T.t1 = T.t2) (t : ℝ) : T.dist t + T.dist (T.duration - t) = T.length := by
  obtain ⟨h1, hm, h2⟩ := elapsed_symm h t
  have hpos := T.t1_pos
  rw [dist, dist, length, ← mul_add, eq_sub_of_add_eq h1, eq_sub_of_add_eq hm, eq_sub_of_add_eq h2,
    ← h]
  field_simp
  ring

theorem speed_symm (h : T.t1 = T.t2) (t : ℝ) : T.speed (T.duration - t) = T.speed t := by
  obtain ⟨h1, -, h2⟩ := elapsed_symm h t
  have hpos := T.t1_pos
  rw [speed_eq, speed_eq, eq_sub_of_add_eq h1, eq_sub_of_add_eq h2, ← h]
  field_simp
  ring

end Symmetry

end Trapezoid

end

end Cncpp.Lib
