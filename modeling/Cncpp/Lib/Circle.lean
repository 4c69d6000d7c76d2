import Mathlib.Analysis.SpecialFunctions.Complex.Arg
import Mathlib.Analysis.SpecialFunctions.Trigonometric.Bounds
import Cncpp.Lib.Literals

/-! Points of a circle by their angle, and turns from one angle to another. -/

namespace Cncpp.Lib

open Real

/-- A chord is no longer than its arc. -/
theorem chord_sq_le (r a b : ℝ) :
    (r * cos b - r * cos a) ^ 2 + (r * sin b - r * sin a) ^ 2 ≤ (r * (b - a)) ^ 2 := by
  have hcos : 1 - (b - a) ^ 2 / 2 ≤ cos (b - a) := one_sub_sq_div_two_le_cos
  have hsq : (r * cos b - r * cos a) ^ 2 + (r * sin b - r * sin a) ^ 2 =
      r ^ 2 * (2 - 2 * cos (b - a)) := by
    rw [cos_sub]
    linear_combination r ^ 2 * (sin_sq_add_cos_sq a) + r ^ 2 * (sin_sq_add_cos_sq b)
  rw [hsq, mul_pow]
  exact mul_le_mul_of_nonneg_left (by linarith) (sq_nonneg r)

/-- The points of a chord, by the half of its angle. -/
theorem chord_point_sq (r a b w : ℝ) :
    (r * cos a + w * (r * cos b - r * cos a)) ^ 2 + (r * sin a + w * (r * sin b - r * sin a)) ^ 2 =
      r ^ 2 * (1 - 4 * (w * (1 - w)) * sin ((b - a) / 2) ^ 2) := by
  have hhalf : cos (b - a) = 1 - 2 * sin ((b - a) / 2) ^ 2 := by
    have h := cos_two_mul' ((b - a) / 2)
    rw [mul_div_cancel₀ _ (two_ne_zero' ℝ)] at h
    linarith [sin_sq_add_cos_sq ((b - a) / 2)]
  have hsq : sin ((b - a) / 2) ^ 2 = (1 - (cos b * cos a + sin b * sin a)) / 2 := by
    rw [← cos_sub, hhalf]
    ring
  rw [hsq]
  linear_combination r ^ 2 * (1 - w) ^ 2 * sin_sq_add_cos_sq a + r ^ 2 * w ^ 2 * sin_sq_add_cos_sq b

/-- A chord stays within its circle, and close to it where its angle is small. -/
theorem chord_near {r a b w : ℝ} (hr : 0 ≤ r) (h0 : 0 ≤ w) (h1 : w ≤ 1) :
    r * (1 - (b - a) ^ 2 / 8) ≤ √((r * cos a + w * (r * cos b - r * cos a)) ^ 2 +
        (r * sin a + w * (r * sin b - r * sin a)) ^ 2) ∧
      √((r * cos a + w * (r * cos b - r * cos a)) ^ 2 +
        (r * sin a + w * (r * sin b - r * sin a)) ^ 2) ≤ r := by
  have hw : 0 ≤ w * (1 - w) := mul_nonneg h0 (sub_nonneg.mpr h1)
  have hsin := sq_nonneg (sin ((b - a) / 2))
  rw [chord_point_sq]
  constructor
  · -- the middle of the chord is its point next to the centre
    have hmid : 4 * (w * (1 - w)) ≤ 1 := by nlinarith [sq_nonneg (w - 1 / 2)]
    have hcos : 1 - (b - a) ^ 2 / 8 ≤ |cos ((b - a) / 2)| := by
      have h : 1 - ((b - a) / 2) ^ 2 / 2 ≤ cos ((b - a) / 2) := one_sub_sq_div_two_le_cos
      have habs := le_abs_self (cos ((b - a) / 2))
      linarith [show ((b - a) / 2) ^ 2 / 2 = (b - a) ^ 2 / 8 by ring]
    refine (mul_le_mul_of_nonneg_left hcos hr).trans (Real.le_sqrt_of_sq_le ?_)
    rw [mul_pow, sq_abs, cos_sq']
    exact mul_le_mul_of_nonneg_left (by nlinarith) (sq_nonneg r)
  · refine (Real.sqrt_le_left hr).mpr (mul_le_of_le_one_right (sq_nonneg r) ?_)
    linarith [mul_nonneg (mul_nonneg (by norm_num : (0 : ℝ) ≤ 4) hw) hsin]

/-- A point from its distance to the origin and its direction. -/
theorem polar (x y : ℝ) : √(x ^ 2 + y ^ 2) * cos (Complex.arg ⟨x, y⟩) = x ∧
    √(x ^ 2 + y ^ 2) * sin (Complex.arg ⟨x, y⟩) = y := by
  have hn : ‖(⟨x, y⟩ : ℂ)‖ = √(x ^ 2 + y ^ 2) := by
    rw [Complex.norm_def, Complex.normSq_mk]
    congr 1
    ring
  rw [← hn]
  exact ⟨Complex.norm_mul_cos_arg _, Complex.norm_mul_sin_arg _⟩

/-- Two points span the parallelogram of their distances and the angle between them. -/
theorem cross_eq (x y x' y' : ℝ) : x * y' - y * x' = √(x ^ 2 + y ^ 2) * √(x' ^ 2 + y' ^ 2) *
    sin (Complex.arg ⟨x', y'⟩ - Complex.arg ⟨x, y⟩) := by
  obtain ⟨hx, hy⟩ := polar x y
  obtain ⟨hx', hy'⟩ := polar x' y'
  rw [sin_sub]
  calc x * y' - y * x'
      = √(x ^ 2 + y ^ 2) * cos (Complex.arg ⟨x, y⟩) *
          (√(x' ^ 2 + y' ^ 2) * sin (Complex.arg ⟨x', y'⟩)) -
        √(x ^ 2 + y ^ 2) * sin (Complex.arg ⟨x, y⟩) *
          (√(x' ^ 2 + y' ^ 2) * cos (Complex.arg ⟨x', y'⟩)) := by rw [hx, hy, hx', hy']
    _ = _ := by ring

/-- The distance of a point from the point of a circle in its direction. -/
theorem radial_dist (r x y : ℝ) : (r * cos (Complex.arg ⟨x, y⟩) - x) ^ 2 +
    (r * sin (Complex.arg ⟨x, y⟩) - y) ^ 2 = (r - √(x ^ 2 + y ^ 2)) ^ 2 := by
  obtain ⟨hx, hy⟩ := polar x y
  generalize √(x ^ 2 + y ^ 2) = d at *
  generalize Complex.arg ⟨x, y⟩ = θ at *
  rw [← hx, ← hy]
  linear_combination (r - d) ^ 2 * sin_sq_add_cos_sq θ

/-- The counterclockwise turn from the direction `a` to the direction `b`. -/
noncomputable def turn (a b : ℝ) : ℝ := if b - a < 0 then 2 * π + (b - a) else b - a

section Turn

variable {a b : ℝ}

theorem turn_lt (ha : -π < a) (hb : b ≤ π) : turn a b < 2 * π := by
  unfold turn
  split <;> linarith

theorem turn_nonneg (ha : a ≤ π) (hb : -π ≤ b) : 0 ≤ turn a b := by
  unfold turn
  split <;> linarith

/-- There is no turn between directions that are the same up to full turns. -/
theorem turn_eq_zero_iff (ha : -π < a) (ha' : a ≤ π) (hb : -π ≤ b) (hb' : b ≤ π) :
    turn a b = 0 ↔ ∃ k : ℤ, b - a = k * (2 * π) := by
  have hpi := pi_pos
  unfold turn
  constructor
  · split
    · intro h
      exact ⟨-1, by push_cast; linarith⟩
    · intro h
      exact ⟨0, by push_cast; linarith⟩
  · rintro ⟨k, hk⟩
    have hlow : (-2 : ℝ) < k := by
      by_contra hle
      nlinarith
    have hhigh : (k : ℝ) < 1 := by
      by_contra hle
      nlinarith
    have h1 : -2 < k := by exact_mod_cast hlow
    have h2 : k < 1 := by exact_mod_cast hhigh
    rcases (by omega : k = -1 ∨ k = 0) with rfl | rfl
    · push_cast at hk
      rw [if_pos (by linarith)]
      linarith
    · push_cast at hk
      rw [if_neg (by linarith)]
      linarith

/-- A turn and the turn back make a full one. -/
theorem turn_add_turn (h : a ≠ b) : turn a b + turn b a = 2 * π := by
  unfold turn
  rcases lt_or_gt_of_ne h with h | h
  · rw [if_neg (by linarith), if_pos (by linarith)]
    ring
  · rw [if_pos (by linarith), if_neg (by linarith)]
    ring

theorem sin_turn (a b : ℝ) : sin (turn a b) = sin (b - a) := by
  unfold turn
  split
  · rw [add_comm, sin_add_two_pi]
  · rfl

/-- A turn to the left side is at most half a turn, one to the right side at least that. -/
theorem turn_le_pi (hb : turn a b < 2 * π) (h : 0 ≤ sin (b - a)) : turn a b ≤ π := by
  by_contra hlt
  rw [← sin_turn] at h
  have hneg : 0 < sin (turn a b - π) := sin_pos_of_pos_of_lt_pi (by linarith) (by linarith)
  rw [sin_sub_pi] at hneg
  linarith

theorem pi_le_turn (ha : 0 < turn a b) (h : sin (b - a) ≤ 0) : π ≤ turn a b := by
  by_contra hlt
  rw [← sin_turn] at h
  have hpos : 0 < sin (turn a b) := sin_pos_of_pos_of_lt_pi ha (by linarith)
  linarith

theorem turn_eq_zero (ha : a ≤ π) (hb : -π < b) : turn a b = 0 ↔ b = a := by
  unfold turn
  split
  · next h => constructor <;> intro h' <;> linarith
  · exact sub_eq_zero

theorem turn_pos (ha : a ≤ π) (hb : -π < b) (h : b ≠ a) : 0 < turn a b :=
  lt_of_le_of_ne (turn_nonneg ha hb.le) fun h0 => h ((turn_eq_zero ha hb).mp h0.symm)

/-- A full turn more or less ends in the same direction. -/
theorem cos_sin_turn (a b : ℝ) :
    (cos (a + turn a b) = cos b ∧ sin (a + turn a b) = sin b) ∧
      (cos (a + -(2 * π - turn a b)) = cos b ∧ sin (a + -(2 * π - turn a b)) = sin b) := by
  have hback : a + -(2 * π - turn a b) = a + turn a b - 2 * π := by ring
  have hturn : cos (a + turn a b) = cos b ∧ sin (a + turn a b) = sin b := by
    unfold turn
    split
    · have h : a + (2 * π + (b - a)) = b + 2 * π := by ring
      rw [h, cos_add_two_pi, sin_add_two_pi]
      exact ⟨rfl, rfl⟩
    · have h : a + (b - a) = b := by ring
      rw [h]
      exact ⟨rfl, rfl⟩
  rw [hback, cos_sub_two_pi, sin_sub_two_pi]
  exact ⟨hturn, hturn⟩

end Turn

end Cncpp.Lib
