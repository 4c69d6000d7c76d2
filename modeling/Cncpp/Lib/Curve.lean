import Mathlib.Analysis.Calculus.Deriv.Slope
import Mathlib.Analysis.SpecialFunctions.Trigonometric.Deriv
import Mathlib.Topology.Algebra.Module.ModuleTopology
import Cncpp.Lib.Circle

/-! Moving points: a bound on the chords of a motion and a bound on its speed, for
points on a helix in particular. -/

namespace Cncpp.Lib

open Filter Topology Real

/-- The speed of a point is bounded as its chords are. -/
theorem speed_sq_le {f g h : ℝ → ℝ} {f' g' h' k x : ℝ} {s : Set ℝ}
    (hf : HasDerivWithinAt f f' s x) (hg : HasDerivWithinAt g g' s x)
    (hh : HasDerivWithinAt h h' s x) (hs : (𝓝[s \ {x}] x).NeBot)
    (hle : ∀ t ∈ s, (f t - f x) ^ 2 + (g t - g x) ^ 2 + (h t - h x) ^ 2 ≤ (k * (t - x)) ^ 2) :
    f' ^ 2 + g' ^ 2 + h' ^ 2 ≤ k ^ 2 := by
  rw [hasDerivWithinAt_iff_tendsto_slope] at hf hg hh
  refine le_of_tendsto (((hf.pow 2).add (hg.pow 2)).add (hh.pow 2)) ?_
  filter_upwards [self_mem_nhdsWithin] with t ht
  have hne : t - x ≠ 0 := sub_ne_zero.mpr ht.2
  have hslope : slope f x t ^ 2 + slope g x t ^ 2 + slope h x t ^ 2 =
      ((f t - f x) ^ 2 + (g t - g x) ^ 2 + (h t - h x) ^ 2) / (t - x) ^ 2 := by
    simp only [slope_def_field, div_pow, add_div]
  rw [hslope, div_le_iff₀ (by positivity), ← mul_pow]
  exact hle t ht.1

/-- The square of the distance between two points of a helix, given by their angles
and heights. -/
noncomputable def helixSq (r θ θ' z z' : ℝ) : ℝ :=
  (r * cos θ' - r * cos θ) ^ 2 + (r * sin θ' - r * sin θ) ^ 2 + (z' - z) ^ 2

/-- A helix is straightened out by its angle: its chords are no longer. -/
theorem helixSq_le (r θ0 dθ z0 dz a b : ℝ) :
    helixSq r (θ0 + dθ * a) (θ0 + dθ * b) (z0 + dz * a) (z0 + dz * b) ≤
      ((r * dθ) ^ 2 + dz ^ 2) * (b - a) ^ 2 := by
  have h := chord_sq_le r (θ0 + dθ * a) (θ0 + dθ * b)
  have hr : r * (θ0 + dθ * b - (θ0 + dθ * a)) = r * dθ * (b - a) := by ring
  have hz : z0 + dz * b - (z0 + dz * a) = dz * (b - a) := by ring
  rw [hr] at h
  rw [helixSq, hz]
  linarith [mul_pow (r * dθ) (b - a) 2, mul_pow dz (b - a) 2]

/-- A point moves along a helix, its progress being `u`: where its chords are bounded,
so is its speed, which is that of the helix straightened out. -/
theorem helix_speed_le (r θ0 dθ z0 dz k : ℝ) {u : ℝ → ℝ} {w x : ℝ} {s : Set ℝ}
    (hu : HasDerivWithinAt u w s x) (hs : (𝓝[s \ {x}] x).NeBot)
    (hle : ∀ t ∈ s, helixSq r (θ0 + dθ * u x) (θ0 + dθ * u t) (z0 + dz * u x) (z0 + dz * u t) ≤
      (k * (t - x)) ^ 2) :
    ((r * dθ) ^ 2 + dz ^ 2) * w ^ 2 ≤ k ^ 2 := by
  have hθ : HasDerivWithinAt (fun t => θ0 + dθ * u t) (dθ * w) s x :=
    (hu.const_mul dθ).const_add θ0
  have hz : HasDerivWithinAt (fun t => z0 + dz * u t) (dz * w) s x :=
    (hu.const_mul dz).const_add z0
  have h := speed_sq_le (hθ.cos.const_mul r) (hθ.sin.const_mul r) hz hs hle
  calc ((r * dθ) ^ 2 + dz ^ 2) * w ^ 2
      = (r * (-sin (θ0 + dθ * u x) * (dθ * w))) ^ 2 + (r * (cos (θ0 + dθ * u x) * (dθ * w))) ^ 2 +
        (dz * w) ^ 2 := by
        linear_combination -(r * dθ * w) ^ 2 * sin_sq_add_cos_sq (θ0 + dθ * u x)
    _ ≤ k ^ 2 := h

end Cncpp.Lib
