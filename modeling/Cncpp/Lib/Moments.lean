import Mathlib.Algebra.BigOperators.Group.List.Basic
import Mathlib.Algebra.Order.BigOperators.Group.List
import Mathlib.Tactic.FieldSimp
import Mathlib.Tactic.Linarith
import Mathlib.Tactic.LinearCombination
import Mathlib.Tactic.Ring
import Cncpp.Lib.Literals

/-! The mean of a list of numbers and the squared deviations from it, and how they change when
a number is appended. -/

namespace Cncpp.Lib.Moments

variable {F : Type*} [Field F]

def mean (l : List F) : F := l.sum / l.length

/-- The sum of the squared deviations from `a`. -/
def sqDev (a : F) (l : List F) : F := (l.map fun x => (x - a) ^ 2).sum

theorem mean_singleton (x : F) : mean [x] = x := by
  simp [mean]

/-- The deviations from one number give those from another. -/
theorem sqDev_shift (a b : F) (l : List F) :
    sqDev b l = sqDev a l + 2 * (a - b) * (l.sum - l.length * a) + l.length * (a - b) ^ 2 := by
  induction l with
  | nil => simp [sqDev]
  | cons x l ih =>
    simp only [sqDev, List.map_cons, List.sum_cons, List.length_cons, Nat.cast_add, Nat.cast_one]
      at ih ⊢
    rw [ih]
    ring

theorem sqDev_concat (a x : F) (l : List F) : sqDev a (l ++ [x]) = sqDev a l + (x - a) ^ 2 := by
  simp [sqDev]

section Mean

variable [CharZero F] {l : List F}

theorem length_ne_zero (hl : l ≠ []) : (l.length : F) ≠ 0 :=
  Nat.cast_ne_zero.mpr (List.length_pos_iff.mpr hl).ne'

theorem length_mul_mean (hl : l ≠ []) : l.length * mean l = l.sum :=
  mul_div_cancel₀ _ (length_ne_zero hl)

theorem mean_concat (hl : l ≠ []) (x : F) :
    mean (l ++ [x]) = (l.length * mean l + x) / (l.length + 1) := by
  rw [length_mul_mean hl]
  simp [mean]

/-- The squared deviations from the mean grow by that of the new element from the new mean,
enlarged for the shift of the mean. -/
theorem sqDev_mean_concat (hl : l ≠ []) (x : F) :
    sqDev (mean (l ++ [x])) (l ++ [x]) =
      sqDev (mean l) l + (l.length + 1) / l.length * (mean (l ++ [x]) - x) ^ 2 := by
  have hn := length_ne_zero hl
  have hn1 : (l.length : F) + 1 ≠ 0 := Nat.cast_add_one_ne_zero l.length
  rw [sqDev_concat, sqDev_shift (mean l), length_mul_mean hl, sub_self, mul_zero, add_zero,
    mean_concat hl]
  field_simp
  ring

end Mean

theorem sqDev_nonneg {F : Type*} [Field F] [LinearOrder F] [IsStrictOrderedRing F] (a : F)
    (l : List F) : 0 ≤ sqDev a l := by
  refine List.sum_nonneg fun y hy => ?_
  obtain ⟨x, -, rfl⟩ := List.mem_map.mp hy
  exact sq_nonneg _

section Bounds

variable {F : Type*} [Field F] [LinearOrder F] [IsStrictOrderedRing F] {l : List F} {a b : F}

theorem mean_mem (hl : l ≠ []) (h : ∀ x ∈ l, a ≤ x ∧ x ≤ b) : a ≤ mean l ∧ mean l ≤ b := by
  have hn : (0 : F) < l.length := Nat.cast_pos.mpr (List.length_pos_iff.mpr hl)
  have hlow := List.card_nsmul_le_sum l a fun x hx => (h x hx).1
  have hup := List.sum_le_card_nsmul l b fun x hx => (h x hx).2
  rw [nsmul_eq_mul, mul_comm] at hlow hup
  exact ⟨(le_div_iff₀ hn).mpr hlow, (div_le_iff₀ hn).mpr hup⟩

/-- The squared deviations from a number, completed by the distances to two bounds. -/
theorem sqDev_add_bounds (a b m : F) (l : List F) :
    sqDev m l + (l.map fun x => (b - x) * (x - a)).sum =
      l.length * ((b - m) * (m - a)) + (a + b - 2 * m) * (l.sum - l.length * m) := by
  induction l with
  | nil => simp [sqDev]
  | cons x l ih =>
    simp only [sqDev, List.map_cons, List.sum_cons, List.length_cons, Nat.cast_add, Nat.cast_one]
      at ih ⊢
    linear_combination ih

/-- Values between two bounds deviate least from their mean where it is next to one of these. -/
theorem sqDev_mean_le (hl : l ≠ []) (h : ∀ x ∈ l, a ≤ x ∧ x ≤ b) :
    sqDev (mean l) l ≤ l.length * ((b - mean l) * (mean l - a)) := by
  have hsum := sqDev_add_bounds a b (mean l) l
  rw [length_mul_mean hl, sub_self, mul_zero, add_zero] at hsum
  have hnonneg : 0 ≤ (l.map fun x => (b - x) * (x - a)).sum := by
    refine List.sum_nonneg fun y hy => ?_
    obtain ⟨x, hx, rfl⟩ := List.mem_map.mp hy
    exact mul_nonneg (sub_nonneg.mpr (h x hx).2) (sub_nonneg.mpr (h x hx).1)
  linarith

end Bounds

end Cncpp.Lib.Moments
