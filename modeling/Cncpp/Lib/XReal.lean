import Mathlib.Analysis.SpecialFunctions.Complex.Arg
import Mathlib.Analysis.SpecialFunctions.Pow.Real
import Mathlib.Data.Sign.Basic
import Cncpp.Lib.Literals

/-! Real numbers with the special values of a floating-point format: two
infinities and a not-a-number.  Finite results are exact, so there is no
rounding, no overflow and no signed zero; on the special values the operations
follow IEEE 754 and the C mathematical functions. -/

namespace Cncpp.Lib

inductive XReal where
  | fin (x : ℝ)
  | posInf
  | negInf
  | nan

namespace XReal

noncomputable section

open Classical

def sign : XReal → SignType
  | fin x => SignType.sign x
  | posInf => 1
  | negInf => -1
  | nan => 0

/-- An infinite result of the given sign; there is none for an indefinite one. -/
def infOf : SignType → XReal
  | .zero => nan
  | .pos => posInf
  | .neg => negInf

def neg : XReal → XReal
  | fin x => fin (-x)
  | posInf => negInf
  | negInf => posInf
  | nan => nan

def add : XReal → XReal → XReal
  | fin x, fin y => fin (x + y)
  | nan, _ => nan
  | _, nan => nan
  | posInf, negInf => nan
  | negInf, posInf => nan
  | posInf, _ => posInf
  | _, posInf => posInf
  | _, _ => negInf

def mul : XReal → XReal → XReal
  | fin x, fin y => fin (x * y)
  | a, b => infOf (a.sign * b.sign)

/-- The zero divisor counts as positive, as it does without signed zeros. -/
def div : XReal → XReal → XReal
  | nan, _ => nan
  | _, nan => nan
  | fin x, fin y => if y = 0 then infOf (SignType.sign x) else fin (x / y)
  | fin _, _ => fin 0
  | a, fin y => if y = 0 then a else infOf (a.sign * SignType.sign y)
  | _, _ => nan

def lt : XReal → XReal → Bool
  | fin x, fin y => decide (x < y)
  | fin _, posInf => true
  | negInf, fin _ => true
  | negInf, posInf => true
  | _, _ => false

def le : XReal → XReal → Bool
  | fin x, fin y => decide (x ≤ y)
  | nan, _ => false
  | _, nan => false
  | _, posInf => true
  | negInf, _ => true
  | _, _ => false

def isNaN : XReal → Bool
  | nan => true
  | _ => false

def isInf : XReal → Bool
  | posInf => true
  | negInf => true
  | _ => false

/-- `x != 0`, which holds of a not-a-number. -/
def nonzero : XReal → Bool
  | fin x => decide (x ≠ 0)
  | _ => true

def abs : XReal → XReal
  | fin x => fin |x|
  | posInf => posInf
  | negInf => posInf
  | nan => nan

def sqrt : XReal → XReal
  | fin x => if x < 0 then nan else fin (Real.sqrt x)
  | posInf => posInf
  | _ => nan

def sin : XReal → XReal
  | fin x => fin (Real.sin x)
  | _ => nan

def cos : XReal → XReal
  | fin x => fin (Real.cos x)
  | _ => nan

/-- An infinite argument dominates, also over a not-a-number. -/
def hypot : XReal → XReal → XReal
  | fin x, fin y => fin (Real.sqrt (x ^ 2 + y ^ 2))
  | posInf, _ => posInf
  | negInf, _ => posInf
  | _, posInf => posInf
  | _, negInf => posInf
  | _, _ => nan

def hypot3 : XReal → XReal → XReal → XReal
  | fin x, fin y, fin z => fin (Real.sqrt (x ^ 2 + y ^ 2 + z ^ 2))
  | x, y, z => if x.isInf || y.isInf || z.isInf then posInf else nan

/-- The angle of the direction `(x, y)`, in `(-π, π]`, and `0` at the origin. -/
def atan2 : XReal → XReal → XReal
  | nan, _ => nan
  | _, nan => nan
  | fin y, fin x => fin (Complex.arg ⟨x, y⟩)
  | fin _, posInf => fin 0
  | fin y, negInf => if y < 0 then fin (-Real.pi) else fin Real.pi
  | posInf, fin _ => fin (Real.pi / 2)
  | negInf, fin _ => fin (-(Real.pi / 2))
  | posInf, posInf => fin (Real.pi / 4)
  | posInf, negInf => fin (3 * Real.pi / 4)
  | negInf, posInf => fin (-(Real.pi / 4))
  | negInf, negInf => fin (-(3 * Real.pi / 4))

def pow : XReal → XReal → XReal
  | fin x, fin y =>
    if y = 0 then fin 1
    else if x = 0 then (if y < 0 then posInf else fin 0)
    else if x < 0 ∧ ¬ ∃ k : ℤ, y = k then nan
    else fin (x ^ y)
  | x, fin y =>
    if y = 0 then fin 1
    else match x with
      | posInf => if y < 0 then fin 0 else posInf
      | negInf =>
        if y < 0 then fin 0
        else if ∃ k : ℤ, y = 2 * k + 1 then negInf else posInf
      | _ => nan
  | fin x, posInf => if x = 1 ∨ x = -1 then fin 1 else if |x| < 1 then fin 0 else posInf
  | fin x, negInf => if x = 1 ∨ x = -1 then fin 1 else if |x| < 1 then posInf else fin 0
  | fin x, nan => if x = 1 then fin 1 else nan
  | nan, _ => nan
  | _, nan => nan
  | _, posInf => posInf
  | _, negInf => fin 0

/-- Truncation to an unsigned integer, which is exact: it has no width.  `0` stands
for the result where it is not defined. -/
def truncate : XReal → ℕ
  | fin x => ⌊x⌋₊
  | _ => 0

end

/-! ## Finite operands -/

section Finite

variable (x y z : ℝ)

@[simp] theorem neg_fin : neg (fin x) = fin (-x) := rfl
@[simp] theorem add_fin : add (fin x) (fin y) = fin (x + y) := rfl
@[simp] theorem mul_fin : mul (fin x) (fin y) = fin (x * y) := rfl
@[simp] theorem truncate_fin : truncate (fin x) = ⌊x⌋₊ := rfl
@[simp] theorem abs_fin : abs (fin x) = fin |x| := rfl
@[simp] theorem sin_fin : sin (fin x) = fin (Real.sin x) := rfl
@[simp] theorem cos_fin : cos (fin x) = fin (Real.cos x) := rfl
@[simp] theorem hypot_fin : hypot (fin x) (fin y) = fin (Real.sqrt (x ^ 2 + y ^ 2)) := rfl
@[simp] theorem hypot3_fin :
    hypot3 (fin x) (fin y) (fin z) = fin (Real.sqrt (x ^ 2 + y ^ 2 + z ^ 2)) := rfl
@[simp] theorem atan2_fin : atan2 (fin y) (fin x) = fin (Complex.arg ⟨x, y⟩) := rfl
@[simp] theorem isNaN_fin : isNaN (fin x) = false := rfl
@[simp] theorem isInf_fin : isInf (fin x) = false := rfl
@[simp] theorem lt_fin : lt (fin x) (fin y) = true ↔ x < y := by simp [lt]
@[simp] theorem le_fin : le (fin x) (fin y) = true ↔ x ≤ y := by simp [le]
@[simp] theorem nonzero_fin : nonzero (fin x) = true ↔ x ≠ 0 := by simp [nonzero]

variable {x y}

@[simp] theorem div_fin (hy : y ≠ 0) : div (fin x) (fin y) = fin (x / y) := by
  simp [div, hy]

@[simp] theorem sqrt_fin (hx : 0 ≤ x) : sqrt (fin x) = fin (Real.sqrt x) := by
  simp [sqrt, not_lt.mpr hx]

end Finite

end XReal

end Cncpp.Lib
