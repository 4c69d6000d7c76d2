import Cncpp.Lib.ExceptState
import Cncpp.Lib.XReal
import Cncpp.Text

/-! Common definitions: the scalar type `data_t` with the operations that the
sources apply to it, `size_t`, and the exceptions.

The model is generic in the scalars.  Results that need no arithmetic hold for
every instance, rounding ones included; the metric results are about `XReal`,
which is exact arithmetic together with the infinities and the not-a-number.  In it
the conversion to `size_t` is exact too, also where a result would not fit. -/

namespace Cncpp

open Lib

/-- The operations on `data_t`. -/
class DataArith (K : Type) extends Add K, Sub K, Mul K, Div K, Neg K where
  num : ℚ → K
  infinity : K
  quietNaN : K
  pi : K
  lt : K → K → Bool
  le : K → K → Bool
  nonzero : K → Bool
  isnan : K → Bool
  isinf : K → Bool
  sqrt : K → K
  pow : K → K → K
  hypot : K → K → K
  hypot3 : K → K → K → K
  fabs : K → K
  sin : K → K
  cos : K → K
  atan2 : K → K → K
  /-- `static_cast<size_t>`. -/
  toSize : K → ℕ

namespace DataArith

variable {K : Type} [DataArith K]

def ofNat (n : ℕ) : K := num n

/-- `std::min`, which keeps its first argument unless the second one is less. -/
def min (a b : K) : K := if lt b a then b else a

/-- The value of a numeral read by `std::stod`. -/
def ofNumeral : Numeral → K
  | .finite q => num q
  | .infinite false => infinity
  | .infinite true => -infinity
  | .nan => quietNaN

end DataArith

noncomputable instance : DataArith XReal where
  add := XReal.add
  sub a b := XReal.add a (XReal.neg b)
  mul := XReal.mul
  div := XReal.div
  neg := XReal.neg
  num q := .fin q
  infinity := .posInf
  quietNaN := .nan
  pi := .fin Real.pi
  lt := XReal.lt
  le := XReal.le
  nonzero := XReal.nonzero
  isnan := XReal.isNaN
  isinf := XReal.isInf
  sqrt := XReal.sqrt
  pow := XReal.pow
  hypot := XReal.hypot
  hypot3 := XReal.hypot3
  fabs := XReal.abs
  sin := XReal.sin
  cos := XReal.cos
  atan2 := XReal.atan2
  toSize := XReal.truncate

/-- Conversion of an `int` to `size_t`. -/
def sizeT (v : ℤ) : ℕ := (v % 2 ^ 64).toNat

/-- The exceptions the library throws.  Those of `stoi` and `stod` carry the
name of the function, which is their message. -/
inductive Exn (K : Type) where
  | invalidArgument (fn : String)
  | outOfRange (fn : String)
  | badOptionalAccess
  | missingArgument (cmd : Char)
  | unknownCommand (cmd : Char)
  | blockNumber (arg : List Char) (prev : ℕ)
  | parsingError (line : Line) (token : Token) (cause : Exn K)
  | copyNotParsed
  | describeNotParsed
  | lambdaNotParsed
  | interpolationNotParsed
  | cannotInterpolate (line : Line)
  | machineNotSet (n : ℕ)
  | incompleteDelta
  | incompleteLength
  | arcMismatch (n : ℕ) (diff maxError : K)
  | invalidRadius (n : ℕ) (r : K)
  | cannotOpen (file : String)
  | machineParameter (name problem : String)
  | publish
  | notImplemented (state : String)
  | stateNotFound (state : String)

namespace Exn

variable {K : Type}

/-- `fmt::format("[{:>3}] ", s)`. -/
def padded (s : String) : String :=
  "[" ++ String.ofList (List.replicate (3 - s.length) ' ') ++ s ++ "] "

/-- The message of an exception, with `fmt` to print scalars. -/
def what (fmt : K → String) : Exn K → String
  | invalidArgument fn => fn
  | outOfRange fn => fn
  | badOptionalAccess => "bad_optional_access"
  | missingArgument cmd => "Missing argument for command " ++ cmd.toString
  | unknownCommand cmd => "Unknown command " ++ cmd.toString
  | blockNumber arg prev =>
    "Block number " ++ padded (String.ofList arg) ++
      " is NOT greater than previous block number " ++ padded (toString prev)
  | parsingError line token cause =>
    "Parsing error at line: '" ++ String.ofList line ++ "'. Token: '" ++ String.ofList token ++
      "': '" ++ cause.what fmt
  | copyNotParsed => "Cannot copy a Block that is not correctly parsed!"
  | describeNotParsed => "Block not parsed yet: cannot describe!"
  | lambdaNotParsed => "Cannot compute lambda: block not parsed!"
  | interpolationNotParsed => "Cannot compute interpolation: block not parsed!"
  | cannotInterpolate line => "Cannot interpolate block " ++ String.ofList line
  | machineNotSet n => "Machine not set for block " ++ toString n
  | incompleteDelta => "Cannot compute delta: incomplete points!"
  | incompleteLength => "Cannot compute length: incomplete point!"
  | arcMismatch n diff maxError =>
    "Block " ++ toString n ++ ": Arc endpoints mismatch error (" ++ fmt diff ++ " vs: " ++
      fmt maxError ++ ")"
  | invalidRadius n r => "Block " ++ toString n ++ ": Invalid arc radius: " ++ fmt r
  | cannotOpen file => "Could not open file " ++ file
  | machineParameter name problem => "Machine parameter '" ++ name ++ "' " ++ problem
  | publish => "publish"
  | notImplemented state => "State function not fully implemented: " ++ state
  | stateNotFound state => "State not found: " ++ state

/-- The exception of a failed conversion. -/
def ofConv (fn : String) : ConvError → Exn K
  | .invalidArgument => invalidArgument fn
  | .outOfRange => outOfRange fn

end Exn

/-! ## Exact arithmetic on finite values -/

namespace XReal

open Lib.XReal

variable (x y z : ℝ)

@[simp] theorem add_def : (fin x + fin y : XReal) = fin (x + y) := rfl
@[simp] theorem sub_def : (fin x - fin y : XReal) = fin (x - y) := by
  rw [sub_eq_add_neg]; rfl
@[simp] theorem mul_def : (fin x * fin y : XReal) = fin (x * y) := rfl
@[simp] theorem neg_def : (-fin x : XReal) = fin (-x) := rfl
@[simp] theorem num_def (q : ℚ) : (DataArith.num q : XReal) = fin q := rfl
@[simp] theorem ofNat_def (n : ℕ) : (DataArith.ofNat n : XReal) = fin n := by
  simp [DataArith.ofNat]
@[simp] theorem toSize_def : DataArith.toSize (fin x) = ⌊x⌋₊ := rfl
@[simp] theorem pi_def : (DataArith.pi : XReal) = fin Real.pi := rfl
@[simp] theorem lt_def : DataArith.lt (fin x) (fin y) = true ↔ x < y := lt_fin x y
@[simp] theorem le_def : DataArith.le (fin x) (fin y) = true ↔ x ≤ y := le_fin x y
@[simp] theorem nonzero_def : DataArith.nonzero (fin x) = true ↔ x ≠ 0 := nonzero_fin x
@[simp] theorem isnan_def : DataArith.isnan (fin x) = false := rfl
@[simp] theorem isinf_def : DataArith.isinf (fin x) = false := rfl
@[simp] theorem fabs_def : DataArith.fabs (fin x) = fin |x| := rfl
@[simp] theorem sin_def : DataArith.sin (fin x) = fin (Real.sin x) := rfl
@[simp] theorem cos_def : DataArith.cos (fin x) = fin (Real.cos x) := rfl
@[simp] theorem hypot_def :
    DataArith.hypot (fin x) (fin y) = fin (Real.sqrt (x ^ 2 + y ^ 2)) := rfl
@[simp] theorem hypot3_def :
    DataArith.hypot3 (fin x) (fin y) (fin z) = fin (Real.sqrt (x ^ 2 + y ^ 2 + z ^ 2)) := rfl
@[simp] theorem atan2_def :
    DataArith.atan2 (fin y) (fin x) = fin (Complex.arg ⟨x, y⟩) := rfl

variable {x y}

@[simp] theorem div_of_ne (hy : y ≠ 0) : (fin x / fin y : XReal) = fin (x / y) := div_fin hy
@[simp] theorem sqrt_of_nonneg (hx : 0 ≤ x) : DataArith.sqrt (fin x) = fin (Real.sqrt x) :=
  sqrt_fin hx

theorem sq_fin (x : ℝ) : (DataArith.pow (fin x) (DataArith.num 2) : XReal) = fin (x ^ 2) := by
  have h2 : ((2 : ℚ) : ℝ) = 2 := by norm_num
  show pow (fin x) (fin ((2 : ℚ) : ℝ)) = _
  rw [h2, pow, if_neg (by norm_num)]
  split
  · next h0 => rw [if_neg (by norm_num), h0]; norm_num
  · rw [if_neg (by rintro ⟨-, h⟩; exact h ⟨2, by norm_num⟩)]
    rw [Real.rpow_ofNat]

/-! Infinite operands. -/

theorem posInf_div (hy : 0 < y) : (posInf / fin y : XReal) = posInf := by
  show div posInf (fin y) = _
  simp [div, hy.ne', sign, sign_pos hy, infOf]

theorem pow_posInf : (DataArith.pow posInf (DataArith.num 2) : XReal) = posInf := by
  show pow posInf (fin ((2 : ℚ) : ℝ)) = _
  norm_num [pow]

theorem hypot_ne_negInf (a b : XReal) : DataArith.hypot a b ≠ negInf := by
  intro h
  change Lib.XReal.hypot a b = _ at h
  cases a <;> cases b <;> cases h

/-! A finite result comes from finite operands. -/

section Finite

variable {a b c : XReal} {v : ℝ}

theorem sub_eq_fin (h : a - b = fin v) : ∃ x y, a = fin x ∧ b = fin y ∧ v = x - y := by
  change Lib.XReal.add a (Lib.XReal.neg b) = _ at h
  cases a <;> cases b <;> cases h
  exact ⟨_, _, rfl, rfl, (sub_eq_add_neg _ _).symm⟩

theorem mul_eq_fin (h : a * b = fin v) : ∃ x y, a = fin x ∧ b = fin y ∧ v = x * y := by
  change Lib.XReal.mul a b = _ at h
  have hinf : ∀ s, infOf s ≠ fin v := by intro s; cases s <;> simp [infOf]
  cases a <;> cases b <;> simp only [Lib.XReal.mul, hinf, fin.injEq] at h
  exact ⟨_, _, rfl, rfl, h.symm⟩

theorem fabs_eq_fin (h : DataArith.fabs a = fin v) : ∃ x, a = fin x ∧ v = |x| := by
  change Lib.XReal.abs a = _ at h
  cases a <;> cases h
  exact ⟨_, rfl, rfl⟩

theorem hypot_eq_fin (h : DataArith.hypot a b = fin v) :
    ∃ x y, a = fin x ∧ b = fin y ∧ v = √(x ^ 2 + y ^ 2) := by
  change Lib.XReal.hypot a b = _ at h
  cases a <;> cases b <;> cases h
  exact ⟨_, _, rfl, rfl, rfl⟩

theorem hypot3_eq_fin (h : DataArith.hypot3 a b c = fin v) :
    ∃ x y z, a = fin x ∧ b = fin y ∧ c = fin z ∧ v = √(x ^ 2 + y ^ 2 + z ^ 2) := by
  change Lib.XReal.hypot3 a b c = _ at h
  cases a <;> cases b <;> cases c <;>
    simp only [Lib.XReal.hypot3, Lib.XReal.isInf, Bool.or_true, Bool.or_false,
      if_true, reduceCtorEq, Bool.false_eq_true, if_false, fin.injEq] at h
  exact ⟨_, _, _, rfl, rfl, rfl, h.symm⟩

end Finite

end XReal

end Cncpp
