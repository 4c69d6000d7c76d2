import Cncpp.Lib.Circle
import Cncpp.Parsing

/-! The paths of interpolated blocks in exact arithmetic: the centre of an arc, its
sweep, and the path that the inputs of a block describe. -/

namespace Cncpp

open DataArith Lib XReal

noncomputable section

/-! ## Sweeps -/

/-- The sweep from the direction `a` to the direction `b`. -/
def sweepAngle (type : BlockType) (a b : ℝ) : ℝ :=
  if type = .cwa then -(2 * Real.pi - turn a b) else turn a b

theorem sweep_fin (type : BlockType) (a b : ℝ) :
    Block.sweep type (.fin a : XReal) (.fin b) = .fin (sweepAngle type a b) := by
  have hturn : (if DataArith.lt (.fin (b - a) : XReal) (num 0) = true
      then (num 2 * pi + .fin (b - a) : XReal) else .fin (b - a)) = .fin (turn a b) := by
    unfold turn
    by_cases h : b - a < 0
    · rw [if_pos h, if_pos (by simpa using h)]
      simp
    · rw [if_neg h, if_neg (by simpa using h)]
  simp only [Block.sweep, sub_def, hturn, sweepAngle]
  split <;> simp

/-- The sweep ends in the direction of the target. -/
theorem cos_sin_sweepAngle (type : BlockType) (a b : ℝ) :
    Real.cos (a + sweepAngle type a b) = Real.cos b ∧
      Real.sin (a + sweepAngle type a b) = Real.sin b := by
  unfold sweepAngle
  split
  · exact (cos_sin_turn a b).2
  · exact (cos_sin_turn a b).1

/-- A clockwise sweep is never empty, a counterclockwise one where it does not turn. -/
theorem sweepAngle_ne_zero {type : BlockType} {a b : ℝ} (ha : -Real.pi < a) (hb : b ≤ Real.pi) :
    sweepAngle type a b ≠ 0 ↔ (type ≠ .cwa → turn a b ≠ 0) := by
  unfold sweepAngle
  split
  · next h =>
    have := turn_lt ha hb
    exact ⟨fun _ hc => absurd h hc, fun _ h0 => by linarith⟩
  · next h => exact ⟨fun h0 _ => h0, fun h0 => h0 h⟩

/-- A direction that is a number. -/
theorem atan2_mem {a b : XReal} {v : ℝ} (h : DataArith.atan2 a b = .fin v) :
    -Real.pi ≤ v ∧ v ≤ Real.pi := by
  have hpi := Real.pi_pos
  change Lib.XReal.atan2 a b = _ at h
  cases a <;> cases b <;> simp only [Lib.XReal.atan2, reduceCtorEq, Lib.XReal.fin.injEq] at h
  · exact h ▸ ⟨(Complex.neg_pi_lt_arg _).le, Complex.arg_le_pi _⟩
  · constructor <;> linarith
  · split at h <;> cases h <;> constructor <;> linarith
  all_goals constructor <;> linarith

theorem atan2_eq_fin {a b : XReal} {v : ℝ} (h : DataArith.atan2 a b = .fin v) : v ≤ Real.pi :=
  (atan2_mem h).2

theorem atan2_cases (a b : XReal) :
    DataArith.atan2 a b = .nan ∨ ∃ v, DataArith.atan2 a b = .fin v := by
  change Lib.XReal.atan2 a b = _ ∨ ∃ v, Lib.XReal.atan2 a b = _
  cases a <;> cases b <;> simp only [Lib.XReal.atan2, true_or] <;>
    first
      | exact .inr ⟨_, rfl⟩
      | (split <;> exact .inr ⟨_, rfl⟩)

/-! ## The centre from the radius -/

/-- The side of the chord on which the centre lies. -/
def side (type : BlockType) (R : ℝ) : ℝ :=
  (if 0 < R then 1 else -1) * (if type = .ccwa then 1 else -1)

theorem side_sq (type : BlockType) (R : ℝ) : side type R ^ 2 = 1 := by
  unfold side
  split <;> split <;> norm_num

/-- The length of the chord from `(x0, y0)` to `(x, y)`. -/
def chord (x0 y0 x y : ℝ) : ℝ := √((x - x0) ^ 2 + (y - y0) ^ 2)

def centerX (type : BlockType) (R x0 y0 x y : ℝ) : ℝ :=
  (x0 + x) / 2 - side type R * (y - y0) *
    (√(R ^ 2 - chord x0 y0 x y ^ 2 / 4) / chord x0 y0 x y)

def centerY (type : BlockType) (R x0 y0 x y : ℝ) : ℝ :=
  (y0 + y) / 2 + side type R * (x - x0) *
    (√(R ^ 2 - chord x0 y0 x y ^ 2 / 4) / chord x0 y0 x y)

variable {type : BlockType} {R x0 y0 x y : ℝ}

theorem radiusCenter_fin (hR : R ≠ 0) (hd : 0 < chord x0 y0 x y)
    (hle : chord x0 y0 x y ≤ 2 * |R|) :
    Block.radiusCenter type (.fin R : XReal) (.fin x0) (.fin y0) (.fin x) (.fin y)
        (.fin x - .fin x0) (.fin y - .fin y0) =
      (.fin (centerX type R x0 y0 x y), .fin (centerY type R x0 y0 x y)) := by
  have hs : ((((if DataArith.lt (num 0 : XReal) (.fin R) then 1 else 0) -
      (if DataArith.lt (.fin R : XReal) (num 0) then 1 else 0)) *
      (if type = .ccwa then 1 else -1) : ℤ) : ℝ) = side type R := by
    unfold side
    rcases lt_or_gt_of_ne hR with h | h
    · simp [h, not_lt.mpr h.le, DataArith.lt, Lib.XReal.lt]
    · simp [h, not_lt.mpr h.le, DataArith.lt, Lib.XReal.lt]
  have hsq : 0 ≤ R ^ 2 - chord x0 y0 x y ^ 2 / 4 := by
    rw [← sq_abs R]
    nlinarith [abs_nonneg R]
  have hch : (DataArith.hypot (.fin (x - x0)) (.fin (y - y0)) : XReal) = .fin (chord x0 y0 x y) := rfl
  have hq : (DataArith.sqrt (DataArith.pow (.fin R) (num 2) -
      DataArith.pow (.fin (chord x0 y0 x y)) (num 2) / num 4) / .fin (chord x0 y0 x y) : XReal) =
      .fin (√(R ^ 2 - chord x0 y0 x y ^ 2 / 4) / chord x0 y0 x y) := by
    rw [sq_fin, sq_fin, num_def, Rat.cast_ofNat, div_of_ne (by norm_num), sub_def,
      sqrt_of_nonneg hsq, div_of_ne hd.ne']
  simp only [Block.radiusCenter, sub_def, hch, hq]
  rw [num_def, num_def]
  simp only [Rat.cast_intCast, Rat.cast_ofNat, hs, add_def, mul_def]
  rw [div_of_ne (by norm_num), div_of_ne (by norm_num)]
  rfl

/-- Both ends of the chord are at the given distance from the centre. -/
theorem center_dist (type : BlockType) (hd : 0 < chord x0 y0 x y) (hle : chord x0 y0 x y ≤ 2 * |R|) :
    (x0 - centerX type R x0 y0 x y) ^ 2 + (y0 - centerY type R x0 y0 x y) ^ 2 = R ^ 2 ∧
      (x - centerX type R x0 y0 x y) ^ 2 + (y - centerY type R x0 y0 x y) ^ 2 = R ^ 2 := by
  have hsq : 0 ≤ R ^ 2 - chord x0 y0 x y ^ 2 / 4 := by
    rw [← sq_abs R]
    nlinarith [abs_nonneg R]
  have hside := side_sq type R
  have hch : chord x0 y0 x y ^ 2 = (x - x0) ^ 2 + (y - y0) ^ 2 := Real.sq_sqrt (by positivity)
  set q := √(R ^ 2 - chord x0 y0 x y ^ 2 / 4) / chord x0 y0 x y with hq
  have hqd : q ^ 2 * ((x - x0) ^ 2 + (y - y0) ^ 2) =
      R ^ 2 - ((x - x0) ^ 2 + (y - y0) ^ 2) / 4 := by
    rw [← hch, hq, div_pow, Real.sq_sqrt hsq]
    field_simp
  have hx : centerX type R x0 y0 x y = (x0 + x) / 2 - side type R * (y - y0) * q := rfl
  have hy : centerY type R x0 y0 x y = (y0 + y) / 2 + side type R * (x - x0) * q := rfl
  rw [hx, hy]
  constructor
  · linear_combination hqd + q ^ 2 * ((x - x0) ^ 2 + (y - y0) ^ 2) * hside
  · linear_combination hqd + q ^ 2 * ((x - x0) ^ 2 + (y - y0) ^ 2) * hside

/-- Different points at the same distance lie in different directions. -/
theorem arg_ne {a b a' b' r : ℝ} (h : a ^ 2 + b ^ 2 = r) (h' : a' ^ 2 + b' ^ 2 = r)
    (hne : ¬ (a' = a ∧ b' = b)) : Complex.arg ⟨a', b'⟩ ≠ Complex.arg ⟨a, b⟩ := by
  intro he
  have hp := polar a b
  have hp' := polar a' b'
  rw [h', he, ← h] at hp'
  exact hne ⟨hp'.1.symm.trans hp.1, hp'.2.symm.trans hp.2⟩

theorem arg_ne_of_chord {xc yc r : ℝ} (h : (x0 - xc) ^ 2 + (y0 - yc) ^ 2 = r)
    (h' : (x - xc) ^ 2 + (y - yc) ^ 2 = r) (hd : 0 < chord x0 y0 x y) :
    Complex.arg ⟨x - xc, y - yc⟩ ≠ Complex.arg ⟨x0 - xc, y0 - yc⟩ := by
  refine arg_ne h h' fun ⟨hx, hy⟩ => hd.ne' ?_
  rw [chord, sub_left_inj.mp hx, sub_left_inj.mp hy]
  simp

/-! ## Arcs -/

/-- An arc: its centre, its radius, the angle it starts from and the angle it
sweeps, which is not zero. -/
structure Arc where
  xc : ℝ
  yc : ℝ
  r : ℝ
  θ0 : ℝ
  dθ : ℝ
  r_pos : 0 < r
  dθ_ne : dθ ≠ 0

namespace Arc

def length (a : Arc) : ℝ := |a.dθ| * a.r

theorem length_pos (a : Arc) : 0 < a.length := mul_pos (abs_pos.mpr a.dθ_ne) a.r_pos

/-- The arc of radius `|R|` between two points. -/
def ofRadius (type : BlockType) (hR : R ≠ 0) (hd : 0 < chord x0 y0 x y)
    (hle : chord x0 y0 x y ≤ 2 * |R|) : Arc where
  xc := centerX type R x0 y0 x y
  yc := centerY type R x0 y0 x y
  r := |R|
  θ0 := Complex.arg ⟨x0 - centerX type R x0 y0 x y, y0 - centerY type R x0 y0 x y⟩
  dθ := sweepAngle type
    (Complex.arg ⟨x0 - centerX type R x0 y0 x y, y0 - centerY type R x0 y0 x y⟩)
    (Complex.arg ⟨x - centerX type R x0 y0 x y, y - centerY type R x0 y0 x y⟩)
  r_pos := abs_pos.mpr hR
  dθ_ne := by
    refine (sweepAngle_ne_zero (Complex.neg_pi_lt_arg _) (Complex.arg_le_pi _)).mpr
      fun _ => ?_
    rw [Ne, turn_eq_zero (Complex.arg_le_pi _) (Complex.neg_pi_lt_arg _)]
    obtain ⟨h0, h1⟩ := center_dist type hd hle
    exact arg_ne_of_chord h0 h1 hd

/-- The arc around the point `(i, j)` away from the start, to the direction `θ`. -/
def ofCenter (type : BlockType) (i j x0 y0 θ : ℝ) (hr : 0 < √(i ^ 2 + j ^ 2))
    (hθ : θ ≤ Real.pi) (hturn : type ≠ .cwa → turn (Complex.arg ⟨-i, -j⟩) θ ≠ 0) : Arc where
  xc := x0 + i
  yc := y0 + j
  r := √(i ^ 2 + j ^ 2)
  θ0 := Complex.arg ⟨-i, -j⟩
  dθ := sweepAngle type (Complex.arg ⟨-i, -j⟩) θ
  r_pos := hr
  dθ_ne := (sweepAngle_ne_zero (Complex.neg_pi_lt_arg _) hθ).mpr hturn

end Arc

/-- The arc that the inputs of a block describe: its type, its start and target, and
its words R, I and J. -/
inductive ArcOf (type : BlockType) (p0 p : Point XReal) (R I J : XReal) : Arc → Prop
  | radius {R' x0 y0 x y : ℝ} {z0 z : XReal} (hR : R' ≠ 0)
      (hd : 0 < chord x0 y0 x y) (hle : chord x0 y0 x y ≤ 2 * |R'|) : type.IsArc → R = .fin R' →
      p0 = .ofCoords (.fin x0) (.fin y0) z0 → p = .ofCoords (.fin x) (.fin y) z →
      ArcOf type p0 p R I J (.ofRadius type hR hd hle)
  | center {i j x0 y0 θ : ℝ} {z0 x y z : XReal} (hr : 0 < √(i ^ 2 + j ^ 2)) (hθ : θ ≤ Real.pi)
      (hturn : type ≠ .cwa → turn (Complex.arg ⟨-i, -j⟩) θ ≠ 0) : type.IsArc → R = .fin 0 →
      I = .fin i → J = .fin j → p0 = .ofCoords (.fin x0) (.fin y0) z0 → p = .ofCoords x y z →
      DataArith.atan2 (y - .fin (y0 + j)) (x - .fin (x0 + i)) = .fin θ →
      ArcOf type p0 p R I J (.ofCenter type i j x0 y0 θ hr hθ hturn)

/-- The block stores the arc. -/
structure HasArc (c : Block XReal) (a : Arc) : Prop where
  xc : c.center.x = some (.fin a.xc)
  yc : c.center.y = some (.fin a.yc)
  r : c.r = .fin a.r
  theta0 : c.theta0 = .fin a.θ0
  dtheta : c.dtheta = .fin a.dθ
  length : c.length = .fin a.length

section Parsed

variable {m : Machine XReal} {prev : Option (Block XReal)} {line : Line} {b c : Block XReal}
  {a : Arc}

/-- `parse` stores the arc that the inputs describe. -/
theorem hasArc_of_parse (hb : Block.Constructed line prev b)
    (h : (Block.parse m prev).run b = .ok () c)
    (ha : ArcOf c.type (Block.origin m prev) c.target (ownWord 'R' line) (ownWord 'I' line)
      (ownWord 'J' line) a) : HasArc c a := by
  have hty : c.type.IsArc := by cases ha <;> assumption
  obtain ⟨x0, y0, z0, x, y, z, r, xc, yc, h0, ht, hcen, hst⟩ := Block.arc_of_parse hb h hty
  cases ha with
  | @radius R' x0' y0' x' y' z0' z' hR hd hle _ hRw hp0 hp =>
    cases h0.symm.trans hp0
    cases ht.symm.trans hp
    rw [Block.CenterOf, hRw, if_pos ((nonzero_def _).mpr hR), radiusCenter_fin hR hd hle] at hcen
    obtain ⟨rfl, hc⟩ := hcen
    cases hc
    have hθ := hst.theta0
    rw [sub_def, sub_def, atan2_def] at hθ
    have hdθ := hst.dtheta
    rw [hθ, sub_def, sub_def, atan2_def, sweep_fin] at hdθ
    refine ⟨hst.center.1, hst.center.2, hst.r, hθ, hdθ, ?_⟩
    rw [hst.length, hdθ, mul_def, fabs_def, abs_mul]
    rfl
  | @center i j x0' y0' θ z0' x' y' z' hr hle hturn _ hRw hI hJ hp0 hp hat =>
    cases h0.symm.trans hp0
    cases ht.symm.trans hp
    rw [Block.CenterOf, hRw, if_neg (by simp), hI, hJ] at hcen
    obtain ⟨rfl, hc, -⟩ := hcen
    cases hc
    have hθ := hst.theta0
    have hx : x0' - (x0' + i) = -i := by ring
    have hy : y0' - (y0' + j) = -j := by ring
    rw [add_def, add_def, sub_def, sub_def, atan2_def, hx, hy] at hθ
    have hdθ := hst.dtheta
    rw [hθ, add_def, add_def, hat, sweep_fin] at hdθ
    have hrr : c.r = .fin √(i ^ 2 + j ^ 2) := by
      rw [hst.r, hypot_def, fabs_def, abs_of_pos hr]
    refine ⟨hst.center.1, hst.center.2, hrr, hθ, hdθ, ?_⟩
    rw [hst.length, hdθ, hypot_def, mul_def, fabs_def, abs_mul, abs_of_pos hr]
    rfl

end Parsed

/-! ## Arcs with a length -/

/-- The centre from the radius divides by no zero, and takes no negative root. -/
def RadiusDefined {K : Type} [DataArith K] (R dx dy : K) : Prop :=
  DataArith.nonzero (DataArith.hypot dx dy) = true ∧
    DataArith.lt (DataArith.pow R (num 2) - DataArith.pow (DataArith.hypot dx dy) (num 2) / num 4)
      (num 0) = false

theorem sub_nan (a : XReal) : a - (.nan : XReal) = .nan := by cases a <;> rfl

theorem add_nan (a : XReal) : a + (.nan : XReal) = .nan := by cases a <;> rfl

theorem mul_nan (a : XReal) : a * (.nan : XReal) = .nan := by
  show Lib.XReal.mul a .nan = .nan
  cases a <;> simp [Lib.XReal.mul, Lib.XReal.sign, Lib.XReal.infOf]

/-- A sweep is a number, or there is a direction that is none. -/
theorem sweep_cases (type : BlockType) {θ0 θf : XReal} (h0 : θ0 = .nan ∨ ∃ a, θ0 = .fin a)
    (hf : θf = .nan ∨ ∃ a, θf = .fin a) :
    (∃ a b, θ0 = .fin a ∧ θf = .fin b ∧ Block.sweep type θ0 θf = .fin (sweepAngle type a b)) ∨
      Block.sweep type θ0 θf = .nan := by
  rcases h0 with rfl | ⟨a, rfl⟩
  · refine .inr ?_
    rw [Block.sweep, sub_nan]
    split <;> rfl
  rcases hf with rfl | ⟨b, rfl⟩
  · refine .inr ?_
    rw [Block.sweep]
    split <;> rfl
  exact .inl ⟨a, b, rfl, rfl, sweep_fin type a b⟩

theorem sweep_eq_fin {θ0 θf : XReal} {v : ℝ} (h0 : θ0 = .nan ∨ ∃ a, θ0 = .fin a)
    (hf : θf = .nan ∨ ∃ a, θf = .fin a) (h : Block.sweep type θ0 θf = .fin v) :
    ∃ a b, θ0 = .fin a ∧ θf = .fin b ∧ v = sweepAngle type a b := by
  rcases sweep_cases type h0 hf with ⟨a, b, ha, hb, hs⟩ | hnan
  · cases hs.symm.trans h
    exact ⟨a, b, ha, hb, rfl⟩
  · cases hnan.symm.trans h

theorem eq_zero_of_nonzero {a : XReal} (h : ¬ DataArith.nonzero a = true) : a = .fin 0 := by
  cases a with
  | fin w =>
    rw [nonzero_def, not_not] at h
    rw [h]
  | posInf => exact absurd rfl h
  | negInf => exact absurd rfl h
  | nan => exact absurd rfl h

theorem RadiusDefined.chord_le {dx dy : XReal} (h : RadiusDefined (.fin R : XReal) dx dy)
    (hn : DataArith.hypot dx dy ≠ .nan) : ∃ x y : ℝ, dx = .fin x ∧ dy = .fin y ∧
      0 < √(x ^ 2 + y ^ 2) ∧ √(x ^ 2 + y ^ 2) ≤ 2 * |R| := by
  obtain ⟨hnz, hlt⟩ := h
  cases hd : DataArith.hypot dx dy with
  | fin v =>
    obtain ⟨x, y, rfl, rfl, rfl⟩ := hypot_eq_fin hd
    rw [hd, nonzero_def] at hnz
    rw [hd, sq_fin, sq_fin, num_def, num_def, Rat.cast_ofNat, div_of_ne (by norm_num), sub_def,
      Bool.eq_false_iff, Ne, lt_def, Rat.cast_zero, not_lt] at hlt
    refine ⟨x, y, rfl, rfl, lt_of_le_of_ne (Real.sqrt_nonneg _) hnz.symm, ?_⟩
    refine abs_le_of_sq_le_sq' ?_ (by positivity) |>.2
    rw [mul_pow, sq_abs]
    linarith
  | posInf =>
    rw [hd, sq_fin, pow_posInf, num_def 4, posInf_div (by norm_num)] at hlt
    cases hlt
  | negInf => exact absurd hd (hypot_ne_negInf dx dy)
  | nan => exact absurd hd hn

/-- Where the radius does not define a centre, none is found. -/
theorem radiusCenter_undefined {type : BlockType} {R x0 y0 x y : ℝ} (hR : R ≠ 0)
    (h : ¬ RadiusDefined (.fin R : XReal) (.fin x - .fin x0) (.fin y - .fin y0)) :
    Block.radiusCenter type (.fin R : XReal) (.fin x0) (.fin y0) (.fin x) (.fin y)
      (.fin x - .fin x0) (.fin y - .fin y0) = (.nan, .nan) := by
  have hd : (DataArith.hypot (.fin x - .fin x0) (.fin y - .fin y0) : XReal) =
      .fin (chord x0 y0 x y) := by
    rw [sub_def, sub_def]
    rfl
  have h4 : (DataArith.pow (.fin R) (num 2) - DataArith.pow (.fin (chord x0 y0 x y)) (num 2) / num 4 :
      XReal) = .fin (R ^ 2 - chord x0 y0 x y ^ 2 / 4) := by
    rw [sq_fin, sq_fin, num_def, Rat.cast_ofNat, div_of_ne (by norm_num), sub_def]
  rw [RadiusDefined, hd, h4, num_def, Rat.cast_zero, not_and_or, nonzero_def, not_not,
    Bool.not_eq_false, lt_def] at h
  simp only [Block.radiusCenter, hd, h4]
  rcases h with h | h
  · -- the chord is empty, and so are its sides
    have hxy : x - x0 = 0 ∧ y - y0 = 0 := by
      rw [chord, Real.sqrt_eq_zero (by positivity)] at h
      constructor <;> nlinarith [sq_nonneg (x - x0), sq_nonneg (y - y0)]
    have hq : (DataArith.sqrt (.fin (R ^ 2 - chord x0 y0 x y ^ 2 / 4)) / .fin (chord x0 y0 x y) :
        XReal) = .posInf := by
      have hpos : 0 < √(R ^ 2) := Real.sqrt_pos.mpr (by positivity)
      rw [h, zero_pow two_ne_zero, zero_div, sub_zero, sqrt_of_nonneg (sq_nonneg R)]
      show Lib.XReal.div (.fin √(R ^ 2)) (.fin 0) = _
      rw [Lib.XReal.div, if_pos rfl, sign_pos hpos]
      rfl
    have hm : ∀ s : ℝ, (.fin s * .fin 0 * Lib.XReal.posInf : XReal) = .nan := by
      intro s
      rw [mul_def, mul_zero]
      show Lib.XReal.mul (.fin 0) .posInf = _
      simp [Lib.XReal.mul, Lib.XReal.sign, Lib.XReal.infOf]
    simp only [hq, sub_def, hxy.1, hxy.2, num_def, hm, sub_nan, add_nan]
  · have hq : (DataArith.sqrt (.fin (R ^ 2 - chord x0 y0 x y ^ 2 / 4)) / .fin (chord x0 y0 x y) :
        XReal) = .nan := by
      have hs : (DataArith.sqrt (.fin (R ^ 2 - chord x0 y0 x y ^ 2 / 4)) : XReal) = .nan := by
        show Lib.XReal.sqrt _ = _
        rw [Lib.XReal.sqrt, if_pos h]
      rw [hs]
      rfl
    simp only [hq, mul_nan, sub_nan, add_nan]

/-- Between points that are no numbers no centre is found. -/
theorem radiusCenter_of_chord {type : BlockType} {x0 y0 x y dx dy : XReal} {h : ℝ}
    (hd : ∀ v, DataArith.hypot dx dy ≠ .fin v) :
    Block.radiusCenter type (.fin h) x0 y0 x y dx dy = (.nan, .nan) := by
  have hq : DataArith.sqrt (DataArith.pow (.fin h) (num 2) -
      DataArith.pow (DataArith.hypot dx dy) (num 2) / num 4) / DataArith.hypot dx dy = .nan := by
    rw [sq_fin]
    cases hc : DataArith.hypot dx dy with
    | fin v => exact absurd hc (hd v)
    | posInf =>
      rw [pow_posInf, num_def 4, posInf_div (by norm_num)]
      rfl
    | negInf => exact absurd hc (hypot_ne_negInf dx dy)
    | nan => cases (DataArith.sqrt (.fin (h ^ 2) - DataArith.pow .nan (num 2) / num 4) : XReal) <;> rfl
  simp only [Block.radiusCenter, hq, mul_nan, sub_nan, add_nan]

/-- The points differ, and a circle of radius `|R|` passes through both. -/
def ChordFits (R : ℝ) (x0 y0 x y : XReal) : Prop :=
  ∃ x0' y0' x' y' : ℝ, x0 = .fin x0' ∧ y0 = .fin y0' ∧ x = .fin x' ∧ y = .fin y' ∧
    0 < chord x0' y0' x' y' ∧ chord x0' y0' x' y' ≤ 2 * |R|

/-- A radius that fits the chord gives a centre, any other one gives none. -/
theorem radiusCenter_cases (type : BlockType) {R : ℝ} (hR : R ≠ 0) (x0 y0 x y : XReal) :
    (∃ x0' y0' x' y' : ℝ, x0 = .fin x0' ∧ y0 = .fin y0' ∧ x = .fin x' ∧ y = .fin y' ∧
      0 < chord x0' y0' x' y' ∧ chord x0' y0' x' y' ≤ 2 * |R| ∧
      Block.radiusCenter type (.fin R) x0 y0 x y (x - x0) (y - y0) =
        (.fin (centerX type R x0' y0' x' y'), .fin (centerY type R x0' y0' x' y'))) ∨
    ¬ ChordFits R x0 y0 x y ∧
      Block.radiusCenter type (.fin R) x0 y0 x y (x - x0) (y - y0) = (.nan, .nan) := by
  by_cases hfits : ChordFits R x0 y0 x y
  · obtain ⟨x0', y0', x', y', rfl, rfl, rfl, rfl, hd, hle⟩ := hfits
    exact .inl ⟨_, _, _, _, rfl, rfl, rfl, rfl, hd, hle, radiusCenter_fin hR hd hle⟩
  refine .inr ⟨hfits, ?_⟩
  by_cases hfin : ∃ v, DataArith.hypot (x - x0) (y - y0) = .fin v
  · obtain ⟨v, hv⟩ := hfin
    obtain ⟨dx, dy, hdx, hdy, -⟩ := hypot_eq_fin hv
    obtain ⟨x, x0, rfl, rfl, rfl⟩ := sub_eq_fin hdx
    obtain ⟨y, y0, rfl, rfl, rfl⟩ := sub_eq_fin hdy
    refine radiusCenter_undefined hR fun hdef => hfits ?_
    obtain ⟨a, b, ha, hb, hd, hle⟩ := hdef.chord_le (by rw [hv]; simp)
    cases ha
    cases hb
    exact ⟨_, _, _, _, rfl, rfl, rfl, rfl, hd, hle⟩
  · exact radiusCenter_of_chord fun v hv => hfin ⟨v, hv⟩

section Parsed

variable {m : Machine XReal} {prev : Option (Block XReal)} {line : Line} {b c : Block XReal}

/-- What an arc stores that has got a length. -/
theorem stores_fin {x0 y0 x y r xc yc : XReal} {l : ℝ}
    (hst : Block.StoresArc x0 y0 x y r xc yc c) (hl : c.length = .fin l) (hl0 : 0 < l) :
    ∃ v θ0 θf, r = .fin v ∧ v ≠ 0 ∧ c.theta0 = .fin θ0 ∧
      DataArith.atan2 (y - yc) (x - xc) = .fin θf ∧
      c.dtheta = .fin (sweepAngle c.type θ0 θf) ∧ l = |sweepAngle c.type θ0 θf * v| := by
  have hr : ∃ v, r = .fin v := by
    obtain ⟨hn, hi⟩ := hst.valid
    cases r with
    | fin v => exact ⟨v, rfl⟩
    | posInf => cases hi
    | negInf => cases hi
    | nan => cases hn
  obtain ⟨v, rfl⟩ := hr
  rw [hst.length] at hl
  obtain ⟨w, hw, rfl⟩ := fabs_eq_fin hl
  obtain ⟨dθ, v', hdθ, hv', rfl⟩ := mul_eq_fin hw
  cases hv'
  have hv0 : v ≠ 0 := by rintro rfl; simp at hl0
  have hsw := hst.dtheta.symm.trans hdθ
  obtain ⟨θ0, θf, hθ0, hθf, rfl⟩ := sweep_eq_fin (by rw [hst.theta0]; exact atan2_cases _ _)
    (atan2_cases _ _) hsw
  exact ⟨v, θ0, θf, rfl, hv0, hθ0, hθf, hdθ, rfl⟩

/-- A direction that is a number leads from one number to another, or to infinity. -/
theorem ne_nan_of_atan2 {x0 y0 xc yc : XReal} {v : ℝ}
    (h : DataArith.atan2 (y0 - yc) (x0 - xc) = .fin v) : xc ≠ .nan ∧ yc ≠ .nan := by
  constructor
  · rintro rfl
    rw [sub_nan] at h
    cases h1 : (y0 - yc) <;> rw [h1] at h <;> cases h
  · rintro rfl
    rw [sub_nan] at h
    cases h

/-- An arc that has got a length is one that its inputs describe. -/
theorem exists_arcOf (hb : Block.Constructed line prev b)
    (h : (Block.parse m prev).run b = .ok () c) (hty : c.type.IsArc) {l : ℝ}
    (hl : c.length = .fin l) (hl0 : 0 < l) : ∃ a, ArcOf c.type (Block.origin m prev) c.target (ownWord 'R' line) (ownWord 'I' line)
      (ownWord 'J' line) a := by
  obtain ⟨x0, y0, z0, x, y, z, r, xc, yc, h0, ht, hcen, hst⟩ := Block.arc_of_parse hb h hty
  obtain ⟨v, θ0, θf, rfl, hv0, hθ0, hθf, -, rfl⟩ := stores_fin hst hl hl0
  rw [hst.theta0] at hθ0
  by_cases hnz : DataArith.nonzero (ownWord 'R' line : XReal) = true
  · rw [Block.CenterOf, if_pos hnz] at hcen
    obtain ⟨hRv, hc⟩ := hcen
    rw [← hRv] at hc
    rcases radiusCenter_cases _ hv0 x0 y0 x y with
      ⟨_, _, _, _, rfl, rfl, rfl, rfl, hpos, hle, -⟩ | ⟨-, hnan⟩
    · exact ⟨_, .radius hv0 hpos hle hty hRv.symm h0 ht⟩
    · exact absurd (congrArg Prod.fst (hc.trans hnan)) (ne_nan_of_atan2 hθ0).1
  · rw [Block.CenterOf, if_neg hnz] at hcen
    obtain ⟨hRv, hc, -⟩ := hcen
    cases hc
    obtain ⟨i, j, hI, hJ, rfl⟩ := hypot_eq_fin hRv.symm
    have hR0 := eq_zero_of_nonzero hnz
    rw [hI, hJ] at hθ0 hθf
    have hx0 : ∃ u, x0 = .fin u := by
      cases x0 with
      | fin u => exact ⟨u, rfl⟩
      | _ => exfalso; cases h1 : (y0 - (y0 + .fin j)) <;> rw [h1] at hθ0 <;> cases hθ0
    have hy0 : ∃ u, y0 = .fin u := by
      cases y0 with
      | fin u => exact ⟨u, rfl⟩
      | _ => exfalso; cases hθ0
    obtain ⟨u, rfl⟩ := hx0
    obtain ⟨w, rfl⟩ := hy0
    have hx : u - (u + i) = -i := by ring
    have hy : w - (w + j) = -j := by ring
    rw [add_def, add_def, sub_def, sub_def, atan2_def, hx, hy] at hθ0
    cases hθ0
    rw [add_def, add_def] at hθf
    have hturn : c.type ≠ .cwa → turn (Complex.arg ⟨-i, -j⟩) θf ≠ 0 := by
      rw [← sweepAngle_ne_zero (Complex.neg_pi_lt_arg _) (atan2_eq_fin hθf)]
      intro hs
      rw [hs] at hl0
      simp at hl0
    exact ⟨_, .center (lt_of_le_of_ne (Real.sqrt_nonneg _) hv0.symm) (atan2_eq_fin hθf) hturn hty
      hR0 hI hJ h0 ht hθf⟩

/-- The centre of an arc between points that are numbers is a point. -/
theorem center_fin {m : Machine XReal} {type : BlockType} {R I J xc yc : XReal}
    {x0 y0 x y v θ : ℝ} (hv : v ≠ 0)
    (h : Block.CenterOf m type R I J (.fin x0) (.fin y0) (.fin x) (.fin y) (.fin v) xc yc)
    (hθ : DataArith.atan2 (.fin y0 - yc) (.fin x0 - xc) = .fin θ) :
    ∃ xc' yc', xc = .fin xc' ∧ yc = .fin yc' := by
  rw [Block.CenterOf] at h
  split at h
  · obtain ⟨hR, hc⟩ := h
    rw [← hR] at hc
    rcases radiusCenter_cases _ hv (.fin x0) (.fin y0) (.fin x) (.fin y) with
      ⟨_, _, _, _, -, -, -, -, -, -, hcen⟩ | ⟨-, hnan⟩
    · cases hc.trans hcen
      exact ⟨_, _, rfl, rfl⟩
    · exact absurd (congrArg Prod.fst (hc.trans hnan)) (ne_nan_of_atan2 hθ).1
  · obtain ⟨hr, hc, -⟩ := h
    obtain ⟨i, j, rfl, rfl, -⟩ := hypot_eq_fin hr.symm
    cases hc
    exact ⟨_, _, rfl, rfl⟩

/-- An arc between points that are numbers, of a length that is a number. -/
theorem exists_hasArc (h : (Block.parse m prev).run b = .ok () c) (hty : c.type.IsArc)
    {x0 y0 x y l : ℝ} {z0 z : XReal} (h0 : Block.origin m prev = .ofCoords (.fin x0) (.fin y0) z0)
    (h1 : c.target = .ofCoords (.fin x) (.fin y) z) (hl : c.length = .fin l) (hl0 : 0 < l) :
    ∃ a, HasArc c a := by
  obtain ⟨x0', y0', z0', x', y', z', r, xc, yc, h0', h1', hcen, hst⟩ := Block.arc_of_inputs h hty
  cases h0.symm.trans h0'
  cases h1.symm.trans h1'
  obtain ⟨v, θ0, θf, rfl, hv0, hθ0, -, hdθ, rfl⟩ := stores_fin hst hl hl0
  obtain ⟨xc, yc, rfl, rfl⟩ := center_fin hv0 hcen (hst.theta0.symm.trans hθ0)
  have hs : sweepAngle c.type θ0 θf ≠ 0 := by
    intro hs
    simp [hs] at hl0
  refine ⟨⟨xc, yc, |v|, θ0, sweepAngle c.type θ0 θf, abs_pos.mpr hv0, hs⟩, hst.center.1,
    hst.center.2, hst.r.trans (fabs_def v), hθ0, hdθ, ?_⟩
  rw [hl, abs_mul]
  rfl

end Parsed

end

end Cncpp
