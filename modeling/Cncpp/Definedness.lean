import Cncpp.Arcs
import Cncpp.Limits

/-! When the motion profile of a block is well defined: no division by zero, no root
of a negative number, no conversion to `size_t` that is out of range, and a progress
between 0 and 1 at every time.  `parse` does not check it; it holds for the blocks
that have a path with a length and a feed that fits it. -/

namespace Cncpp

open DataArith Lib

section Defined

variable {K : Type} [DataArith K]

/-- The value can be converted to `size_t`. -/
def CastDefined (v : K) : Prop := le (num 0) v = true ∧ lt v (num (2 ^ 64)) = true

def QuantizeDefined (m : Machine K) (t : K) : Prop :=
  nonzero m.tq = true ∧ CastDefined (t / m.tq + num 1)

/-- The operations of `compute`, branch by branch. -/
def ComputeDefined (m : Machine K) (l A fM : K) : Prop :=
  let dt1 := fM / A
  let dtM := l / fM - (dt1 + dt1) / num 2
  nonzero A = true ∧ nonzero fM = true ∧
  if lt (num 0) dtM then
    let dtM' := dtM + (m.quantize (dt1 + dtM + dt1)).2
    QuantizeDefined m (dt1 + dtM + dt1) ∧ nonzero (dt1 + dt1 + num 2 * dtM') = true ∧
      nonzero dt1 = true
  else
    let dt1 := sqrt (l / A)
    let dt2 := dt1 + (m.quantize (dt1 + dt1)).2
    lt (l / A) (num 0) = false ∧ QuantizeDefined m (dt1 + dt1) ∧
      nonzero (dt1 + dt2) = true ∧ nonzero dt1 = true ∧ nonzero dt2 = true

/-- The progress at time `t` is a number between 0 and 1. -/
def LambdaDefined (p : Profile K) (t : K) : Prop :=
  nonzero p.l = true ∧ le (num 0) (p.lambda t).lambda = true ∧
    le (p.lambda t).lambda (num 1) = true

/-- The block `c` made of `line` has a well-defined motion profile. -/
structure ProfileDefined (m : Machine K) (line : Line) (c : Block K) : Prop where
  arc : c.type.IsArc → nonzero (ownWord 'R' line : K) = true →
    ∀ dx dy dz, c.delta = .ofCoords dx dy dz → RadiusDefined (ownWord 'R' line) dx dy
  compute : ComputeDefined m c.length c.acc (c.arcFeedrate / num 60)
  lambda : ∀ t, LambdaDefined c.profile t

end Defined

open XReal

noncomputable section

/-! ## Feeds -/

/-- The feeds, in mm/s, for which the short branch is taken. -/
def ShortFeed (G : Leg) (fM : XReal) : Prop :=
  fM = .nan ∨ fM = .posInf ∨
    ∃ f, fM = .fin f ∧ (0 < f ∧ G.l * G.A ≤ f ^ 2 ∨ f < 0 ∧ f ^ 2 ≤ G.l * G.A)

/-- The feed fits the path: the planned duration is defined, and its ticks can be
counted. -/
def FeedFits (G : Leg) (fM : XReal) : Prop :=
  (∃ f, fM = .fin f ∧ 0 < f ∧ f ^ 2 < G.l * G.A ∧
    (G.l / f + f / G.A) / G.tq + 1 < 2 ^ 64) ∨
  ShortFeed G fM ∧ 2 * √(G.l / G.A) / G.tq + 1 < 2 ^ 64

/-- The law of a block with feed `fM`. -/
def Leg.lawOf (G : Leg) : XReal → Trapezoid
  | .fin f => if h : 0 < f then G.law f h else G.triangle
  | _ => G.triangle

/-- The middle phase before it is rounded. -/
theorem long_phase (G : Leg) {f : ℝ} (hf : f ≠ 0) :
    (.fin G.l / .fin f - (.fin f / .fin G.A + .fin f / .fin G.A) / num 2 : XReal) =
      .fin (G.l / f - f / G.A) := by
  have he : (f / G.A + f / G.A) / 2 = f / G.A := by ring
  rw [div_of_ne hf, div_of_ne G.A_pos.ne', add_def, num_def, Rat.cast_ofNat,
    div_of_ne (by norm_num), sub_def, he]

/-- The feeds for which the long branch is taken. -/
theorem long_branch_iff (G : Leg) {f : ℝ} (hf : f ≠ 0) :
    DataArith.lt (num 0 : XReal) (.fin (G.l / f - f / G.A)) = true ↔
      0 < f ∧ f ^ 2 < G.l * G.A ∨ f < 0 ∧ G.l * G.A < f ^ 2 := by
  have hA := G.A_pos
  rw [num_def, lt_def, Rat.cast_zero, sub_pos]
  rcases lt_or_gt_of_ne hf with h | h
  · rw [← neg_lt_neg_iff, ← div_neg, ← neg_div, div_lt_div_iff₀ (neg_pos.mpr h) hA]
    constructor
    · intro h'
      exact .inr ⟨h, by nlinarith⟩
    · rintro (⟨h', -⟩ | ⟨-, h'⟩)
      · exact absurd h' (not_lt.mpr h.le)
      · nlinarith
  · rw [div_lt_div_iff₀ hA h, ← sq]
    constructor
    · intro h'
      exact .inl ⟨h, h'⟩
    · rintro (⟨-, h'⟩ | ⟨h', -⟩)
      · exact h'
      · exact absurd h' (not_lt.mpr h.le)

theorem short_of_shortFeed {G : Leg} {fM : XReal} (h : ShortFeed G fM) :
    DataArith.lt (num 0) (.fin G.l / fM - (fM / .fin G.A + fM / .fin G.A) / num 2) = false := by
  have hA := G.A_pos
  rcases h with rfl | rfl | ⟨f, rfl, hf⟩
  · rfl
  · have h2 : (Lib.XReal.posInf + Lib.XReal.posInf : XReal) = .posInf := rfl
    rw [posInf_div hA, h2, num_def 2, posInf_div (by norm_num)]
    rfl
  · have hf0 : f ≠ 0 := by
      rcases hf with ⟨h, -⟩ | ⟨h, -⟩
      · exact h.ne'
      · exact h.ne
    rw [long_phase G hf0, Bool.eq_false_iff, Ne, long_branch_iff G hf0]
    rintro (⟨h, h'⟩ | ⟨h, h'⟩) <;> rcases hf with ⟨hf, hle⟩ | ⟨hf, hle⟩ <;> linarith

/-! ## A fitting feed is enough -/

section Fits

variable {m : Machine XReal} {G : Leg} {fM : XReal}

theorem motionProfile_fits (htq : m.tq = .fin G.tq) (h : FeedFits G fM) :
    Block.motionProfile m (.fin G.l) (.fin G.A) fM =
      ofLaw (G.lawOf fM) (G.lawOf fM).duration := by
  rcases h with ⟨f, rfl, hf, -, -⟩ | ⟨hs, -⟩
  · rw [Leg.lawOf, dif_pos hf, G.law_duration hf]
    exact motionProfile_law htq hf
  · have hlaw : G.lawOf fM = G.triangle := by
      rcases hs with rfl | rfl | ⟨f, rfl, hf⟩
      · rfl
      · rfl
      · rw [Leg.lawOf]
        split
        · next h0 =>
          rw [Leg.law, dif_neg]
          rcases hf with ⟨-, hl⟩ | ⟨hf, -⟩
          · exact not_lt.mpr hl
          · linarith
        · rfl
    rw [hlaw, G.triangle_duration]
    exact motionProfile_triangle htq (short_of_shortFeed hs)

theorem castDefined_fin {v : ℝ} :
    CastDefined (.fin v : XReal) ↔ 0 ≤ v ∧ v < 2 ^ 64 := by
  have h64 : ((2 ^ 64 : ℚ) : ℝ) = 2 ^ 64 := by norm_num
  rw [CastDefined, num_def, num_def, le_def, lt_def, Rat.cast_zero, h64]

theorem quantizeDefined_fin (htq : m.tq = .fin G.tq) {t : ℝ} :
    QuantizeDefined m (.fin t) ↔ 0 ≤ t / G.tq + 1 ∧ t / G.tq + 1 < 2 ^ 64 := by
  have hq := G.tq_pos.ne'
  rw [QuantizeDefined, htq, div_of_ne hq, num_def, Rat.cast_one, add_def, castDefined_fin,
    nonzero_def]
  exact and_iff_right hq

theorem computeDefined_fits (htq : m.tq = .fin G.tq) (h : FeedFits G fM) :
    ComputeDefined m (.fin G.l) (.fin G.A) fM := by
  have hl := G.l_pos
  have hA := G.A_pos
  have hq := G.tq_pos
  have hnA : DataArith.nonzero (.fin G.A : XReal) = true := (nonzero_def _).mpr hA.ne'
  rcases h with ⟨f, rfl, hf, hlong, htick⟩ | ⟨hs, htick⟩
  · have hM := (long_branch_iff G hf.ne').mpr (.inl ⟨hf, hlong⟩)
    have hsl := slack_pos hq (t := G.l / f + f / G.A)
    have hsum : f / G.A + (G.l / f - f / G.A) + f / G.A = G.l / f + f / G.A := by ring
    have hden : f / G.A + f / G.A + 2 * (G.l / f - f / G.A + slack G.tq (G.l / f + f / G.A)) =
        2 * (G.l / f + slack G.tq (G.l / f + f / G.A)) := by ring
    refine ⟨hnA, (nonzero_def _).mpr hf.ne', ?_⟩
    rw [long_phase G hf.ne', if_pos hM]
    simp only [div_of_ne hA.ne', add_def, hsum, quantize_fin htq hq, num_def, Rat.cast_ofNat,
      mul_def, hden, quantizeDefined_fin htq, nonzero_def]
    exact ⟨⟨by positivity, htick⟩, by positivity, by positivity⟩
  · have hr : 0 < √(G.l / G.A) := Real.sqrt_pos.mpr (div_pos hl hA)
    have hsl := slack_pos hq (t := 2 * √(G.l / G.A))
    have hsum : √(G.l / G.A) + √(G.l / G.A) = 2 * √(G.l / G.A) := by ring
    have hnf : DataArith.nonzero fM = true := by
      rcases hs with rfl | rfl | ⟨f, rfl, hf⟩
      · rfl
      · rfl
      · rw [nonzero_def]
        rcases hf with ⟨h, -⟩ | ⟨h, -⟩
        · exact h.ne'
        · exact h.ne
    refine ⟨hnA, hnf, ?_⟩
    rw [short_of_shortFeed hs, if_neg Bool.false_ne_true]
    simp only [div_of_ne hA.ne', sqrt_of_nonneg (div_pos hl hA).le, add_def, hsum,
      quantize_fin htq hq, num_def, Rat.cast_zero, quantizeDefined_fin htq, nonzero_def]
    refine ⟨?_, ⟨by positivity, htick⟩, by positivity, by positivity, by positivity⟩
    rw [Bool.eq_false_iff, Ne, lt_def]
    exact not_lt.mpr (div_pos hl hA).le

theorem lambdaDefined_ofLaw (T : Trapezoid) (dt : ℝ) (t : XReal) :
    LambdaDefined (ofLaw T dt) t := by
  have hl := T.length_pos
  obtain ⟨t', ht'⟩ := phase_real_time T dt t
  have hlam : ((ofLaw T dt).lambda t).lambda = .fin (T.dist t' / T.length) := by
    rw [Profile.lambda, ht', phase_ofLaw]
    exact div_of_ne hl.ne'
  rw [LambdaDefined, hlam, num_def, num_def, le_def, le_def, Rat.cast_zero, Rat.cast_one]
  refine ⟨(nonzero_def _).mpr hl.ne', div_nonneg T.dist_nonneg hl.le, ?_⟩
  rw [div_le_one hl]
  exact T.dist_le_length

end Fits

/-! ## A fitting feed is needed -/

section Needed

variable {m : Machine XReal} {G : Leg} {fM : XReal}

/-- In the end a profile has walked its whole length. -/
theorem lambda_posInf (p : Profile XReal) : (p.lambda .posInf).lambda = p.l / p.l := by
  have hlt : ∀ a : XReal, DataArith.lt .posInf a = false := by intro a; cases a <;> rfl
  simp [Profile.lambda, Profile.phase, hlt]

/-- A path has a length that is a number. -/
theorem length_pos_of_lambda {p : Profile XReal} (h : LambdaDefined p .posInf)
    (hl : ∀ l, p.l = .fin l → 0 ≤ l) : ∃ l, p.l = .fin l ∧ 0 < l := by
  obtain ⟨hnz, h0, -⟩ := h
  rw [lambda_posInf] at h0
  cases hp : p.l with
  | fin l =>
    rw [hp, nonzero_def] at hnz
    exact ⟨l, rfl, lt_of_le_of_ne (hl l hp) (Ne.symm hnz)⟩
  | posInf => rw [hp] at h0; cases h0
  | negInf => rw [hp] at h0; cases h0
  | nan => rw [hp] at h0; cases h0

theorem motionProfile_l (m : Machine XReal) (l A fM : XReal) :
    (Block.motionProfile m l A fM).l = l := by
  unfold Block.motionProfile
  dsimp only
  split <;> rfl

/-- Where a negative feed takes the long branch, the progress exceeds one. -/
theorem lambda_backward (htq : m.tq = .fin G.tq) {f : ℝ} (hf : f < 0) (hlong : G.l * G.A < f ^ 2) :
    ((Block.motionProfile m (.fin G.l) (.fin G.A) (.fin f)).lambda
      (.fin (-(3 * f / (4 * G.A))))).lambda = .fin (5 / 4) := by
  have hl := G.l_pos
  have hA := G.A_pos
  have hq := G.tq_pos
  have hlf : G.l / f < 0 := div_neg_of_pos_of_neg hl hf
  have hfA : f / G.A < 0 := div_neg_of_neg_of_pos hf hA
  have htick : nextTick G.tq (G.l / f + f / G.A) = 0 := by
    have h1 : (G.l / f + f / G.A) / G.tq + 1 < 1 := by
      have := div_neg_of_neg_of_pos (add_neg hlf hfA) hq
      linarith
    rw [nextTick, Nat.floor_eq_zero.mpr h1, Nat.cast_zero, zero_mul]
  have hM := (long_branch_iff G hf.ne).mpr (.inr ⟨hf, hlong⟩)
  have hsum : f / G.A + (G.l / f - f / G.A) + f / G.A = G.l / f + f / G.A := by ring
  have hmid : G.l / f - f / G.A + (0 - (G.l / f + f / G.A)) = -(2 * f / G.A) := by ring
  have hden : f / G.A + f / G.A + 2 * -(2 * f / G.A) = -(2 * f / G.A) := by ring
  have hden0 : -(2 * f / G.A) ≠ 0 := by
    have : 2 * f / G.A = 2 * (f / G.A) := by ring
    rw [this]
    linarith
  have hprof : Block.motionProfile m (.fin G.l) (.fin G.A) (.fin f) =
      Profile.ofPhases (.fin G.l) (.fin (2 * G.l / -(2 * f / G.A))) (.fin (f / G.A))
        (.fin (-(2 * f / G.A))) (.fin (f / G.A)) (.fin 0) := by
    rw [Block.motionProfile, long_phase G hf.ne]
    dsimp only
    rw [if_pos hM]
    simp only [div_of_ne hA.ne', add_def, hsum, quantize_fin htq hq, slack, htick, hmid, num_def,
      Rat.cast_ofNat, mul_def, hden, div_of_ne hden0]
  have ht0 : ¬ -(3 * f / (4 * G.A)) < 0 := by
    have : -(3 * f / (4 * G.A)) = -(3 / 4 * (f / G.A)) := by ring
    rw [this]
    linarith
  have ht1 : ¬ -(3 * f / (4 * G.A)) < f / G.A := by linarith
  have htM : -(3 * f / (4 * G.A)) < f / G.A + -(2 * f / G.A) := by
    have h1 : 3 * f / (4 * G.A) = 3 / 4 * (f / G.A) := by ring
    have h2 : 2 * f / G.A = 2 * (f / G.A) := by ring
    rw [h1, h2]
    linarith
  rw [hprof]
  simp only [Profile.lambda, Profile.phase, Profile.ofPhases, num_def, Rat.cast_zero,
    Rat.cast_ofNat, add_def, lt_def, if_neg ht0, if_neg ht1, if_pos htM]
  rw [sub_def, div_of_ne two_ne_zero, add_def, mul_def, div_of_ne hl.ne']
  congr 1
  have hne := hf.ne
  field_simp
  ring

/-- In the long branch the planned duration can be counted in ticks. -/
theorem quantize_of_long (htq : m.tq = .fin G.tq) {f : ℝ} (hf : 0 < f)
    (hlong : f ^ 2 < G.l * G.A) (hc : ComputeDefined m (.fin G.l) (.fin G.A) (.fin f)) :
    (G.l / f + f / G.A) / G.tq + 1 < 2 ^ 64 := by
  obtain ⟨-, -, hc⟩ := hc
  have hsum : f / G.A + (G.l / f - f / G.A) + f / G.A = G.l / f + f / G.A := by ring
  rw [long_phase G hf.ne', if_pos ((long_branch_iff G hf.ne').mpr (.inl ⟨hf, hlong⟩)),
    div_of_ne G.A_pos.ne', add_def, add_def, hsum, quantizeDefined_fin htq] at hc
  exact hc.1.2

theorem quantize_of_short (htq : m.tq = .fin G.tq) (hs : ShortFeed G fM)
    (hc : ComputeDefined m (.fin G.l) (.fin G.A) fM) :
    2 * √(G.l / G.A) / G.tq + 1 < 2 ^ 64 := by
  have hd := (div_pos G.l_pos G.A_pos).le
  have hsum : √(G.l / G.A) + √(G.l / G.A) = 2 * √(G.l / G.A) := by ring
  obtain ⟨-, -, hc⟩ := hc
  rw [short_of_shortFeed hs, if_neg Bool.false_ne_true] at hc
  obtain ⟨-, hq, -⟩ := hc
  rw [div_of_ne G.A_pos.ne', sqrt_of_nonneg hd, add_def, hsum, quantizeDefined_fin htq] at hq
  exact hq.2

theorem feedFits_of_defined (htq : m.tq = .fin G.tq)
    (hc : ComputeDefined m (.fin G.l) (.fin G.A) fM)
    (hlam : ∀ t, LambdaDefined (Block.motionProfile m (.fin G.l) (.fin G.A) fM) t) :
    FeedFits G fM := by
  have hl := G.l_pos
  have hA := G.A_pos
  have hshort : ShortFeed G fM → FeedFits G fM := fun hs =>
    .inr ⟨hs, quantize_of_short htq hs hc⟩
  cases fM with
  | nan => exact hshort (.inl rfl)
  | posInf => exact hshort (.inr (.inl rfl))
  | negInf =>
    -- the middle phase is infinite, and the duration is not a number
    exfalso
    obtain ⟨-, -, hc⟩ := hc
    have h1 : (Lib.XReal.negInf / .fin G.A : XReal) = .negInf := by
      show Lib.XReal.div .negInf (.fin G.A) = _
      simp [Lib.XReal.div, hA.ne', Lib.XReal.sign, sign_pos hA, Lib.XReal.infOf]
    have h2 : (Lib.XReal.negInf / num 2 : XReal) = .negInf := by
      show Lib.XReal.div .negInf (.fin ((2 : ℚ) : ℝ)) = _
      norm_num [Lib.XReal.div, Lib.XReal.sign, Lib.XReal.infOf]
    have h3 : (.fin G.l / Lib.XReal.negInf - (Lib.XReal.negInf + Lib.XReal.negInf) / num 2 :
        XReal) = .posInf := by
      show .fin 0 - Lib.XReal.negInf / num 2 = _
      rw [h2]
      rfl
    have h4 : DataArith.lt (num 0 : XReal) .posInf = true := rfl
    rw [h1, h3, if_pos h4] at hc
    obtain ⟨⟨-, hcast, -⟩, -⟩ := hc
    rw [htq] at hcast
    cases hcast
  | fin f =>
    have hf0 : f ≠ 0 := (nonzero_def f).mp hc.2.1
    rcases lt_or_gt_of_ne hf0 with hf | hf
    · by_cases hle : f ^ 2 ≤ G.l * G.A
      · exact hshort (.inr (.inr ⟨f, rfl, .inr ⟨hf, hle⟩⟩))
      · exfalso
        have hlong : G.l * G.A < f ^ 2 := not_le.mp hle
        obtain ⟨-, -, h1⟩ := hlam (.fin (-(3 * f / (4 * G.A))))
        rw [lambda_backward htq hf hlong, num_def, le_def] at h1
        norm_num at h1
    · by_cases hlt : f ^ 2 < G.l * G.A
      · exact .inl ⟨f, rfl, hf, hlt, quantize_of_long htq hf hlt hc⟩
      · exact hshort (.inr (.inr ⟨f, rfl, .inl ⟨hf, not_lt.mp hlt⟩⟩))

end Needed

end

end Cncpp
