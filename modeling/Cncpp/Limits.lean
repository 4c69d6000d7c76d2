import Cncpp.Modal
import Cncpp.Plan

/-! The kinematic limits of an interpolated block: its speed stays within its
feedrate, its acceleration within that of the machine. -/

namespace Cncpp

open DataArith Lib XReal

noncomputable section

/-- The feedrate, in mm/min, that an arc of radius `r` allows. -/
def arcFeed (A r : ℝ) : ℝ := √(A * r) * 60

theorem arcLimit_fin {A r : ℝ} (hA : 0 < A) (hr : 0 ≤ r) :
    Block.arcLimit (.fin A : XReal) (.fin r) = .fin (arcFeed A r) := by
  have hx : A * A * r * r = (A * r) ^ 2 := by ring
  have hpow : ((A * r) ^ 2) ^ ((1 : ℝ) / 4) = √(A * r) := by
    rw [Real.sqrt_eq_rpow, ← Real.rpow_natCast, ← Real.rpow_mul (by positivity)]
    norm_num
  have hp : (DataArith.pow (.fin (A * A * r * r)) (num (1 / 4)) : XReal) = .fin √(A * r) := by
    show XReal.pow _ _ = _
    rw [num_def, XReal.pow, if_neg (by norm_num)]
    split
    · next h0 =>
      rw [if_neg (by norm_num)]
      rw [hx, sq_eq_zero_iff] at h0
      rw [h0, Real.sqrt_zero]
    · next h0 =>
      rw [if_neg (by rw [hx]; intro h; exact absurd h.1 (not_lt.mpr (sq_nonneg _)))]
      rw [hx]
      norm_num at hpow ⊢
      exact hpow
  simp only [Block.arcLimit, mul_def]
  rw [hp, num_def, mul_def, arcFeed]
  norm_num

theorem min_fin (a b : ℝ) :
    (DataArith.min (.fin a) (.fin b) : XReal) = .fin (min a b) := by
  unfold DataArith.min
  split
  · next h => rw [min_eq_right ((lt_def b a).mp h).le]
  · next h => rw [min_eq_left (not_lt.mp (fun h' => h ((lt_def b a).mpr h')))]

/-- The effective feedrate of a block with feedrate `F`, for arcs of radius `r`. -/
def effectiveFeed (type : BlockType) (A F r : ℝ) : ℝ :=
  if type = .line then F else min F (arcFeed A r)

theorem effectiveFeed_le (type : BlockType) (A F r : ℝ) : effectiveFeed type A F r ≤ F := by
  unfold effectiveFeed
  split
  · exact le_rfl
  · exact min_le_left _ _

theorem effectiveFeed_pos {type : BlockType} {A F r : ℝ} (hA : 0 < A) (hF : 0 < F)
    (hr : type ≠ .line → 0 < r) : 0 < effectiveFeed type A F r := by
  unfold effectiveFeed
  split
  · exact hF
  · next ht =>
    exact lt_min hF (mul_pos (Real.sqrt_pos.mpr (mul_pos hA (hr ht))) (by norm_num))

section Parsed

variable {m : Machine XReal} {prev : Option (Block XReal)} {b c : Block XReal}
  {A tq l F r : ℝ}

/-- The law behind the profile of a block with a positive length and feedrate. -/
theorem law_of_parse (h : (Block.parse m prev).run b = .ok () c) (ht : c.type.Interpolated)
    (hA : m.A = .fin A) (hA0 : 0 < A) (htq : m.tq = .fin tq) (htq0 : 0 < tq)
    (hl : c.length = .fin l) (hl0 : 0 < l) (hF : c.feedrate = .fin F) (hF0 : 0 < F)
    (hr : c.type ≠ .line → c.r = .fin r ∧ 0 < r) :
    ∃ hf : 0 < effectiveFeed c.type A F r / 60,
      let G : Leg := ⟨l, A, tq, hl0, hA0, htq0⟩
      c.parsed = true ∧ c.arcFeedrate = .fin (effectiveFeed c.type A F r) ∧
      c.profile = ofLaw (G.law _ hf) (nextTick tq (G.travel (effectiveFeed c.type A F r / 60))) := by
  obtain ⟨hpar, hacc, hprof, harc⟩ := Block.profile_of_parse h ht
  have hf0 : 0 < effectiveFeed c.type A F r := effectiveFeed_pos hA0 hF0 (fun h => (hr h).2)
  have hfeed : c.arcFeedrate = .fin (effectiveFeed c.type A F r) := by
    rw [harc, hF, hA, effectiveFeed]
    split
    · rfl
    · next hne => rw [(hr hne).1, arcLimit_fin hA0 (hr hne).2.le, min_fin]
  have hdiv : c.arcFeedrate / num 60 = .fin (effectiveFeed c.type A F r / 60) := by
    rw [hfeed, num_def, Rat.cast_ofNat, div_of_ne (by norm_num)]
  have hf : 0 < effectiveFeed c.type A F r / 60 := by positivity
  refine ⟨hf, hpar, hfeed, ?_⟩
  rw [hprof, hl, hacc, hA, hdiv]
  exact motionProfile_law (G := ⟨l, A, tq, hl0, hA0, htq0⟩) htq hf

/-- Kinematic limits: at every time the speed of the block lies between zero and
its effective feedrate, the acceleration within that of the machine, and on arcs
the centripetal acceleration too; on a long block rounding costs the cruise speed
at most one tick. -/
theorem kinematic_limits (h : (Block.parse m prev).run b = .ok () c) (ht : c.type.Interpolated)
    (hA : m.A = .fin A) (hA0 : 0 < A) (htq : m.tq = .fin tq) (htq0 : 0 < tq)
    (hl : c.length = .fin l) (hl0 : 0 < l) (hF : c.feedrate = .fin F) (hF0 : 0 < F)
    (hr : c.type ≠ .line → c.r = .fin r ∧ 0 < r) :
    ∃ fa : ℝ, c.arcFeedrate = .fin fa ∧ fa ≤ F ∧
      (∀ t, ∃ lam s a : ℝ, c.lambda t = .ok ⟨.fin lam, .fin s, .fin a⟩ ∧
        0 ≤ s ∧ s ≤ fa ∧ |a| ≤ A ∧ (c.type ≠ .line → (s / 60) ^ 2 / r ≤ A)) ∧
      (0 < l / (fa / 60) - (fa / 60 / A + fa / 60 / A) / 2 →
        ∃ v, c.profile.f = .fin v ∧ fa / 60 * l / (l + fa / 60 * tq) ≤ v) := by
  obtain ⟨hf, hpar, hfeed, hprof⟩ := law_of_parse h ht hA hA0 htq htq0 hl hl0 hF hF0 hr
  set G : Leg := ⟨l, A, tq, hl0, hA0, htq0⟩
  set fa := effectiveFeed c.type A F r with hfa
  set T := G.law (fa / 60) hf with hT
  have hv : T.v ≤ fa / 60 := G.law_v_le hf
  refine ⟨fa, hfeed, effectiveFeed_le _ _ _ _, fun t => ?_, fun hlong => ?_⟩
  · obtain ⟨t', ht'⟩ := phase_real_time T (nextTick tq (G.travel (fa / 60))) t
    have hs0 := T.speed_nonneg t'
    have hs := (T.speed_le t').trans hv
    refine ⟨T.dist t' / T.length, T.speed t' * 60, T.acc t', ?_, by positivity, by linarith,
      T.abs_acc_le t' (G.law_acc_le hf).1 (G.law_acc_le hf).2, fun hne => ?_⟩
    · rw [Block.lambda, if_pos hpar, hprof, Profile.lambda, ht', phase_ofLaw]
      simp [ofLaw, T.length_pos.ne']
    · have hr0 := (hr hne).2
      have hle : T.speed t' ≤ √(A * r) := by
        have : fa ≤ arcFeed A r := by
          rw [hfa, effectiveFeed, if_neg hne]
          exact min_le_right _ _
        rw [arcFeed] at this
        linarith
      rw [div_le_iff₀ hr0, mul_div_cancel_right₀ _ (by norm_num : (60 : ℝ) ≠ 0)]
      calc T.speed t' ^ 2 ≤ √(A * r) ^ 2 := by gcongr
        _ = A * r := Real.sq_sqrt (by positivity)
  · have hlong' : (fa / 60) ^ 2 < G.l * G.A := (G.long_iff hf).mp hlong
    refine ⟨T.v, by rw [hprof]; rfl, ?_⟩
    have hTt : T = G.trapezoid (fa / 60) hf hlong' := by rw [hT, Leg.law, dif_pos hlong']
    rw [hTt]
    exact (G.trapezoid_v_mem hf hlong').1

end Parsed

/-! A short program of one line, on the default machine. -/

def sampleLine : Line := "G1 X10 F100".toList

theorem default_limits : (Machine.default : Machine XReal).A = .fin 5 ∧
    (Machine.default : Machine XReal).tq = .fin (1 / 1000) := by
  constructor <;> simp [Machine.default]

theorem origin_default : Block.origin (.default : Machine XReal) none =
    .ofCoords (.fin 0) (.fin 0) (.fin 0) := by
  simp [Block.origin, Machine.default]

theorem sample_parsed : ∃ c : Block XReal,
    (Block.parse Machine.default none).run (Block.ofLine 0 sampleLine) = .ok () c ∧
      c.type = .line ∧ c.length = .fin 10 ∧ c.feedrate = .fin 100 := by
  have hb : Block.Constructed sampleLine none (Block.ofLine (K := XReal) 0 sampleLine) := .first 0
  obtain ⟨c, h⟩ := Block.exists_parse (m := Machine.default) hb (by decide +kernel) (by simp) rfl
    (by decide +kernel)
  have hm : ModalState Machine.default ([] ++ [sampleLine]) c := Block.modal_of_parse hb rfl h
  have ht : c.type = .line := by rw [Block.type_of_parse hb h]; decide +kernel
  have hx : lastOf (numeralWord 'X') (wordsOf ([] ++ [sampleLine])) = some (.finite 10) := by
    decide +kernel
  have hy : lastOf (numeralWord 'Y') (wordsOf ([] ++ [sampleLine])) = none := by decide +kernel
  have hz : lastOf (numeralWord 'Z') (wordsOf ([] ++ [sampleLine])) = none := by decide +kernel
  have hF : lastOf (numeralWord 'F') (wordsOf ([] ++ [sampleLine])) = some (.finite 100) := by
    decide +kernel
  obtain ⟨x0, y0, z0, x, y, z, h0, htgt, -, -, hlen⟩ := Block.points_of_parse h
  have htgt' : c.target = .ofCoords (.fin 10) (.fin 0) (.fin 0) := by
    rw [hm.target, modalTarget, lastOf_dataWord, lastOf_dataWord, lastOf_dataWord, hx, hy, hz]
    simp [Machine.default, Point.ofCoords, ofNumeral]
  cases htgt.symm.trans htgt'
  cases h0.symm.trans origin_default
  refine ⟨c, h, ht, ?_, ?_⟩
  · have hna : ¬ c.type.IsArc := by rw [ht]; decide
    rw [hlen hna]
    simp
  · rw [hm.feedrate, modalWord, lastOf_dataWord, hF]
    simp [ofNumeral]

theorem kinematic_limits_sample : ∃ c : Block XReal,
    (Block.parse Machine.default none).run (Block.ofLine 0 sampleLine) = .ok () c ∧
      ∃ fa : ℝ, c.arcFeedrate = .fin fa ∧ fa ≤ 100 ∧
        (∀ t, ∃ lam s a : ℝ, c.lambda t = .ok ⟨.fin lam, .fin s, .fin a⟩ ∧
          0 ≤ s ∧ s ≤ fa ∧ |a| ≤ 5 ∧ (c.type ≠ .line → (s / 60) ^ 2 / 1 ≤ 5)) ∧
        (0 < 10 / (fa / 60) - (fa / 60 / 5 + fa / 60 / 5) / 2 →
          ∃ v, c.profile.f = .fin v ∧ fa / 60 * 10 / (10 + fa / 60 * (1 / 1000)) ≤ v) := by
  obtain ⟨c, h, ht, hl, hF⟩ := sample_parsed
  obtain ⟨hA, htq⟩ := default_limits
  have hint : c.type.Interpolated := .inl ht
  exact ⟨c, h, kinematic_limits h hint hA (by norm_num) htq (by norm_num) hl (by norm_num) hF
    (by norm_num) (fun hne => absurd ht hne)⟩

end

end Cncpp
