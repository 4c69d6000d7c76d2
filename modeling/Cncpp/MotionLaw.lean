import Cncpp.Walking

/-! The profile of a block as a motion law.  Progress and speed match at every time, through the
bounds of the phases, and `walk` samples them at the ticks of the block. -/

namespace Cncpp

open DataArith Lib XReal

noncomputable section

/-! ## Progress and speed -/

/-- The profile moves over a path of length `l` in the time `dt`: `lam` is the progress and
`speed` the speed in mm/min. -/
structure MotionLaw (p : Profile XReal) (l dt : ℝ) (lam speed : ℝ → ℝ) : Prop where
  duration : p.dt = .fin dt
  sample : ∀ t, (p.lambda (.fin t)).lambda = .fin (lam t) ∧
    (p.lambda (.fin t)).speed = .fin (speed t)
  before : ∀ t ≤ 0, lam t = 0
  after : ∀ t, dt ≤ t → lam t = 1
  continuous : Continuous lam
  monotone : Monotone lam
  rest : speed 0 = 0 ∧ speed dt = 0
  continuous_speed : Continuous speed
  integral : ∀ s t, 0 ≤ s → s ≤ t → t ≤ dt → l * (lam t - lam s) = ∫ u in s..t, speed u / 60

section Law

variable {m : Machine XReal} {b : Block XReal} {A tq l F : ℝ} (T : Trapezoid)

theorem speed_ofLaw (dt t : ℝ) :
    ((ofLaw T dt).lambda (.fin t)).speed = .fin (T.speed t * 60) := by
  rw [Profile.lambda, phase_ofLaw]
  simp

/-- The profile of a law is consistent. -/
theorem motionLaw_ofLaw : MotionLaw (ofLaw T T.duration) T.length T.duration (progress T)
    (fun t => T.speed t * 60) where
  duration := rfl
  sample t := ⟨lambda_ofLaw T _ t, speed_ofLaw T _ t⟩
  before t ht := by rw [progress, T.dist_before ht, zero_div]
  after t ht := progress_after ht
  continuous := T.continuous_dist.div_const _
  monotone s t hst := div_le_div_of_nonneg_right (T.dist_mono hst) T.length_pos.le
  rest := by rw [T.speed_zero, T.speed_after le_rfl, zero_mul]; exact ⟨rfl, rfl⟩
  continuous_speed := T.continuous_speed.mul_const 60
  integral s t _ hst _ := by
    have hsix : ∀ u, T.speed u * 60 / 60 = T.speed u := fun u => by ring
    simp only [hsix, progress]
    rw [← T.dist_sub_eq_integral hst, ← sub_div, mul_div_cancel₀ _ T.length_pos.ne']

/-- `compute` stores the plan for its leg. -/
theorem compute_profile {G : Leg} (htq : m.tq = .fin G.tq) (hA : b.acc = .fin G.A)
    (hl : b.length = .fin G.l) (hF : b.arcFeedrate = .fin F) (hf : 0 < F / 60) :
    (Block.compute m b).profile = ofLaw (G.law (F / 60) hf) (G.law (F / 60) hf).duration := by
  show Block.motionProfile m b.length b.acc (b.arcFeedrate / num 60) = _
  rw [hl, hA, hF, num_def, Rat.cast_ofNat, div_of_ne (by norm_num), G.law_duration hf]
  exact motionProfile_law htq hf

/-- What `compute` plans is a motion over the length of the block. -/
theorem compute_motionLaw (htq : m.tq = .fin tq) (htq0 : 0 < tq) (hA : b.acc = .fin A) (hA0 : 0 < A)
    (hl : b.length = .fin l) (hl0 : 0 < l) (hF : b.arcFeedrate = .fin F) (hF0 : 0 < F) :
    ∃ dt lam speed, MotionLaw (Block.compute m b).profile l dt lam speed := by
  set G : Leg := ⟨l, A, tq, hl0, hA0, htq0⟩ with hG
  have hf : 0 < F / 60 := by positivity
  have hprof := compute_profile (G := G) htq hA hl hF hf
  have hlen : (G.law (F / 60) hf).length = l := G.law_length hf
  rw [hprof, ← hlen]
  exact ⟨_, _, _, motionLaw_ofLaw _⟩

/-- A path of 10 mm at 100 mm/min. -/
def plannedBlock : Block XReal :=
  { Block.ofLine 0 [] with length := .fin 10, acc := .fin 5, arcFeedrate := .fin 100 }

theorem compute_motionLaw_sample :
    ∃ dt lam speed, MotionLaw (Block.compute .default plannedBlock).profile 10 dt lam speed :=
  compute_motionLaw (b := plannedBlock) default_limits.2 (by norm_num) rfl
    (by norm_num) rfl (by norm_num) rfl (by norm_num)

end Law

/-! ## The ticks of a block -/

/-- What `walk` calls its function with: the ticks `0` to `k`, at rest at both ends, and
further along the path at each of them. -/
structure Walked (tq : ℝ) (k : ℕ) (visits : List (XReal × Sample XReal)) (lam : ℕ → ℝ) : Prop where
  calls : visits.length = k + 1
  times : visits.map (·.1) = (List.range (k + 1)).map fun i : ℕ => .fin (i * tq)
  lambdas : visits.map (·.2.lambda) = (List.range (k + 1)).map fun i => .fin (lam i)
  first : lam 0 = 0 ∧ visits.head?.map (·.2.speed) = some (.fin 0)
  last : lam k = 1 ∧ visits.getLast?.map (·.2.speed) = some (.fin 0)
  increasing : ∀ i, i < k → lam i < lam (i + 1)

section Walk

variable {m : Machine XReal} {b : Block XReal} {A tq l F : ℝ} {T : Trapezoid} {k : ℕ}

/-- A law that lasts some ticks lasts one at least. -/
theorem Ticks.pos (h : Ticks tq b T k) : 0 < k := by
  rcases Nat.eq_zero_or_pos k with rfl | hk
  · have hd : 0 < T.duration := by
      rw [Trapezoid.duration]
      linarith [T.t1_pos, T.tm_nonneg, T.t2_pos]
    rw [h.duration, Nat.cast_zero, zero_mul] at hd
    exact absurd hd (lt_irrefl 0)
  · exact hk

theorem Ticks.walked (h : Ticks tq b T k) (htq0 : 0 < tq) :
    Walked tq k ((List.range' 0 (k + 1)).map fun i : ℕ =>
      (.fin (i * tq), b.profile.lambda (.fin (i * tq)))) (fun i => progress T (i * tq)) := by
  have hspeed : ∀ i : ℕ, (b.profile.lambda (.fin (i * tq))).speed = .fin (T.speed (i * tq) * 60) := by
    intro i
    rw [h.profile, speed_ofLaw]
  rw [← List.range_eq_range']
  refine ⟨by simp, by simp, ?_, ⟨?_, ?_⟩, ⟨?_, ?_⟩, fun i hi => ?_⟩
  · rw [List.map_map]
    exact List.map_congr_left fun i _ => (h.lambda (i * tq)).2
  · rw [Nat.cast_zero, zero_mul, progress_zero]
  · rw [List.range_succ_eq_map, List.map_cons, List.head?_cons, Option.map_some, hspeed,
      Nat.cast_zero, zero_mul, T.speed_zero, zero_mul]
  · rw [← h.duration, progress_after le_rfl]
  · rw [List.range_succ, List.map_append, List.map_singleton, List.getLast?_concat, Option.map_some,
      hspeed, ← h.duration, T.speed_after le_rfl, zero_mul]
  · have hlt : (i : ℝ) * tq < (i + 1 : ℕ) * tq := by
      push_cast
      nlinarith
    have hle : ((i + 1 : ℕ) : ℝ) * tq ≤ T.duration := by
      rw [h.duration]
      exact mul_le_mul_of_nonneg_right (by exact_mod_cast hi) htq0.le
    exact div_lt_div_of_pos_right (T.dist_lt_dist (by positivity) hlt hle) T.length_pos

/-- The calls of `walk`, which comes to its end. -/
theorem walk_ticks (h : b.ParsedBy m) (ht : b.type.Interpolated) (hA : m.A = .fin A) (hA0 : 0 < A)
    (htq : m.tq = .fin tq) (htq0 : 0 < tq) (hl : b.length = .fin l) (hl0 : 0 < l)
    (hF : b.feedrate = .fin F) (hF0 : 0 < F) :
    ∃ (k : ℕ) (visits : List (XReal × Sample XReal)) (lam : ℕ → ℝ), 0 < k ∧ b.profile.dt = .fin (k * tq) ∧
      (∀ fuel, k + 1 < fuel → b.walk m fuel = .ok (some visits)) ∧ Walked tq k visits lam := by
  obtain ⟨T, k, hT⟩ := exists_ticks h ht hA hA0 htq htq0 hl hl0 hF hF0
  refine ⟨k, _, _, hT.pos, ?_, fun fuel hfuel => hT.walk htq htq0 hfuel, hT.walked htq0⟩
  rw [hT.profile]
  rfl

theorem walk_ticks_sample : ∃ (c : Block XReal) (k : ℕ) (visits : List (XReal × Sample XReal))
    (lam : ℕ → ℝ), (Block.parse .default none).run (Block.ofLine 0 sampleLine) = .ok () c ∧
      0 < k ∧ (∀ fuel, k + 1 < fuel → c.walk .default fuel = .ok (some visits)) ∧
      Walked (1 / 1000) k visits lam := by
  obtain ⟨c, h, hty, hl, hF⟩ := sample_parsed
  have hp : c.ParsedBy .default := ⟨_, _, _, c, c.next, ⟨rfl, rfl, rfl⟩, h, rfl⟩
  obtain ⟨k, visits, lam, hk, -, hwalk, hw⟩ := walk_ticks hp (.inl hty) default_limits.1
    (by norm_num) default_limits.2 (by norm_num) hl (by norm_num) hF (by norm_num)
  exact ⟨c, k, visits, lam, h, hk, hwalk, hw⟩

end Walk

end

end Cncpp
