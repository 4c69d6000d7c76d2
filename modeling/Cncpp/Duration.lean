import Cncpp.MotionLaw

/-! How long a block takes.  The plan for a leg is the fastest one that keeps to the feed and to
the acceleration, rounded up to whole ticks; the plan for a long block is its own mirror image. -/

namespace Cncpp

open DataArith Lib XReal

noncomputable section

/-! ## The fastest plan -/

namespace Leg

variable (G : Leg) {G' : Leg} {f f' v : ℝ}

/-- No cruise speed up to the feed is faster than the plan. -/
theorem travel_le (hv : 0 < v) (hvf : v ≤ f) : G.travel f ≤ G.l / v + v / G.A := by
  have hl := G.l_pos
  have hA := G.A_pos
  have hf : 0 < f := hv.trans_le hvf
  unfold travel
  split
  · next hlong =>
    -- what the feed saves on the way is more than it costs to reach it
    have hprod : v * f < G.l * G.A := by nlinarith
    have hsave : (f - v) / G.A ≤ G.l * (f - v) / (v * f) := by
      rw [div_le_div_iff₀ hA (by positivity)]
      nlinarith [sub_nonneg.mpr hvf]
    have hway : G.l * (f - v) / (v * f) = G.l / v - G.l / f := by
      field_simp
    have hreach : (f - v) / G.A = f / G.A - v / G.A := sub_div ..
    linarith
  · have hroot : √(G.l / G.A) ^ 2 = G.l / v * (v / G.A) := by
      rw [Real.sq_sqrt (by positivity)]
      field_simp
    have hway : 0 < G.l / v := by positivity
    have hreach : 0 < v / G.A := by positivity
    refine le_of_sq_le_sq ?_ (by positivity)
    nlinarith [sq_nonneg (G.l / v - v / G.A)]

/-- The plan has a cruise speed. -/
theorem exists_travel (hf : 0 < f) : ∃ v, 0 < v ∧ v ≤ f ∧ G.travel f = G.l / v + v / G.A := by
  have hl := G.l_pos
  have hA := G.A_pos
  unfold travel
  split
  · exact ⟨f, hf, le_rfl, rfl⟩
  · next hshort =>
    have hway : G.l / √(G.l * G.A) = √(G.l / G.A) := by
      rw [div_eq_iff (by positivity), ← Real.sqrt_mul (by positivity)]
      have hsq : G.l / G.A * (G.l * G.A) = G.l ^ 2 := by field_simp
      rw [hsq, Real.sqrt_sq hl.le]
    have hreach : √(G.l * G.A) / G.A = √(G.l / G.A) := by
      rw [div_eq_iff hA.ne']
      have hsq : G.l * G.A = G.l / G.A * G.A ^ 2 := by field_simp
      rw [hsq, Real.sqrt_mul (by positivity), Real.sqrt_sq hA.le]
    refine ⟨√(G.l * G.A), by positivity, ?_, ?_⟩
    · rw [Real.sqrt_le_left hf.le]
      exact not_lt.mp hshort
    · rw [hway, hreach]
      ring

/-- A longer way takes longer, more feed or acceleration does not. -/
theorem travel_le_travel (hl : G.l ≤ G'.l) (hA : G'.A ≤ G.A) (hf : 0 < f') (hff : f' ≤ f) :
    G.travel f ≤ G'.travel f' := by
  obtain ⟨v, hv, hvf, htravel⟩ := G'.exists_travel hf
  have hA' := G'.A_pos
  calc G.travel f ≤ G.l / v + v / G.A := G.travel_le hv (hvf.trans hff)
    _ ≤ G'.l / v + v / G'.A := by gcongr
    _ = G'.travel f' := htravel.symm

end Leg

theorem nextTick_mono {tq s t : ℝ} (htq : 0 < tq) (h : s ≤ t) : nextTick tq s ≤ nextTick tq t := by
  unfold nextTick
  gcongr

/-! ## The duration of a block -/

/-- The time for a path of length `l` before it is rounded up to whole ticks. -/
def travelTime (l f A : ℝ) : ℝ := if f / A < l / f then l / f + f / A else 2 * √(l / A)

theorem Leg.travel_eq (G : Leg) {f : ℝ} (hf : 0 < f) : G.travel f = travelTime G.l f G.A := by
  have hiff : f / G.A < G.l / f ↔ f ^ 2 < G.l * G.A := by
    rw [div_lt_div_iff₀ G.A_pos hf, sq]
  simp only [Leg.travel, travelTime, hiff]

/-- `compute` is called for a path of length `l` with the feed `f` in mm/s. -/
structure Planning (m : Machine XReal) (b : Block XReal) (l f A tq : ℝ) : Prop where
  length : b.length = .fin l
  feed : b.arcFeedrate = .fin (60 * f)
  acc : b.acc = .fin A
  tick : m.tq = .fin tq
  l_pos : 0 < l
  f_pos : 0 < f
  A_pos : 0 < A
  tq_pos : 0 < tq

/-- The profile takes `dt`: a whole number of ticks that is the next one after `T`. -/
structure Lasts (p : Profile XReal) (tq T dt : ℝ) : Prop where
  duration : p.dt = .fin dt
  ticks : ∃ k : ℕ, dt = k * tq
  phases : ∃ dt1 dtM dt2, p.dt1 = .fin dt1 ∧ p.dtM = .fin dtM ∧ p.dt2 = .fin dt2 ∧
    dt = dt1 + dtM + dt2
  above : T < dt
  within : dt ≤ T + tq

section Duration

variable {m m' : Machine XReal} {b b' : Block XReal} {l l' f f' A A' tq : ℝ}

/-- The plan that is stored. -/
theorem Planning.exists_law (h : Planning m b l f A tq) : ∃ G : Leg, G.l = l ∧ G.A = A ∧ G.tq = tq ∧
    (Block.compute m b).profile = ofLaw (G.law f h.f_pos) (nextTick tq (G.travel f)) := by
  set G : Leg := ⟨l, A, tq, h.l_pos, h.A_pos, h.tq_pos⟩ with hG
  have hsix : 60 * f / 60 = f := by ring
  have hprof := compute_profile (G := G) h.tick h.acc h.length h.feed (by rw [hsix]; exact h.f_pos)
  simp only [hsix] at hprof
  rw [G.law_duration] at hprof
  exact ⟨G, rfl, rfl, rfl, hprof⟩

theorem Planning.duration_eq (h : Planning m b l f A tq) :
    (Block.compute m b).profile.dt = .fin (nextTick tq (travelTime l f A)) := by
  obtain ⟨G, rfl, rfl, rfl, hprof⟩ := h.exists_law
  rw [hprof, G.travel_eq h.f_pos]
  rfl

/-- A block lasts for the whole ticks after its travel time, and longer only when it has a longer
way, less feed or less acceleration, whichever branches `compute` takes. -/
theorem compute_duration (h : Planning m b l f A tq) :
    ∃ dt, Lasts (Block.compute m b).profile tq (travelTime l f A) dt ∧
      ∀ {m' b' l' f' A' dt'}, Planning m' b' l' f' A' tq → l ≤ l' → f' ≤ f → A' ≤ A →
        (Block.compute m' b').profile.dt = .fin dt' → dt ≤ dt' := by
  obtain ⟨G, rfl, rfl, rfl, hprof⟩ := h.exists_law
  have hT := G.travel_eq h.f_pos
  have hT0 : 0 ≤ travelTime G.l f G.A := by
    have hl := h.l_pos
    have hA := h.A_pos
    have hf := h.f_pos
    unfold travelTime
    split <;> positivity
  refine ⟨nextTick G.tq (travelTime G.l f G.A), ⟨h.duration_eq, ⟨_, rfl⟩, ?_, ?_, ?_⟩, ?_⟩
  · rw [hprof, ← hT, ← G.law_duration h.f_pos]
    exact ⟨_, _, _, rfl, rfl, rfl, rfl⟩
  · have hslack := slack_pos h.tq_pos (t := travelTime G.l f G.A)
    rw [slack] at hslack
    linarith
  · have hslack := slack_le h.tq_pos hT0
    rw [slack] at hslack
    linarith
  · intro m' b' l' f' A' dt' h' hl hf hA hdt'
    have hdt := h'.duration_eq
    rw [hdt', fin.injEq] at hdt
    obtain ⟨G', rfl, rfl, htq, -⟩ := h'.exists_law
    rw [hdt, ← hT, ← G'.travel_eq h'.f_pos]
    exact nextTick_mono h.tq_pos (G.travel_le_travel hl hA h'.f_pos hf)

/-- The path of `plannedBlock` at 600 mm/min, too short for the feed to be reached. -/
def fastBlock : Block XReal := { plannedBlock with arcFeedrate := .fin 600 }

theorem planning_sample {b : Block XReal} {f : ℝ} (hl : b.length = .fin 10)
    (hF : b.arcFeedrate = .fin (60 * f)) (hA : b.acc = .fin 5) (hf : 0 < f) :
    Planning .default b 10 f 5 (1 / 1000) :=
  ⟨hl, hF, hA, default_limits.2, by norm_num, hf, by norm_num, by norm_num⟩

theorem planning_planned : Planning .default plannedBlock 10 (5 / 3) 5 (1 / 1000) :=
  planning_sample rfl (congrArg fin (by norm_num)) rfl (by norm_num)

theorem planning_fast : Planning .default fastBlock 10 10 5 (1 / 1000) :=
  planning_sample rfl (congrArg fin (by norm_num)) rfl (by norm_num)

theorem compute_duration_sample : ∃ dt dt',
    Lasts (Block.compute .default fastBlock).profile (1 / 1000) (travelTime 10 10 5) dt ∧
      (Block.compute .default plannedBlock).profile.dt = .fin dt' ∧ dt ≤ dt' := by
  obtain ⟨dt, hdt, hmono⟩ := compute_duration planning_fast
  exact ⟨dt, _, hdt, planning_planned.duration_eq,
    hmono planning_planned le_rfl (by norm_num) le_rfl planning_planned.duration_eq⟩

/-! ## Mirror images -/

/-- The plan for a long block runs backwards as it runs forwards, and is half way at half its
time. -/
theorem trapezoid_symmetric (h : Planning m b l f A tq) (hlong : f / A < l / f) :
    ∃ (dt : ℝ) (lam speed : ℝ → ℝ), (Block.compute m b).profile.dt = .fin dt ∧
      (∀ t, ((Block.compute m b).profile.lambda (.fin t)).lambda = .fin (lam t) ∧
        ((Block.compute m b).profile.lambda (.fin t)).speed = .fin (speed t)) ∧
      (∀ t, 0 ≤ t → t ≤ dt → lam t + lam (dt - t) = 1 ∧ speed (dt - t) = speed t) ∧
      lam (dt / 2) = 1 / 2 := by
  obtain ⟨G, rfl, rfl, rfl, hprof⟩ := h.exists_law
  have hf := h.f_pos
  have hlaw : f ^ 2 < G.l * G.A := by
    rwa [div_lt_div_iff₀ h.A_pos hf, ← sq] at hlong
  have hT : G.law f hf = G.trapezoid f hf hlaw := dif_pos hlaw
  rw [← G.law_duration hf, hT] at hprof
  set T := G.trapezoid f hf hlaw with hTdef
  have hramps : T.t1 = T.t2 := rfl
  have hsymm : ∀ t, progress T t + progress T (T.duration - t) = 1 := by
    intro t
    rw [progress, progress, ← add_div, T.dist_symm hramps, div_self T.length_pos.ne']
  rw [hprof]
  refine ⟨T.duration, progress T, fun t => T.speed t * 60, rfl,
    fun t => ⟨lambda_ofLaw T _ t, speed_ofLaw T _ t⟩, fun t _ _ => ⟨hsymm t, ?_⟩, ?_⟩
  · dsimp only
    rw [T.speed_symm hramps]
  · have hhalf := hsymm (T.duration / 2)
    rw [sub_half] at hhalf
    linarith

theorem trapezoid_symmetric_sample : ∃ (dt : ℝ) (lam speed : ℝ → ℝ),
    (Block.compute .default plannedBlock).profile.dt = .fin dt ∧
      (∀ t, ((Block.compute .default plannedBlock).profile.lambda (.fin t)).lambda = .fin (lam t) ∧
        ((Block.compute .default plannedBlock).profile.lambda (.fin t)).speed = .fin (speed t)) ∧
      (∀ t, 0 ≤ t → t ≤ dt → lam t + lam (dt - t) = 1 ∧ speed (dt - t) = speed t) ∧
      lam (dt / 2) = 1 / 2 :=
  trapezoid_symmetric planning_planned (by norm_num)

end Duration

end

end Cncpp
