import Cncpp.Timer

/-! What the timer reports of a run.  The least and the greatest elapsed time are those of all
cycles but the first, the mean and the deviation those of the cycles that ended as they should, and
all four fit together. -/

namespace Cncpp

open DataArith Lib XReal

noncomputable section

namespace Timer

variable {t t' : Timer XReal} {count : ℝ → ℝ} {last s : ℝ} {ms : List Measure} {μ : Measure}
  {c : Cycle ℝ} {cs : List (Cycle ℝ)}

@[simp] theorem updateStats_min (x : XReal) : (t.updateStats x).min = t.min := by
  simp only [updateStats]
  split <;> rfl

@[simp] theorem updateStats_max (x : XReal) : (t.updateStats x).max = t.max := by
  simp only [updateStats]
  split <;> rfl

/-- The statistics do not depend on the other fields. -/
theorem Describes.congr {xs : List ℝ} (h : Describes t xs) (hn : t'.n = t.n) (hm : t'.mean = t.mean)
    (hs : t'.sd = t.sd) : Describes t' xs :=
  ⟨hn.trans h.n, hm.trans h.mean, by rw [hs]; exact h.sd⟩

/-! ## Extremes -/

/-- The least of the elapsed times, which is infinite as long as there are none. -/
def Least (ms : List Measure) (a : XReal) : Prop :=
  (ms = [] ∧ a = .posInf) ∨ ∃ μ ∈ ms, a = .fin μ.dt ∧ ∀ ν ∈ ms, μ.dt ≤ ν.dt

/-- The greatest of zero and the elapsed times. -/
def Greatest (ms : List Measure) (b : XReal) : Prop :=
  ∃ v, b = .fin v ∧ (v = 0 ∨ ∃ μ ∈ ms, v = μ.dt) ∧ 0 ≤ v ∧ ∀ ν ∈ ms, ν.dt ≤ v

theorem Least.concat {a : XReal} (h : Least ms a) (μ : Measure) :
    Least (ms ++ [μ]) (DataArith.min a (.fin μ.dt)) := by
  right
  rcases h with ⟨rfl, rfl⟩ | ⟨ν, hν, rfl, hle⟩
  · exact ⟨μ, by simp, rfl, by simp⟩
  · rw [DataArith.min]
    by_cases hlt : μ.dt < ν.dt
    · rw [if_pos ((lt_def _ _).mpr hlt)]
      refine ⟨μ, by simp, rfl, fun ξ hξ => ?_⟩
      rcases List.mem_append.mp hξ with hξ | hξ
      · exact hlt.le.trans (hle ξ hξ)
      · rw [List.mem_singleton.mp hξ]
    · rw [if_neg (fun h => hlt ((lt_def _ _).mp h))]
      refine ⟨ν, List.mem_append_left _ hν, rfl, fun ξ hξ => ?_⟩
      rcases List.mem_append.mp hξ with hξ | hξ
      · exact hle ξ hξ
      · rw [List.mem_singleton.mp hξ]
        exact not_lt.mp hlt

theorem Greatest.concat {b : XReal} (h : Greatest ms b) (μ : Measure) :
    Greatest (ms ++ [μ]) (DataArith.max b (.fin μ.dt)) := by
  obtain ⟨v, rfl, hv, h0, hle⟩ := h
  rw [DataArith.max]
  by_cases hlt : v < μ.dt
  · rw [if_pos ((lt_def _ _).mpr hlt)]
    refine ⟨μ.dt, rfl, .inr ⟨μ, by simp, rfl⟩, h0.trans hlt.le, fun ξ hξ => ?_⟩
    rcases List.mem_append.mp hξ with hξ | hξ
    · exact (hle ξ hξ).trans hlt.le
    · rw [List.mem_singleton.mp hξ]
  · rw [if_neg (fun h => hlt ((lt_def _ _).mp h))]
    refine ⟨v, rfl, hv.imp_right fun ⟨ν, hν, hv⟩ => ⟨ν, List.mem_append_left _ hν, hv⟩, h0,
      fun ξ hξ => ?_⟩
    rcases List.mem_append.mp hξ with hξ | hξ
    · exact hle ξ hξ
    · rw [List.mem_singleton.mp hξ]
      exact not_lt.mp hlt

/-! ## Runs -/

/-- What the timer keeps of the cycles that it has measured. -/
structure Keeps (t : Timer XReal) (ms : List Measure) : Prop where
  describes : recorded ms ≠ [] → Describes t ((recorded ms).map (·.dt))
  min : Least ms.tail t.min
  max : Greatest ms.tail t.max

theorem Fresh.keeps (h : Fresh t) (s : ℝ) : Keeps (t.start (.fin s)) [] := by
  have hmin : t.min = .posInf := by cases h <;> rfl
  have hzero : (num 0 : XReal) = .fin 0 := by simp
  have hmax : t.max = .fin 0 := by cases h <;> exact hzero
  exact ⟨fun hne => absurd rfl hne, .inl ⟨rfl, hmin⟩,
    ⟨0, hmax, .inl rfl, le_rfl, fun _ hν => nomatch hν⟩⟩

/-- A cycle that ended as it should is added to the values of the statistics. -/
theorem Keeps.record (h : Keeps t ms) (hn : t.n = (recorded ms).length) (μ : Measure) :
    Describes ((t.measured μ).updateStats (.fin μ.dt)) ((recorded ms).map (·.dt) ++ [μ.dt]) := by
  by_cases hnil : recorded ms = []
  · rw [hnil] at hn ⊢
    exact describes_first (t := t.measured μ) hn μ.dt
  · have hd : Describes (t.measured μ) ((recorded ms).map (·.dt)) :=
      (h.describes hnil).congr rfl rfl rfl
    exact hd.update (by simpa using hnil) μ.dt

theorem Keeps.step (h : Keeps t ms) (hf : Follows t ms last) (hc : Waits count c t t') :
    Keeps t' (ms ++ [c.measure count last]) := by
  rw [cycle_of_waits hc, cycle_measure hf.last_eq]
  set μ := c.measure count last
  by_cases hms : ms = []
  · subst hms
    rw [if_pos (hf.first.mpr rfl)]
    exact ⟨fun hne => absurd rfl hne, h.min, h.max⟩
  · have hrec := recorded_concat hms μ
    have htail : (ms ++ [μ]).tail = ms.tail ++ [μ] := List.tail_append_of_ne_nil hms
    rw [if_neg (fun h => hms (hf.first.mp h))]
    by_cases hok : μ.ok = true
    · rw [if_pos hok]
      rw [if_pos hok] at hrec
      refine ⟨fun _ => ?_, ?_, ?_⟩
      · rw [hrec, List.map_append, List.map_singleton]
        exact (h.record hf.n μ).congr rfl rfl rfl
      · rw [htail]
        exact (updateStats_min (t := t.measured μ) _).symm ▸ h.min.concat μ
      · rw [htail]
        exact (updateStats_max (t := t.measured μ) _).symm ▸ h.max.concat μ
    · rw [if_neg hok]
      rw [if_neg hok, List.append_nil] at hrec
      refine ⟨fun hne => ?_, ?_, ?_⟩
      · rw [hrec] at hne ⊢
        exact (h.describes hne).congr rfl rfl rfl
      · rw [htail]
        exact h.min.concat μ
      · rw [htail]
        exact h.max.concat μ

theorem keeps_run (hr : Run (Waits count) t cs t') (hf : Follows t ms last) (h : Keeps t ms) :
    Keeps t' (ms ++ Cycle.measures count last cs) := by
  induction hr generalizing ms last with
  | nil s => rwa [Cycle.measures, List.append_nil]
  | @cons c _ _ _ cs hc _ ih =>
    have ht := ih (hf.step hc) (h.step hf hc)
    rwa [List.append_assoc] at ht

/-- What `stats` reports of the cycles `ms`: the extremes of all of them but the first, the number,
the mean and the deviation of those that were recorded. -/
structure Reports (t : Timer XReal) (ms : List Measure) (a b m s : ℝ) : Prop where
  stats : ∃ r, t.stats true = .ok r ∧ r.lookup "n" = some (ofNat (recorded ms).length) ∧
    r.lookup "min" = some (.fin a) ∧ r.lookup "max" = some (.fin b) ∧
    r.lookup "mean" = some (.fin m) ∧ r.lookup "sd" = some (.fin s)
  least : (∃ μ ∈ ms.tail, μ.dt = a) ∧ ∀ μ ∈ ms.tail, a ≤ μ.dt
  greatest : (b = 0 ∨ ∃ μ ∈ ms.tail, μ.dt = b) ∧ 0 ≤ b ∧ ∀ μ ∈ ms.tail, μ.dt ≤ b
  mean : m = Moments.mean ((recorded ms).map (·.dt))
  sd : 0 ≤ s ∧ ((recorded ms).length - 1) * s ^ 2 = Moments.sqDev m ((recorded ms).map (·.dt))

theorem Keeps.reports (h : Keeps t ms) (hne : recorded ms ≠ []) : ∃ a b m s, Reports t ms a b m s := by
  obtain ⟨hn, hmean, s, hs, hs0, hsq⟩ := h.describes hne
  rw [List.length_map] at hn hsq
  have htail : ms.tail ≠ [] := fun hnil => hne (by rw [recorded, hnil, List.filter_nil])
  obtain ⟨μ, hμ, ha, hle⟩ := h.min.resolve_left fun hnil => htail hnil.1
  obtain ⟨b, hb, hmem, hb0, hge⟩ := h.max
  have hfound : b = 0 ∨ ∃ ν ∈ ms.tail, ν.dt = b := by
    rcases hmem with h0 | ⟨ν, hν, hv⟩
    · exact .inl h0
    · exact .inr ⟨ν, hν, hv.symm⟩
  refine ⟨μ.dt, b, _, s, ⟨_, rfl, ?_, ?_, ?_, ?_, ?_⟩, ⟨⟨μ, hμ, rfl⟩, hle⟩,
    ⟨hfound, hb0, hge⟩, rfl, hs0, hsq⟩
  · rw [List.lookup_cons_self, hn]
  all_goals simp only [List.lookup_cons, String.reduceBEq, ha, hb, hmean, hs]

/-- The reported statistics fit together.  In every run of a timer that has recorded a cycle, the
mean lies between the extremes, and the deviation is bounded by the distances between them. -/
theorem stats_consistent (h : Fresh t) (hr : Run (Waits count) (t.start (.fin s)) cs t')
    (hne : recorded (Cycle.measures count s cs) ≠ []) :
    ∃ a b m sd, Reports t' (Cycle.measures count s cs) a b m sd ∧ a ≤ m ∧ m ≤ b ∧
      ((recorded (Cycle.measures count s cs)).length - 1) * sd ^ 2 ≤
        (recorded (Cycle.measures count s cs)).length * ((b - m) * (m - a)) := by
  have hkeeps := keeps_run hr (h.follows s) (h.keeps s)
  rw [List.nil_append] at hkeeps
  obtain ⟨a, b, m, sd, hrep⟩ := hkeeps.reports hne
  set ms := Cycle.measures count s cs
  have hbounds : ∀ x ∈ (recorded ms).map (·.dt), a ≤ x ∧ x ≤ b := by
    intro x hx
    obtain ⟨μ, hμ, rfl⟩ := List.mem_map.mp hx
    have hmem : μ ∈ ms.tail := (List.mem_filter.mp hμ).1
    exact ⟨hrep.least.2 μ hmem, hrep.greatest.2.2 μ hmem⟩
  have hvalues : (recorded ms).map (·.dt) ≠ [] := by simpa using hne
  obtain ⟨hlow, hup⟩ := Moments.mean_mem hvalues hbounds
  have hdev := Moments.sqDev_mean_le hvalues hbounds
  rw [← hrep.mean] at hlow hup hdev
  rw [← hrep.sd.2, List.length_map] at hdev
  exact ⟨a, b, m, sd, hrep, hlow, hup, hdev⟩

/-- The three cycles of one second. -/
theorem stats_consistent_sample : ∃ (t' : Timer XReal) (a b m sd : ℝ),
    Reports t' (Cycle.measures id 0 halfCycles) a b m sd ∧ a ≤ m ∧ m ≤ b ∧
      (2 - 1) * sd ^ 2 ≤ 2 * ((b - m) * (m - a)) := by
  obtain ⟨t', hr⟩ := exists_half_run
  have hrec : recorded (Cycle.measures id 0 halfCycles) = [halfMeasure, halfMeasure] := by
    rw [measures_half]
    rfl
  obtain ⟨a, b, m, sd, hrep, hlow, hup, hdev⟩ := stats_consistent (.new _) hr (by rw [hrec]; simp)
  rw [hrec] at hdev
  exact ⟨t', a, b, m, sd, hrep, hlow, hup, by simpa using hdev⟩

end Timer

end

end Cncpp
