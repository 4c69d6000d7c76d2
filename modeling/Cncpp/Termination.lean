import Cncpp.Formats
import Cncpp.MotionLaw

/-! Whether `walk` comes to an end.  Its loop steps by the control period, which a
configuration can set and which the loaders take as it is. -/

namespace Cncpp

open DataArith Lib Lib.ExceptState XReal

noncomputable section

/-! ## Walks that end -/

section Walk

variable {m : Machine XReal} {line : Line} {prev : Option (Block XReal)} {b c : Block XReal} {tq : ℝ}

theorem quantize_whole (htq : m.tq = .fin tq) (t : XReal) :
    ∃ k : ℕ, (m.quantize t).1 = .fin (k * tq) := by
  refine ⟨toSize (t / m.tq + num 1), ?_⟩
  rw [Machine.quantize, ofNat_def, htq, mul_def]

theorem motionProfile_whole (htq : m.tq = .fin tq) (l A fM : XReal) :
    ∃ k : ℕ, (Block.motionProfile m l A fM).dt = .fin (k * tq) := by
  simp only [Block.motionProfile]
  split
  · exact quantize_whole htq _
  · exact quantize_whole htq _

/-- A parsed block lasts a whole number of ticks, whatever the rest of its profile is.  A block
that is not interpolated lasts none. -/
theorem whole_of_parse (htq : m.tq = .fin tq) (hb : Block.Constructed line prev b)
    (h : (Block.parse m prev).run b = .ok () c) :
    c.parsed = true ∧ ∃ k : ℕ, c.profile.dt = .fin (k * tq) := by
  by_cases ht : c.type.Interpolated
  · obtain ⟨hpar, -, hprof, -⟩ := Block.profile_of_parse h ht
    rw [hprof]
    exact ⟨hpar, motionProfile_whole htq _ _ _⟩
  · obtain ⟨hpar, hprof⟩ := Block.profile_of_parse_rest h ht
    have hzero : b.profile = .zero := by
      cases hb with
      | first => rfl
      | after ho =>
        obtain ⟨-, rfl, -⟩ := Block.ofPrev_ok ho
        rfl
    refine ⟨hpar, 0, ?_⟩
    rw [hprof, hzero]
    simp [Profile.zero]

/-- With a period of zero the time stands still. -/
theorem walk_forever (hpar : b.parsed = true) (hdt : b.profile.dt = num 0) (htq : m.tq = num 0)
    (fuel : ℕ) : b.walk m fuel = .ok none := by
  have hle : DataArith.le (num 0 : XReal) (num 0) = true := by
    rw [num_def, le_def]
  have hstay : (num 0 + num 0 : XReal) = num 0 := by
    rw [num_def, add_def]
    simp
  rw [Block.walk, htq]
  induction fuel with
  | zero => rfl
  | succ fuel ih =>
    rw [Block.walkFrom, hdt, if_pos hle, Block.lambda, if_pos hpar, hstay, ih]
    rfl

end Walk

/-! ## Configurations -/

/-- A positive number, and not infinity: behind an infinite time there is no later one. -/
def Positive (v : XReal) : Prop := ∃ x, 0 < x ∧ v = .fin x

theorem Positive.not_nonpos {v : XReal} (h : Positive v) : DataArith.le v (num 0) = false := by
  obtain ⟨x, hx, rfl⟩ := h
  rw [Bool.eq_false_iff, Ne, num_def, le_def, not_le]
  simpa using hx

namespace Machine

section Loads

variable {jsonOf : List (String × Toml XReal) → Json XReal} {m : Machine XReal} {c : Config XReal}

/-- Where the configuration is accepted, the control period is positive and every block that
can be parsed can be walked to its end; a period or an acceleration that is not positive is
refused. -/
structure LoadsSafely (jsonOf : List (String × Toml XReal) → Json XReal) (m : Machine XReal)
    (c : Config XReal) : Prop where
  period : ∀ m', (load jsonOf c).run m = .ok () m' → Positive m'.tq
  walks : ∀ m', (load jsonOf c).run m = .ok () m' → ∀ line prev b b',
    Block.Constructed line prev b → (Block.parse m' prev).run b = .ok () b' →
      ∃ n visits, ∀ fuel, n < fuel → b'.walk m' fuel = .ok (some visits)
  rejects : ∀ v, c.settings.value .tq = some v ∨ c.settings.value .A = some v →
    DataArith.le v (num 0) = true → ∃ e m', (load jsonOf c).run m = .error e m'

/-- The control period and the acceleration of the configuration, or else the period the
machine has. -/
theorem loads_safely_iff : LoadsSafely jsonOf m c ↔ ¬ c.settings.Accepted ∨
    Positive ((c.settings.value .tq).getD m.tq) ∧
      ∀ A, c.settings.value .A = some A → DataArith.le A (num 0) = false := by
  constructor
  · intro h
    by_cases hacc : c.settings.Accepted
    · obtain ⟨m', hm'⟩ := load_returns jsonOf hacc m
      have htq : m'.tq = (c.settings.value .tq).getD m.tq := (load_eq_ok hm').2 .tq
      refine .inr ⟨htq ▸ h.period m' hm', fun A hA => ?_⟩
      rw [Bool.eq_false_iff]
      intro hle
      obtain ⟨e, m'', hm''⟩ := h.rejects A (.inr hA) hle
      cases hm'.symm.trans hm''
    · exact .inl hacc
  · rintro (hno | ⟨hpos, hA⟩)
    · obtain ⟨e, m₁, hthrow⟩ := load_throws jsonOf hno m
      have hnot : ∀ m', (load jsonOf c).run m ≠ .ok () m' := fun m' hm' => by
        cases hthrow.symm.trans hm'
      exact ⟨fun m' hm' => absurd hm' (hnot m'), fun m' hm' => absurd hm' (hnot m'),
        fun _ _ _ => ⟨e, m₁, hthrow⟩⟩
    · have hperiod : ∀ m', (load jsonOf c).run m = .ok () m' → Positive m'.tq := by
        intro m' hm'
        have htq : m'.tq = (c.settings.value .tq).getD m.tq := (load_eq_ok hm').2 .tq
        exact htq ▸ hpos
      refine ⟨hperiod, fun m' hm' line prev b b' hb h => ?_, fun v hv hle => ?_⟩
      · obtain ⟨tq, htq0, htq⟩ := hperiod m' hm'
        obtain ⟨hpar, k, hdt⟩ := whole_of_parse htq hb h
        exact ⟨k + 1, _, fun fuel hfuel => walk_whole hpar hdt htq htq0 hfuel⟩
      · have hno : DataArith.le v (num 0) = false := by
          rcases hv with hv | hv
          · rw [hv] at hpos
            exact hpos.not_nonpos
          · exact hA v hv
        rw [hno] at hle
        cases hle

/-- A control period of zero. -/
def zeroPeriod : Config XReal := .json (.object [("tq", .number (num 0))])

def rapidLine : Line := "G0 X1".toList

/-- It is accepted, and then a rapid move is sampled for ever. -/
theorem loads_safely_zero : ¬ LoadsSafely (fun _ => .null) Machine.default zeroPeriod ∧
    ∃ m' c, (load (fun _ => .null) zeroPeriod).run .default = .ok () m' ∧
      (Block.parse m' none).run (Block.ofLine 0 rapidLine) = .ok () c ∧
      ∀ fuel, c.walk m' fuel = .ok none := by
  obtain ⟨m', hm', htq⟩ : ∃ m', (load (fun _ => .null) zeroPeriod).run Machine.default = .ok () m' ∧
      m'.tq = num 0 := ⟨_, rfl, rfl⟩
  have hb : Block.Constructed rapidLine none (Block.ofLine (K := XReal) 0 rapidLine) := .first 0
  obtain ⟨c, hc⟩ := Block.exists_parse (m := m') hb (by decide +kernel) (by simp) m'.zero_complete
    (by decide +kernel)
  have ht : c.type = .rapid := by rw [Block.type_of_parse hb hc]; decide +kernel
  obtain ⟨hpar, hprof⟩ := Block.profile_of_parse_rest hc (by rw [ht]; decide)
  have hforever : ∀ fuel, c.walk m' fuel = .ok none :=
    walk_forever hpar (congrArg Profile.dt hprof) htq
  refine ⟨fun h => ?_, m', c, hm', hc, hforever⟩
  obtain ⟨n, visits, hn⟩ := h.walks m' hm' rapidLine none _ c hb hc
  cases (hn (n + 1) n.lt_succ_self).symm.trans (hforever (n + 1))

end Loads

end Machine

end

end Cncpp
