import Cncpp.Defines
import Cncpp.Lib.Moments

/-! The timer of the control loop and the statistics it keeps of its cycles.  What the clock
shows and how a sleep ends are inputs of the model. -/

namespace Cncpp

open DataArith Lib Lib.ExceptState

/-- `std::max`, which keeps its first argument unless the second one is greater. -/
def DataArith.max {K : Type} [DataArith K] (a b : K) : K := if lt a b then b else a

inductive TimerErrorType where
  | ok | signalLate | maxWaitExceeded | interrupted
  deriving DecidableEq, Repr

/-- How the sleep of a cycle ends: as it should, without the signal of the timer (`nanosleep`), or
too early (`clock_nanosleep`, in a build with the real-time scheduler). -/
inductive Slept where
  | ok | late | interrupted
  deriving DecidableEq, Repr

/-- What `wait` returns for it, unless the cycle was too long. -/
def Slept.result : Slept → TimerErrorType
  | ok => .ok
  | late => .signalLate
  | interrupted => .interrupted

/-- A timer.  The number of cycles is a `size_t`, of which no run comes near the end. -/
structure Timer (K : Type) where
  maxWait : K
  n : ℕ
  min : K
  max : K
  mean : K
  sd : K
  tet : K
  started : Bool
  first : Bool
  last : K
  dt : K

/-- What one call of `wait` reads: the clock before and after it sleeps, and how the sleep
ends. -/
structure Cycle (K : Type) where
  preSleep : K
  now : K
  slept : Slept

namespace Timer

variable {K : Type} [DataArith K]

/-- The constructed timer.  `start` sets the time before it is read. -/
def new (maxWait : K) : Timer K where
  maxWait := maxWait
  n := 0
  min := infinity
  max := num 0
  mean := num 0
  sd := num 0
  tet := num 0
  started := false
  first := true
  last := num 0
  dt := num 0

omit [DataArith K] in
/-- `start`, which has set the interval timer. -/
def start (now : K) (t : Timer K) : Timer K := { t with last := now, started := true }

def stop (t : Timer K) : Timer K :=
  { t with
    n := 0
    min := infinity
    max := num 0
    mean := num 0
    tet := num 0
    sd := num 0
    started := false
    first := true }

/-- `update_stats`, by recursion formulas. -/
def updateStats (x : K) (t : Timer K) : Timer K :=
  let n := t.n + 1
  if n ≤ 1 then { t with n := n, mean := x, tet := num 0, sd := num 0 }
  else
    let n1 : K := ofNat (n - 1)
    let n2 : K := ofNat (n - 2)
    let nr := num 1 / ofNat n
    let n1r := num 1 / n1
    let nn1 := ofNat n / n1
    let mean := nr * (n1 * t.mean + x)
    { t with
      n := n
      mean := mean
      tet := nr * (n1 * t.tet + x)
      sd := sqrt (n1r * (n2 * pow t.sd (num 2) + nn1 * pow (mean - x) (num 2))) }

/-- What `wait` does to a timer that runs.  `count` is the number of units in a duration, as
`duration_cast` computes it. -/
def cycle (enableStats : Bool) (count : K → K) (c : Cycle K) (t : Timer K) : Timer K :=
  let dt := count (c.now - t.last)
  let t := { t with dt := dt }
  let t := if enableStats then
      let t := { t with tet := dt - count (c.now - c.preSleep) }
      let t := if t.first then t else
        let t := { t with min := DataArith.min t.min dt, max := DataArith.max t.max dt }
        if c.slept = .ok then t.updateStats dt else t
      { t with first := false }
    else t
  { t with last := c.now }

def wait (enableStats : Bool) (count : K → K) (c : Cycle K) :
    EStateM String (Timer K) TimerErrorType := do
  if !(← get).started then throw "Timer: not started"
  modify (cycle enableStats count c)
  let t ← get
  pure (if lt t.maxWait t.dt then .maxWaitExceeded else c.slept.result)

/-- `wait_throw`.  `toStr` stands for `std::to_string`. -/
def waitThrow (enableStats : Bool) (count : K → K) (toStr : K → String) (c : Cycle K) :
    EStateM String (Timer K) Unit := do
  match ← wait enableStats count c with
  | .signalLate => throw "Timer: signal was late"
  | .maxWaitExceeded => throw ("Timer: cycle time " ++ toStr (← get).dt ++ " exceeded maximum: " ++
      toStr (← get).maxWait ++ " sec")
  | .interrupted => throw "Timer: clock_nanosleep interrupted by signal"
  | .ok => pure ()

def stats (enableStats : Bool) (t : Timer K) : Except String (List (String × K)) :=
  if enableStats then
    .ok [("n", ofNat t.n), ("min", t.min), ("max", t.max), ("mean", t.mean), ("sd", t.sd),
      ("tet", t.tet)]
  else .error "Timer: stats not enabled"

/-- A timer that was just constructed, or stopped. -/
inductive Fresh : Timer K → Prop
  | new (maxWait : K) : Fresh (new maxWait)
  | stop (t : Timer K) : Fresh t.stop

theorem Fresh.n_eq {t : Timer K} (h : Fresh t) : t.n = 0 := by
  cases h <;> rfl

end Timer

/-! ## Mean and deviation -/

noncomputable section

open XReal Moments

namespace Timer

variable {t : Timer XReal} {xs : List ℝ} {x : ℝ}

section Update

variable {n : ℕ} {m s e : ℝ}

/-- The weight of the values before the new one, and of the new one. -/
theorem recursion_fin (n : ℕ) (m x : ℝ) :
    (num 1 / ofNat (n + 1 + 1) * (ofNat (n + 1 + 1 - 1) * .fin m + .fin x) : XReal) =
      .fin (((n + 1 : ℕ) * m + x) / ((n + 1 : ℕ) + 1)) := by
  have hne : ((n + 1 + 1 : ℕ) : ℝ) ≠ 0 := Nat.cast_ne_zero.mpr (Nat.succ_ne_zero _)
  rw [Nat.add_sub_cancel, ofNat_def, ofNat_def, num_def, div_of_ne hne, mul_def, add_def, mul_def,
    Rat.cast_one, one_div_mul_eq_div, Nat.cast_add (n + 1), Nat.cast_one]

theorem updateStats_mean (hn : t.n = n + 1) (hm : t.mean = .fin m) (x : ℝ) :
    (t.updateStats (.fin x)).mean = .fin (((n + 1 : ℕ) * m + x) / ((n + 1 : ℕ) + 1)) := by
  rw [updateStats, if_neg (by omega), hn, hm]
  exact recursion_fin n m x

theorem updateStats_tet (hn : t.n = n + 1) (he : t.tet = .fin e) (x : ℝ) :
    (t.updateStats (.fin x)).tet = .fin (((n + 1 : ℕ) * e + x) / ((n + 1 : ℕ) + 1)) := by
  rw [updateStats, if_neg (by omega), hn, he]
  exact recursion_fin n e x

theorem updateStats_sd (hn : t.n = n + 1) (hm : t.mean = .fin m) (hs : t.sd = .fin s) (x : ℝ) :
    (t.updateStats (.fin x)).sd = .fin √((n * s ^ 2 + ((n + 1 : ℕ) + 1) / (n + 1 : ℕ) *
      (((n + 1 : ℕ) * m + x) / ((n + 1 : ℕ) + 1) - x) ^ 2) / (n + 1 : ℕ)) := by
  have hne : ((n + 1 : ℕ) : ℝ) ≠ 0 := Nat.cast_ne_zero.mpr (Nat.succ_ne_zero _)
  have hmean := updateStats_mean hn hm x
  rw [updateStats, if_neg (by omega)] at hmean ⊢
  dsimp only at hmean ⊢
  rw [hmean, hn, hs, sub_def, sq_fin, sq_fin, Nat.add_sub_cancel, ofNat_def, ofNat_def, ofNat_def,
    num_def, div_of_ne hne, div_of_ne hne, mul_def, mul_def, add_def, mul_def, sqrt_of_nonneg]
  · rw [Rat.cast_one, one_div_mul_eq_div, Nat.cast_add (n + 1), Nat.cast_one]
    rfl
  · positivity

end Update

@[simp] theorem updateStats_n (x : XReal) : (t.updateStats x).n = t.n + 1 := by
  unfold updateStats
  dsimp only
  split <;> rfl

/-- The values were passed to `update_stats`, and the statistics are theirs.  The square of the
deviation is kept multiplied by its degrees of freedom, of which a single value has none. -/
structure Describes (t : Timer XReal) (xs : List ℝ) : Prop where
  n : t.n = xs.length
  mean : t.mean = .fin (Moments.mean xs)
  sd : ∃ s, t.sd = .fin s ∧ 0 ≤ s ∧ (xs.length - 1) * s ^ 2 = sqDev (Moments.mean xs) xs

theorem describes_first (h : t.n = 0) (x : ℝ) : Describes (t.updateStats (.fin x)) [x] := by
  have hn : t.n + 1 ≤ 1 := by omega
  rw [updateStats, if_pos hn]
  refine ⟨by simp [h], by rw [mean_singleton], 0, by simp, le_rfl, ?_⟩
  simp [sqDev, mean_singleton]

/-- The deviation is updated with the new mean: the squared deviations from it are those from
the old one and the correction. -/
theorem Describes.update (h : Describes t xs) (hxs : xs ≠ []) (x : ℝ) :
    Describes (t.updateStats (.fin x)) (xs ++ [x]) := by
  obtain ⟨hn, hmean, s, hs, hs0, hsq⟩ := h
  obtain ⟨n, hlen⟩ := Nat.exists_eq_add_one.mpr (List.length_pos_iff.mpr hxs)
  have htn : t.n = n + 1 := hn.trans hlen
  have hconcat := mean_concat hxs x
  have hdev := sqDev_mean_concat hxs x
  have hfree : ((xs.length : ℝ) - 1) = n := by rw [hlen]; push_cast; ring
  rw [hfree] at hsq
  rw [hlen] at hconcat hdev
  have hsd := updateStats_sd htn hmean hs x
  rw [hsq, ← hconcat, ← hdev] at hsd
  refine ⟨by simp [hn], ?_, _, hsd, Real.sqrt_nonneg _, ?_⟩
  · rw [updateStats_mean htn hmean x, hconcat]
  · have hlast : (((xs ++ [x]).length : ℝ) - 1) = (n + 1 : ℕ) := by simp [hlen]
    have hne : ((n + 1 : ℕ) : ℝ) ≠ 0 := Nat.cast_ne_zero.mpr (Nat.succ_ne_zero _)
    have hnonneg : 0 ≤ sqDev (Moments.mean (xs ++ [x])) (xs ++ [x]) := sqDev_nonneg _ _
    rw [hlast, Real.sq_sqrt (by positivity), mul_div_cancel₀ _ hne]

/-- The values `xs` are passed to `update_stats`, in this order. -/
def updates (xs : List ℝ) (t : Timer XReal) : Timer XReal :=
  xs.foldl (fun t x => t.updateStats (.fin x)) t

theorem describes_updates (h : Fresh t) (hxs : xs ≠ []) : Describes (t.updates xs) xs := by
  induction xs using List.reverseRecOn with
  | nil => exact absurd rfl hxs
  | append_singleton xs x ih =>
    rw [updates, List.foldl_concat]
    by_cases hnil : xs = []
    · subst hnil
      exact describes_first h.n_eq x
    · exact (ih hnil).update hnil x

/-- The statistics are those of the values, for any number of them. -/
theorem update_stats_exact (h : Fresh t) (hxs : xs ≠ []) :
    (t.updates xs).mean = .fin (xs.sum / xs.length) ∧
      (2 ≤ xs.length → ∃ s, (t.updates xs).sd = .fin s ∧ 0 ≤ s ∧
        s ^ 2 = (xs.map fun x => (x - xs.sum / xs.length) ^ 2).sum / (xs.length - 1)) := by
  obtain ⟨-, hmean, s, hs, hs0, hsq⟩ := describes_updates h hxs
  refine ⟨hmean, fun hlen => ⟨s, hs, hs0, ?_⟩⟩
  have hfree : (xs.length : ℝ) - 1 ≠ 0 := by
    have hcast : (2 : ℝ) ≤ xs.length := by exact_mod_cast hlen
    linarith
  exact eq_div_of_mul_eq hfree ((mul_comm _ _).trans hsq)

/-- Two values, whose variance is 2. -/
theorem update_stats_exact_sample : ∃ s, ((new (num 1)).updates [1, 3]).mean = .fin 2 ∧
    ((new (num 1)).updates [1, 3]).sd = .fin s ∧ s ^ 2 = 2 := by
  obtain ⟨hmean, hsd⟩ := update_stats_exact (.new (num 1)) (List.cons_ne_nil 1 [3])
  obtain ⟨s, hs, -, hsq⟩ := hsd le_rfl
  refine ⟨s, hmean.trans (congrArg fin (by norm_num)), hs, hsq.trans (by norm_num)⟩

end Timer

/-! ## Task execution times -/

/-- What is measured in one cycle: the elapsed time, the part of it that was not slept, and
whether the sleep ended as it should. -/
structure Measure where
  dt : ℝ
  e : ℝ
  ok : Bool

namespace Cycle

/-- A conversion of real durations. -/
def lift (count : ℝ → ℝ) : XReal → XReal
  | .fin x => .fin (count x)
  | a => a

def toX (c : Cycle ℝ) : Cycle XReal := ⟨.fin c.preSleep, .fin c.now, c.slept⟩

def measure (count : ℝ → ℝ) (last : ℝ) (c : Cycle ℝ) : Measure where
  dt := count (c.now - last)
  e := count (c.now - last) - count (c.now - c.preSleep)
  ok := c.slept = .ok

/-- What is measured in the cycles behind the time `last`. -/
def measures (count : ℝ → ℝ) : ℝ → List (Cycle ℝ) → List Measure
  | _, [] => []
  | last, c :: cs => c.measure count last :: measures count c.now cs

end Cycle

/-- The recorded cycles: not the first one, and those that ended as they should. -/
def recorded (ms : List Measure) : List Measure := ms.tail.filter (·.ok)

theorem recorded_concat {ms : List Measure} (hms : ms ≠ []) (μ : Measure) :
    recorded (ms ++ [μ]) = recorded ms ++ if μ.ok = true then [μ] else [] := by
  rw [recorded, List.tail_append_of_ne_nil hms, List.filter_append, List.filter_singleton]
  cases μ.ok <;> rfl

/-- The field `_tet` behind the cycle `μ` that follows `ms`: its execution time, or what
`update_stats` makes of that. -/
def tetAfter (ms : List Measure) (μ : Measure) : ℝ :=
  if μ.ok = true ∧ ms ≠ [] then
    if recorded ms = [] then 0
    else ((recorded ms).length * μ.e + μ.dt) / ((recorded ms).length + 1)
  else μ.e

namespace Timer

variable {t t' : Timer XReal} {count : ℝ → ℝ} {last : ℝ} {ms : List Measure} {c : Cycle ℝ}

/-- A running timer that has measured `ms`, the last time at `last`. -/
structure Follows (t : Timer XReal) (ms : List Measure) (last : ℝ) : Prop where
  started : t.started = true
  last_eq : t.last = .fin last
  first : t.first = true ↔ ms = []
  n : t.n = (recorded ms).length
  tet : ∀ pre μ, ms = pre ++ [μ] → t.tet = .fin (tetAfter pre μ)

/-- The call of `wait` with the inputs `c` returns. -/
def Waits (count : ℝ → ℝ) (c : Cycle ℝ) (t t' : Timer XReal) : Prop :=
  ∃ r, (wait true (Cycle.lift count) c.toX).run t = .ok r t'

theorem cycle_of_waits (h : Waits count c t t') : t' = cycle true (Cycle.lift count) c.toX t := by
  obtain ⟨r, h⟩ := h
  rw [wait, bind_eq_ok] at h
  obtain ⟨s, t₁, hget, h⟩ := h
  cases hget
  split at h
  · cases h
  · simp only [bind_eq_ok] at h
    obtain ⟨_, t₂, hmod, s, t₃, hget, hret⟩ := h
    cases hmod
    cases hget
    cases hret
    rfl

/-- A running timer can wait for any cycle. -/
theorem waits_of_started (count : ℝ → ℝ) (h : t.started = true) (c : Cycle ℝ) :
    Waits count c t (cycle true (Cycle.lift count) c.toX t) := by
  simp only [Waits, wait, EStateM.run_bind, EStateM.run_get, h, Bool.not_true, Bool.false_eq_true,
    if_false, EStateM.run_modify]
  exact ⟨_, rfl⟩

theorem updateStats_started (x : XReal) : (t.updateStats x).started = t.started := by
  unfold updateStats
  dsimp only
  split <;> rfl

theorem updateStats_tet_first (h : t.n = 0) (x : XReal) : (t.updateStats x).tet = num 0 := by
  rw [updateStats, if_pos (by omega)]

/-- The timer as `update_stats` finds it in the cycle `μ`. -/
def measured (t : Timer XReal) (μ : Measure) : Timer XReal :=
  { t with
    dt := .fin μ.dt
    tet := .fin μ.e
    min := DataArith.min t.min (.fin μ.dt)
    max := DataArith.max t.max (.fin μ.dt) }

/-- What one cycle does, with what it measures. -/
theorem cycle_measure (hlast : t.last = .fin last) :
    cycle true (Cycle.lift count) c.toX t =
      if t.first = true then
        { t with
          dt := .fin (c.measure count last).dt
          tet := .fin (c.measure count last).e
          first := false
          last := .fin c.now }
      else if (c.measure count last).ok = true then
        { (t.measured (c.measure count last)).updateStats (.fin (c.measure count last).dt) with
          first := false
          last := .fin c.now }
      else { t.measured (c.measure count last) with first := false, last := .fin c.now } := by
  have hdt : Cycle.lift count (c.toX.now - t.last) = .fin (c.measure count last).dt := by
    rw [hlast, Cycle.toX, sub_def]
    rfl
  have hslept : Cycle.lift count (c.toX.now - c.toX.preSleep) =
      .fin (count (c.now - c.preSleep)) := by
    rw [Cycle.toX, sub_def]
    rfl
  have hok : (c.measure count last).ok = true ↔ c.toX.slept = .ok := by
    simp [Cycle.measure, Cycle.toX]
  simp only [cycle, if_true, hdt, hslept, sub_def, hok]
  split
  · rfl
  · split <;> rfl

theorem Follows.concat {μ : Measure} (hstarted : t.started = true) (hlast : t.last = .fin last)
    (hfirst : t.first = false) (hn : t.n = (recorded (ms ++ [μ])).length)
    (htet : t.tet = .fin (tetAfter ms μ)) : Follows t (ms ++ [μ]) last where
  started := hstarted
  last_eq := hlast
  first := by simp [hfirst]
  n := hn
  tet pre ν h := by
    obtain ⟨rfl, hν⟩ := List.append_inj' h rfl
    cases hν
    exact htet

/-- What `update_stats` makes of the execution time of a recorded cycle. -/
theorem tet_of_recorded {μ : Measure} (hn : t.n = (recorded ms).length) (hok : μ.ok = true)
    (hms : ms ≠ []) :
    ((t.measured μ).updateStats (.fin μ.dt)).tet = .fin (tetAfter ms μ) := by
  rw [tetAfter, if_pos ⟨hok, hms⟩]
  cases hr : recorded ms with
  | nil =>
    rw [hr] at hn
    rw [updateStats_tet_first (t := t.measured μ) hn, if_pos rfl]
    simp
  | cons ν l =>
    rw [hr] at hn
    rw [updateStats_tet (t := t.measured μ) (n := l.length) hn rfl, if_neg (List.cons_ne_nil ν l)]
    rfl

/-- One more cycle. -/
theorem Follows.step (h : Follows t ms last) (hc : Waits count c t t') :
    Follows t' (ms ++ [c.measure count last]) c.now := by
  obtain ⟨hstarted, hlast, hfirst, hn, -⟩ := h
  rw [cycle_of_waits hc, cycle_measure hlast]
  set μ := c.measure count last
  by_cases hms : ms = []
  · subst hms
    rw [if_pos (hfirst.mpr rfl)]
    refine .concat hstarted rfl rfl hn ?_
    rw [tetAfter, if_neg (fun h => h.2 rfl)]
  · have hrec := recorded_concat hms μ
    rw [if_neg (fun h => hms (hfirst.mp h))]
    by_cases hok : μ.ok = true
    · rw [if_pos hok]
      rw [if_pos hok] at hrec
      refine .concat ((updateStats_started _).trans hstarted) rfl rfl ?_
        (tet_of_recorded hn hok hms)
      rw [hrec, List.length_append, List.length_singleton, ← hn]
      exact updateStats_n _
    · rw [if_neg hok]
      rw [if_neg hok, List.append_nil] at hrec
      refine .concat hstarted rfl rfl (hn.trans (by rw [hrec])) ?_
      rw [tetAfter, if_neg (fun h => hok h.1)]
      rfl

theorem exists_run (h : t.started = true) (cs : List (Cycle ℝ)) :
    ∃ t', Run (Waits count) t cs t' := by
  refine Run.exists_of (fun _ t => t.started = true) (fun c cs s hs => ?_) h
  have hw := waits_of_started count hs c
  have hkeep : (cycle true (Cycle.lift count) c.toX s).started = true := by
    simp only [cycle, if_true]
    split
    · exact hs
    · split
      · exact (updateStats_started _).trans hs
      · exact hs
  exact ⟨_, hw, hkeep⟩

theorem follows_run {cs : List (Cycle ℝ)} (hr : Run (Waits count) t cs t')
    (h : Follows t ms last) : ∃ last', Follows t' (ms ++ Cycle.measures count last cs) last' := by
  induction hr generalizing ms last with
  | nil s => exact ⟨last, by rwa [Cycle.measures, List.append_nil]⟩
  | @cons c _ _ _ cs hc _ ih =>
    obtain ⟨last', ht⟩ := ih (h.step hc)
    rw [List.append_assoc] at ht
    exact ⟨last', ht⟩

theorem Fresh.follows (h : Fresh t) (s : ℝ) : Follows (t.start (.fin s)) [] s where
  started := rfl
  last_eq := rfl
  first := by
    cases h <;> exact iff_of_true rfl rfl
  n := h.n_eq
  tet pre μ hnil := by
    cases pre <;> cases hnil

/-- `stats` reports the mean of the execution times of the cycles `ms`. -/
def ReportsMeanTet (t : Timer XReal) (ms : List Measure) : Prop :=
  ∃ r, t.stats true = .ok r ∧ r.lookup "tet" = some (.fin (Moments.mean (ms.map (·.e))))

theorem reportsMeanTet_iff : ReportsMeanTet t ms ↔
    t.tet = .fin (Moments.mean (ms.map (·.e))) := by
  have hlookup : [("n", (ofNat t.n : XReal)), ("min", t.min), ("max", t.max), ("mean", t.mean),
      ("sd", t.sd), ("tet", t.tet)].lookup "tet" = some t.tet := by
    simp [List.lookup_cons]
  constructor
  · rintro ⟨r, hr, h⟩
    cases hr
    exact Option.some.inj (hlookup.symm.trans h)
  · intro h
    exact ⟨_, rfl, hlookup.trans (congrArg some h)⟩

/-- The cycle `μ` that follows `ms` leaves the mean.  Recorded as the first one, it has an
execution time of zero; recorded later, its elapsed time makes up for what the earlier execution
times differ from its own; and if it is not recorded, its execution time is the mean. -/
def Balanced (ms : List Measure) (μ : Measure) : Prop :=
  if μ.ok = true then
    if recorded ms = [] then μ.e = 0
    else ((recorded ms).map (·.e)).sum = ((recorded ms).length - 1) * μ.e + μ.dt
  else μ.e = Moments.mean ((recorded ms).map (·.e))

theorem tetAfter_eq_mean_iff {μ : Measure} (hms : ms ≠ []) :
    tetAfter ms μ = Moments.mean ((recorded (ms ++ [μ])).map (·.e)) ↔ Balanced ms μ := by
  rw [recorded_concat hms, tetAfter, Balanced]
  by_cases hok : μ.ok = true
  · rw [if_pos ⟨hok, hms⟩, if_pos hok, if_pos hok, List.map_append, List.map_singleton]
    by_cases hr : recorded ms = []
    · rw [if_pos hr, if_pos hr, hr, List.map_nil, List.nil_append, mean_singleton]
      exact eq_comm
    · have hpos : ((recorded ms).length : ℝ) + 1 ≠ 0 := Nat.cast_add_one_ne_zero _
      rw [if_neg hr, if_neg hr, Moments.mean, List.sum_append, List.sum_singleton,
        List.length_append, List.length_map, List.length_singleton, Nat.cast_add, Nat.cast_one,
        div_left_inj' hpos]
      constructor
      · intro h
        linarith
      · intro h
        linarith
  · rw [if_neg (fun h => hok h.1), if_neg hok, if_neg hok, List.append_nil]

/-- The reported execution time is the mean of those of the recorded cycles only by
coincidence: the field holds that of the last cycle when it is updated like a mean. -/
theorem tet_mean_iff {s : ℝ} {cs : List (Cycle ℝ)} {μ : Measure} (h : Fresh t)
    (hr : Run (Waits count) (t.start (.fin s)) cs t')
    (hms : Cycle.measures count s cs = ms ++ [μ]) (hne : recorded (ms ++ [μ]) ≠ []) :
    ReportsMeanTet t' (recorded (ms ++ [μ])) ↔ Balanced ms μ := by
  obtain ⟨last, hf⟩ := follows_run hr (h.follows s)
  have hnil : ms ≠ [] := by
    rintro rfl
    exact hne rfl
  rw [reportsMeanTet_iff, hf.tet ms μ hms, fin.injEq, tetAfter_eq_mean_iff hnil]

/-! Three cycles of one second, of which half is slept. -/

def halfCycle (now : ℝ) : Cycle ℝ := ⟨now - 1 / 2, now, .ok⟩

def halfCycles : List (Cycle ℝ) := [halfCycle 1, halfCycle 2, halfCycle 3]

def halfMeasure : Measure := ⟨1, 1 / 2, true⟩

theorem measures_half :
    Cycle.measures id 0 halfCycles = [halfMeasure, halfMeasure] ++ [halfMeasure] := by
  simp only [halfCycles, Cycle.measures, Cycle.measure, halfCycle, halfMeasure, id]
  norm_num

theorem exists_half_run :
    ∃ t', Run (Waits id) ((new (num 1)).start (.fin 0)) halfCycles t' :=
  exists_run rfl halfCycles

/-- The two recorded execution times are one half each, and three quarters are reported. -/
theorem tet_mean_half : ∃ t', Run (Waits id) ((new (num 1)).start (.fin 0)) halfCycles t' ∧
    ¬ ReportsMeanTet t' (recorded (Cycle.measures id 0 halfCycles)) := by
  obtain ⟨t', hr⟩ := exists_half_run
  obtain ⟨last, hf⟩ := follows_run hr ((Fresh.new (num 1)).follows 0)
  refine ⟨t', hr, ?_⟩
  have htet := hf.tet _ _ measures_half
  rw [reportsMeanTet_iff, htet, measures_half, fin.injEq, tetAfter, if_pos ⟨rfl, by simp⟩]
  norm_num [recorded, halfMeasure, Moments.mean]

theorem tet_mean_iff_sample : ∃ t',
    Run (Waits id) ((new (num 1)).start (.fin 0)) halfCycles t' ∧
      (ReportsMeanTet t' (recorded ([halfMeasure, halfMeasure] ++ [halfMeasure])) ↔
        Balanced [halfMeasure, halfMeasure] halfMeasure) := by
  obtain ⟨t', hr⟩ := exists_half_run
  exact ⟨t', hr, tet_mean_iff (.new (num 1)) hr measures_half (by simp [recorded, halfMeasure])⟩

end Timer

end

end Cncpp
