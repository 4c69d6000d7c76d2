import Cncpp.Replay
import Cncpp.Timer

/-! The loop of the program: one evaluation of the machine at each pass, and one wait for the
timer.  The warnings are those of the time since the last wait, and without warnings a program run
is over in time. -/

namespace Cncpp

open DataArith Lib Fsm

variable {K : Type} [DataArith K]

/-! ## Passes -/

/-- The timing function of `main`: it waits for the next period, and logs a timing error without
stopping the loop. -/
def timingFunction (toStr : K → String) (c : Cycle K) (τ : Timer K) : Option String × Timer K :=
  match (Timer.waitThrow false id toStr c).run τ with
  | .ok _ τ => (none, τ)
  | .error w τ => (some w, τ)

/-- What `do_idle` does with the timer: it stops it for as long as it waits for a key, and starts
it again at the time `now`. -/
def idleTimer (now : K) (τ : Timer K) : Timer K := τ.stop.start now

/-- A pass of the loop in `run`: the evaluation, the time at which IDLE starts the timer again,
the wait, and what is logged of it. -/
structure Pass (K : Type) where
  eval : Eval K
  restart : K
  cycle : Cycle K
  warning : Option String

/-- The pass leads from one state of the machine and the timer to the next. -/
def Looped (toStr : K → String) (e : Pass K) (u v : Fsm K × Timer K) : Prop :=
  Evaluates e.eval u.1 v.1 ∧
    timingFunction toStr e.cycle (if u.1.second = .idle then idleTimer e.restart u.2 else u.2) =
      (e.warning, v.2)

/-- What `main` enters the loop with. -/
def mainStart (d : FsmData K) (now : K) : Fsm K × Timer K :=
  (setup .init d, (Timer.new d.machine.tqMax).start now)

/-- The time since which a pass is measured: the end of the wait before it, or the time at which
IDLE started the timer again. -/
def Pass.since (last : K) (e : Pass K) : K := if e.eval.before.second = .idle then e.restart else last

/-- The end of the last wait. -/
def lastNow (start : K) (es : List (Pass K)) : K := (es.getLast?.map (·.cycle.now)).getD start

/-- What is logged of a pass that has taken the time `dt`. -/
def warningOf (toStr : K → String) (maxWait dt : K) (slept : Slept) : Option String :=
  if lt maxWait dt then
    some ("Timer: cycle time " ++ toStr dt ++ " exceeded maximum: " ++ toStr maxWait ++ " sec")
  else match slept with
    | .late => some "Timer: signal was late"
    | .interrupted => some "Timer: clock_nanosleep interrupted by signal"
    | .ok => none

/-- The pass is logged as too long. -/
def Pass.LoggedLong (e : Pass K) : Prop := ∃ s, e.warning = some ("Timer: cycle time " ++ s)

/-- A timer that runs, with what it measures its next cycle by. -/
structure Clocked (maxWait last : K) (τ : Timer K) : Prop where
  started : τ.started = true
  maxWait_eq : τ.maxWait = maxWait
  last_eq : τ.last = last

section Passes

variable {toStr : K → String} {maxWait last : K} {u v : Fsm K × Timer K} {e : Pass K}
  {es : List (Pass K)}

variable (toStr) in
/-- A wait that is measured. -/
theorem timingFunction_run {τ : Timer K} (h : Clocked maxWait last τ) (c : Cycle K) :
    ∃ τ', timingFunction toStr c τ = (warningOf toStr maxWait (c.now - last) c.slept, τ') ∧
      Clocked maxWait c.now τ' := by
  obtain ⟨hs, rfl, rfl⟩ := h
  refine ⟨Timer.cycle false id c τ, ?_, hs, rfl, rfl⟩
  have hwait : (Timer.wait false id c).run τ = .ok (if lt τ.maxWait (c.now - τ.last) then
      .maxWaitExceeded else c.slept.result) (Timer.cycle false id c τ) := by
    rw [Timer.wait, EStateM.run_bind, EStateM.run_get]
    dsimp only
    rw [hs]
    rfl
  rw [timingFunction, Timer.waitThrow, EStateM.run_bind, hwait]
  unfold warningOf
  by_cases hlate : lt τ.maxWait (c.now - τ.last) = true
  · simp only [hlate, if_true]
    rfl
  · rw [Bool.not_eq_true] at hlate
    cases hslept : c.slept <;>
      simp only [hlate, Bool.false_eq_true, if_false, Slept.result] <;> rfl

/-- One pass.  The timer always runs, so that it is measured. -/
theorem Looped.step (h : Looped toStr e u v) (hc : Clocked maxWait last u.2) :
    e.warning = warningOf toStr maxWait (e.cycle.now - e.since last) e.cycle.slept ∧
      Clocked maxWait e.cycle.now v.2 := by
  obtain ⟨heval, htime⟩ := h
  have hsince : Clocked maxWait (e.since last)
      (if u.1.second = .idle then idleTimer e.restart u.2 else u.2) := by
    rw [Pass.since, heval.1]
    split
    · exact ⟨rfl, hc.maxWait_eq, rfl⟩
    · exact hc
  obtain ⟨τ', hrun, hτ'⟩ := timingFunction_run toStr hsince e.cycle
  obtain ⟨hw, rfl⟩ := Prod.mk.inj (htime.symm.trans hrun)
  exact ⟨hw, hτ'⟩

omit [DataArith K] in
theorem lastNow_cons (start : K) (e : Pass K) (es : List (Pass K)) :
    lastNow start (e :: es) = lastNow e.cycle.now es := by
  cases es with
  | nil => rfl
  | cons e' es => simp [lastNow, List.getLast?_cons]

theorem clocked_of_run (hr : Run (Looped toStr) u es v) (hc : Clocked maxWait last u.2) :
    Clocked maxWait (lastNow last es) v.2 := by
  induction hr generalizing last with
  | nil u => exact hc
  | cons he _ ih =>
    rw [lastNow_cons]
    exact ih (he.step hc).2

theorem clocked_mainStart (d : FsmData K) (now : K) :
    Clocked d.machine.tqMax now (mainStart d now).2 := ⟨rfl, rfl, rfl⟩

/-- The machine in the loop runs as it does on its own. -/
theorem fsmRun_of_looped (hr : Run (Looped toStr) u es v) : FsmRun u.1 (es.map (·.eval)) v.1 := by
  induction hr with
  | nil u => exact .nil u.1
  | cons he _ ih => exact .cons he.1 ih

/-- What is logged.  In every run of the program the timer runs at each wait, and a pass is logged
as too long exactly when the time since the last wait, or since the key was read in IDLE, exceeds
the maximum; otherwise only if the sleep did not end as it should.  Waiting for a key is never
too long. -/
theorem loop_warnings {d : FsmData K} {now : K} (hr : Run (Looped toStr) (mainStart d now) es v) :
    ∀ pre e post, es = pre ++ e :: post →
      e.warning = warningOf toStr d.machine.tqMax (e.cycle.now - e.since (lastNow now pre))
        e.cycle.slept := by
  rintro pre e post rfl
  obtain ⟨w, hpre, hrest⟩ := hr.append_split
  cases hrest with
  | cons he _ => exact (he.step (clocked_of_run hpre (clocked_mainStart d now))).1

end Passes

noncomputable section

open XReal

section Deadline

variable {toStr : XReal → String} {d : FsmData XReal} {m : Machine XReal} {bs : List (Block XReal)}
  {A tq M x : ℝ} {u v : Fsm XReal × Timer XReal} {e e₀ : Pass XReal} {pre es : List (Pass XReal)}
  {evals : List (Eval XReal)} {s t : Fsm XReal} {τ : Timer XReal} {p : Program XReal} {j r : ℕ}

/-- The clock shows a number at each wait. -/
def Ticking (es : List (Pass XReal)) : Prop := ∀ e ∈ es, ∃ x, e.cycle.now = .fin x

/-- A pass that is not logged as too long has not been. -/
theorem now_le_of_quiet (hw : ¬ e.LoggedLong) (hidle : e.eval.before.second ≠ .idle)
    (h : Looped toStr e u v) (hc : Clocked (.fin M) (.fin x) u.2) {y : ℝ} (hy : e.cycle.now = .fin y) :
    y ≤ x + M := by
  have hlog := (h.step hc).1
  rw [Pass.since, if_neg hidle, hy, sub_def] at hlog
  unfold warningOf at hlog
  by_contra hlate
  have hlt : DataArith.lt (.fin M) (.fin (y - x) : XReal) = true := by
    rw [lt_def]
    linarith
  rw [if_pos hlt, String.append_assoc, String.append_assoc, String.append_assoc] at hlog
  exact hw ⟨_, hlog⟩

/-- Passes that are not logged as too long, none of them in IDLE: each takes the maximum at most. -/
theorem lastNow_le (hr : Run (Looped toStr) u es v) (hc : Clocked (.fin M) (.fin x) u.2)
    (hclock : Ticking es) (hw : ∀ e ∈ es, ¬ e.LoggedLong)
    (hidle : ∀ e ∈ es, e.eval.before.second ≠ .idle) :
    ∃ y, lastNow (.fin x) es = .fin y ∧ y ≤ x + es.length * M := by
  induction hr generalizing x with
  | nil u => exact ⟨x, rfl, by simp⟩
  | @cons e u w v es he hrest ih =>
    obtain ⟨y, hy⟩ := hclock e (List.mem_cons_self ..)
    have hle := now_le_of_quiet (hw e (List.mem_cons_self ..)) (hidle e (List.mem_cons_self ..)) he
      hc hy
    have hc' := (he.step hc).2
    rw [hy] at hc'
    obtain ⟨z, hz, hzle⟩ := ih hc' (fun e' h => hclock e' (List.mem_cons_of_mem _ h))
      (fun e' h => hw e' (List.mem_cons_of_mem _ h)) fun e' h => hidle e' (List.mem_cons_of_mem _ h)
    refine ⟨z, by rw [lastNow_cons, hy, hz], ?_⟩
    rw [List.length_cons]
    push_cast
    linarith

/-- The count of the evaluations, over a run that comes back to IDLE. -/
theorem Timed.run (hm : Geared m A tq) (hd : ∀ b ∈ bs, b.Drivable)
    (hknown : ∀ b ∈ bs, b.type.Known) (h : Timed m tq bs j r s) (hr : FsmRun s evals t)
    (hq : ∀ e ∈ evals, Quiet e.env) (hidle : ∀ e ∈ evals, e.before.second ≠ .idle)
    (ht : t.second = .idle) : evals.length = r ∧ Timed m tq bs (j + r) 0 t := by
  have hstep : ∀ j r e u v, Quiet e.env ∧ e.before.second ≠ .idle → Timed m tq bs j (r + 1) u →
      Evaluates e u v → Timed m tq bs (j + 1) r v := by
    intro j r e u v hP hu hev
    obtain ⟨e', w, hw, henv, hw'⟩ := hu.step hm hd hknown hP.1
    rw [eval_unique hev.2.2.2 (henv ▸ hw.2.2.2)]
    exact hw'
  have hend : ∀ j e u v, Quiet e.env ∧ e.before.second ≠ .idle → Timed m tq bs j 0 u →
      ¬ Evaluates e u v := by
    intro j e u v hP hu hev
    rw [hev.1] at hP
    exact hP.2 hu.counted.back.1.second
  obtain ⟨r', hlen, ht'⟩ := hr.countdown _ _ hstep hend (fun e he => ⟨hq e he, hidle e he⟩) h
  cases r' with
  | zero =>
    obtain rfl : evals.length = r := hlen
    exact ⟨rfl, ht'⟩
  | succ r' => exact absurd ht ht'.counted.not_idle

/-- The deadline of a program.  On a machine without an agent, a program run that is not
interrupted takes one pass for each evaluation of its blocks, whatever is logged of them; and where
the clock shows numbers and no pass is logged as too long, the run is over, on the clock, within
the maximum for each pass. -/
theorem loop_deadline {now : XReal} (hpre : Run (Looped toStr) (mainStart d now) pre u)
    (hs : u.1.second = .idle) (hcalm : u.1.stopRequested = false) (hp : u.1.data.program = some p)
    (hm : Geared u.1.data.machine A tq) (hknown : ∀ b ∈ p.blocks, b.type.Known)
    (hd : ∀ b ∈ p.blocks, b.Drivable) (hr : Run (Looped toStr) u (e₀ :: es) v)
    (hkey : e₀.eval.env.key = ' ') (hq : ∀ e ∈ e₀ :: es, Quiet e.eval.env)
    (hbusy : ∀ e ∈ es, e.eval.before.second ≠ .idle) (hv : v.1.second = .idle) :
    es.length = p.blocks.length + (p.blocks.map (evaluations (.fin tq))).sum + 1 ∧
      v.1.data.tTot = .fin (tq * (es.length - 1 : ℕ)) ∧
      (Ticking (e₀ :: es) → (∀ e ∈ es, ¬ e.LoggedLong) → ∀ M, d.machine.tqMax = .fin M →
        ∃ x y, e₀.cycle.now = .fin x ∧ lastNow (.fin x) es = .fin y ∧ y ≤ x + es.length * M) := by
  have hrun := fsmRun_of_looped hpre
  obtain ⟨p', hp', hwired⟩ := (safe_run hrun).program (by rw [hs]; decide) (by rw [hs]; decide)
  obtain ⟨p'', hp'', hsrc⟩ := sourced_run hrun (by rw [hs]; decide) (by rw [hs]; decide)
  cases hp.symm.trans hp'
  cases hp.symm.trans hp''
  have hsrc := hsrc.congr (sameSetup_of_run hrun)
  have hclocked := clocked_of_run hpre (clocked_mainStart d now)
  cases hr with
  | @cons _ _ w _ _ he₀ hes =>
    obtain ⟨w', hw', hcount, -, htot, hblk⟩ := exists_start ⟨hs, hcalm⟩ hp hwired.toWired hsrc
      ⟨_, rfl⟩ hkey (hq e₀ (List.mem_cons_self ..))
    obtain rfl := eval_unique he₀.1.2.2.2 hw'
    have hstart : Timed u.1.data.machine tq p.blocks 0 (evalsLeft u.1.data.machine.tq p.blocks) w.1 := by
      have hpos := evalsLeft_pos u.1.data.machine.tq p.blocks
      refine ⟨hcount, fun _ => ?_, fun h0 => by omega, fun _ => ⟨0, ?_, le_rfl, by simp⟩⟩
      · rw [htot]
        simp
      · rw [hblk]
        simp
    obtain ⟨hlen, hend⟩ := hstart.run hm hd hknown (fsmRun_of_looped hes)
      (by simpa using fun e he => hq e (List.mem_cons_of_mem _ he)) (by simpa using hbusy) hv
    rw [List.length_map, hm.tq_eq, evalsLeft_known _ hknown] at hlen
    refine ⟨hlen, ?_, fun hclock hw M hM => ?_⟩
    · rw [hend.last rfl, Nat.zero_add, hm.tq_eq, evalsLeft_known _ hknown, hlen]
    · obtain ⟨x, hx⟩ := hclock e₀ (List.mem_cons_self ..)
      have hcw := (he₀.step hclocked).2
      rw [hx, hM] at hcw
      obtain ⟨y, hy, hle⟩ := lastNow_le hes hcw (fun e h => hclock e (List.mem_cons_of_mem _ h)) hw
        hbusy
      exact ⟨x, y, hx, hy, hle⟩

variable (toStr) in
/-- A run of the machine goes on in the loop, with a clock that shows `δ` more at each wait. -/
theorem exists_looped {δ : ℝ} (hδ : δ ≤ M) (hr : FsmRun s evals t)
    (hc : Clocked (.fin M) (.fin x) τ) : ∃ es τ', Run (Looped toStr) (s, τ) es (t, τ') ∧
      es.map (·.eval) = evals ∧ Ticking es ∧ (∀ e ∈ es, e.warning = none) ∧
      ∃ y, Clocked (.fin M) (.fin y) τ' := by
  induction hr generalizing x τ with
  | nil s => exact ⟨[], τ, .nil _, rfl, by simp [Ticking], by simp, x, hc⟩
  | @cons e s u t evals he _ ih =>
    have hsince : Clocked (.fin M) (.fin x) (if s.second = .idle then idleTimer (.fin x) τ else τ) := by
      split
      · exact ⟨rfl, hc.maxWait_eq, rfl⟩
      · exact hc
    obtain ⟨τ₁, hrun, hτ₁⟩ :=
      timingFunction_run toStr hsince ⟨.fin x, .fin (x + δ), .ok⟩
    have hnone : warningOf toStr (.fin M : XReal) (.fin (x + δ) - .fin x) .ok = none := by
      have hlt : DataArith.lt (.fin M) (.fin (x + δ - x) : XReal) = false := by
        rw [← Bool.not_eq_true, lt_def]
        linarith
      rw [sub_def, warningOf, hlt]
      rfl
    rw [hnone] at hrun
    obtain ⟨es, τ', hes, hmap, hclock, hw, hend⟩ := ih hτ₁
    refine ⟨⟨e, .fin x, ⟨.fin x, .fin (x + δ), .ok⟩, none⟩ :: es, τ', .cons ⟨he, hrun⟩ hes,
      by rw [List.map_cons, hmap], ?_, ?_, hend⟩
    · exact List.forall_mem_cons.mpr ⟨⟨_, rfl⟩, hclock⟩
    · exact List.forall_mem_cons.mpr ⟨rfl, hw⟩

/-- A program of the default machine, in a loop whose passes take as long as they should. -/
theorem exists_timely (toStr : XReal → String) {lines : List Line} {p : Program XReal}
    (hload : Edited Machine.default (.load "part.g" (some lines) false) Program.empty p)
    (hd : ∀ b ∈ p.blocks, b.Drivable) : ∃ (e₀ : Pass XReal) (pre es : List (Pass XReal))
    (u v : Fsm XReal × Timer XReal),
    Run (Looped toStr) (mainStart partData (.fin 0)) pre u ∧ Run (Looped toStr) u (e₀ :: es) v ∧
      Calm .idle u.1 ∧ u.1.data.program = some p ∧ Geared u.1.data.machine 5 (1 / 1000) ∧
      e₀.eval.env.key = ' ' ∧ (∀ e ∈ e₀ :: es, Quiet e.eval.env) ∧
      (∀ e ∈ es, e.eval.before.second ≠ .idle) ∧ v.1.second = .idle ∧ Ticking (e₀ :: es) ∧
      ∀ e ∈ es, e.warning = none := by
  obtain ⟨e₁, e₀, evals, s, t, h₁, hs, hp, hm, hrun, hbefore, ht⟩ := exists_part_run hload hd
  have hM : partData.machine.tqMax = (.fin (1 / 100) : XReal) := by
    simp [partData, Machine.default]
  have hstart := clocked_mainStart partData (.fin 0 : XReal)
  rw [hM] at hstart
  obtain ⟨pre, τ, hpre, hmap, -, -, y, hy⟩ :=
    exists_looped toStr (show (1 / 1000 : ℝ) ≤ 1 / 100 by norm_num) (.single h₁) hstart
  obtain ⟨w, hbegin, hrest⟩ := hrun.run.append_split
  have hw : w = s := by
    cases hrest with
    | cons he _ => exact he.1.symm.trans hbefore
  rw [hw] at hrest
  obtain ⟨es, τ', hes, hmap', hclock, hquiet, -⟩ :=
    exists_looped toStr (show (1 / 1000 : ℝ) ≤ 1 / 100 by norm_num) hrest hy
  obtain ⟨e, es, rfl, rfl, rfl⟩ := List.map_eq_cons_iff.mp hmap'
  refine ⟨e, pre, es, _, _, hpre, hes, hs, hp, hm, hrun.key, fun e' he' => ?_, fun e' he' => ?_, ht,
    hclock, fun e' he' => hquiet e' (List.mem_cons_of_mem _ he')⟩
  · exact hrun.quiet _ (List.mem_append_right _ (List.mem_map_of_mem he'))
  · exact hrun.busy _ (List.mem_map_of_mem he')

/-- The two durations that a pass of one second is logged with. -/
def twoDurations (v : XReal) : String := if DataArith.lt v (num 1) then "0.010000" else "1.000000"

theorem loop_warnings_sample : ∃ (e : Pass XReal) (u : Fsm XReal × Timer XReal),
    Run (Looped twoDurations) (mainStart partData (.fin 0)) [e] u ∧
      e.warning = some "Timer: cycle time 1.000000 exceeded maximum: 0.010000 sec" := by
  obtain ⟨p, hload⟩ := exists_load (K := XReal) Machine.default "part.g" [sampleLine]
    (by decide +kernel) (by decide +kernel)
  obtain ⟨e₁, s, h₁, -, -, -⟩ := exists_init (d := partData) rfl hload
  obtain ⟨w, τ, hrun⟩ : ∃ w τ, timingFunction twoDurations ⟨.fin 0, .fin 1, .late⟩
      (mainStart partData (.fin 0)).2 = (w, τ) := ⟨_, _, rfl⟩
  have hr : Run (Looped twoDurations) (mainStart partData (.fin 0))
      [⟨e₁, .fin 0, ⟨.fin 0, .fin 1, .late⟩, w⟩] (s, τ) := .single ⟨h₁, hrun⟩
  refine ⟨_, _, hr, (loop_warnings hr [] _ [] rfl).trans ?_⟩
  have hsince : Pass.since (.fin 0) ⟨e₁, .fin 0, ⟨.fin 0, .fin 1, .late⟩, w⟩ =
      (.fin 0 : XReal) := by
    rw [Pass.since, h₁.1, if_neg (by decide)]
  have hM : partData.machine.tqMax = (.fin (1 / 100) : XReal) := by
    simp [partData, Machine.default]
  have hlate : DataArith.lt (.fin (1 / 100)) (.fin (1 - 0) : XReal) = true := by
    rw [lt_def]
    norm_num
  have hlong : twoDurations (.fin (1 - 0)) = "1.000000" := by
    rw [twoDurations, if_neg (by simp)]
  have hshort : twoDurations (.fin (1 / 100)) = "0.010000" := by
    rw [twoDurations, if_pos (by rw [num_def, lt_def]; norm_num)]
  rw [lastNow, List.getLast?_nil, Option.map_none, Option.getD_none, hsince, hM]
  unfold warningOf
  rw [sub_def, if_pos hlate, hlong, hshort]
  rfl

/-- The passes of three blocks, of which only the line takes more than one evaluation. -/
theorem loop_deadline_sample : ∃ (a b c : Block XReal) (es : List (Pass XReal))
    (v : Fsm XReal × Timer XReal) (x y : ℝ), a.type = .rapid ∧ b.type = .line ∧ c.type = .noMotion ∧
      v.1.second = .idle ∧ es.length = evaluations (.fin (1 / 1000)) b + 6 ∧
      lastNow (.fin x) es = .fin y ∧ y ≤ x + es.length * (1 / 100) := by
  obtain ⟨p, a, b, c, hload, hmix⟩ := exists_mixed
  obtain ⟨e₀, pre, es, u, v, hpre, hr, hs, hp, hm, hkey, hq, hbusy, hv, hclock, hw⟩ :=
    exists_timely (fun _ => "0.001000") hload hmix.drivable
  have hM : partData.machine.tqMax = (.fin (1 / 100) : XReal) := by
    simp [partData, Machine.default]
  obtain ⟨hlen, -, hend⟩ := loop_deadline hpre hs.second hs.flag hp hm hmix.known hmix.drivable hr
    hkey hq hbusy hv
  have hquiet : ∀ e ∈ es, ¬ e.LoggedLong := by
    rintro e he ⟨s, hs⟩
    cases (hw e he).symm.trans hs
  obtain ⟨x, y, -, hy, hle⟩ := hend hclock hquiet _ hM
  refine ⟨a, b, c, es, v, x, y, hmix.rapid, hmix.line, hmix.still, hv, hlen.trans ?_, hy, hle⟩
  have hthree : p.blocks.length = 3 := by
    rw [hmix.blocks]
    rfl
  rw [hmix.evaluations_sum, hthree]
  omega

end Deadline

end

end Cncpp
