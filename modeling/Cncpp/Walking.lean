import Cncpp.Clock
import Cncpp.Endpoints
import Cncpp.Execution
import Cncpp.Provenance

/-! The two loops over an interpolated block: `walk`, which visits the ticks of its profile,
and the machine, which commands one setpoint at each tick. -/

namespace Cncpp

open DataArith Lib Lib.ExceptState Fsm

/-! ## Interpolation returns -/

namespace Block

variable {K : Type} [DataArith K] {m m' : Machine K} {prev : Option (Block K)} {b : Block K}

/-- Of the machine, the interpolation only reads the reference point. -/
theorem interpolate_congr (hz : m'.zero = m.zero) (lam : K) :
    b.interpolate m' prev lam = b.interpolate m prev lam := by
  have hs : b.startPoint m' prev = b.startPoint m prev := by
    unfold startPoint
    cases prev with
    | none => rw [hz]
    | some q => rfl
  rw [interpolate, interpolate, hs]

/-- Only parsed blocks are sampled. -/
theorem parsed_of_interpolateAt {time : K} {r : Point K × Sample K}
    (h : b.interpolateAt m prev time = .ok r) : b.parsed = true := by
  cases hp : b.parsed with
  | true => rfl
  | false =>
    have hlam : b.lambda time = .error .lambdaNotParsed := by
      rw [lambda, hp]
      rfl
    rw [interpolateAt, hlam] at h
    cases h

/-- What a parsed block has got for its interpolation. -/
structure Plotted (b : Block K) : Prop where
  parsed : b.parsed = true
  hasMachine : b.hasMachine = true
  target : ∃ x y z, b.target = .ofCoords x y z
  delta : ∃ x y z, b.delta = .ofCoords x y z
  center : b.type.IsArc → ∃ x y, b.center.x = some x ∧ b.center.y = some y

theorem ParsedBy.plotted (h : ParsedBy m b) : Plotted b := by
  obtain ⟨m', prev, b0, c, next, -, hp, rfl⟩ := h
  obtain ⟨x0, y0, z0, x, y, z, -, ht, hd, hm, -⟩ := points_of_parse hp
  refine ⟨?_, hm, ⟨x, y, z, ht⟩, ⟨_, _, _, hd⟩, fun ha => ?_⟩
  · obtain ⟨-, -, _, _, _, _, -, -, rfl⟩ := parse_iff.mp hp
    rfl
  · obtain ⟨_, _, _, _, _, _, _, xc, yc, -, -, -, hst⟩ := arc_of_inputs hp ha
    exact ⟨xc, yc, hst.center⟩

theorem Plotted.interpolate_returns (h : Plotted b) (ht : b.type.Interpolated) {x0 y0 z0 : K}
    (h0 : origin m prev = .ofCoords x0 y0 z0) (lam : K) :
    ∃ x y z, b.interpolate m prev lam = .ok (.ofCoords x y z) := by
  have hs : b.startPoint m prev = .ok (.ofCoords x0 y0 z0) :=
    startPoint_eq_ok.mpr ⟨h.hasMachine, h0⟩
  obtain ⟨dx, dy, dz, hd⟩ := h.delta
  by_cases hl : b.type = .line
  · simp only [interpolate, h.parsed, Bool.not_true, Bool.false_eq_true, ↓reduceIte, hs, hl, hd,
      Point.getX_ofCoords, Point.getY_ofCoords, Point.getZ_ofCoords, bind_pure_comp, Except.map_ok,
      pure_bind]
    exact ⟨_, _, _, rfl⟩
  · have ha : b.type = .cwa ∨ b.type = .ccwa := ht.resolve_left hl
    obtain ⟨xc, yc, hx, hy⟩ := h.center ha
    have hx : b.center.getX = .ok xc := Point.value_eq_ok.mpr hx
    have hy : b.center.getY = .ok yc := Point.value_eq_ok.mpr hy
    simp only [interpolate, h.parsed, Bool.not_true, Bool.false_eq_true, ↓reduceIte, hs, hl, ha, hd,
      hx, hy, Point.getZ_ofCoords, bind_pure_comp, Except.map_ok, pure_bind]
    exact ⟨_, _, _, rfl⟩

end Block

noncomputable section

open XReal

/-! ## Profiles in ticks -/

/-- The profile of the block is a law that lasts `k` ticks. -/
structure Ticks (tq : ℝ) (b : Block XReal) (T : Trapezoid) (k : ℕ) : Prop where
  parsed : b.parsed = true
  profile : b.profile = ofLaw T (k * tq)
  duration : T.duration = k * tq

section Ticks

variable {m : Machine XReal} {b : Block XReal} {A tq l F : ℝ} {T : Trapezoid} {k : ℕ}

theorem exists_ticks (h : b.ParsedBy m) (ht : b.type.Interpolated) (hA : m.A = .fin A) (hA0 : 0 < A)
    (htq : m.tq = .fin tq) (htq0 : 0 < tq) (hl : b.length = .fin l) (hl0 : 0 < l)
    (hF : b.feedrate = .fin F) (hF0 : 0 < F) : ∃ T k, Ticks tq b T k := by
  obtain ⟨m', prev, b0, c, next, hs, hp, rfl⟩ := h
  have hr : ∃ r, c.type ≠ .line → c.r = .fin r ∧ 0 < r := by
    by_cases hline : c.type = .line
    · exact ⟨0, fun hne => absurd hline hne⟩
    · have ha : c.type.IsArc := ht.resolve_left hline
      obtain ⟨_, _, _, _, _, _, r, xc, yc, -, -, -, hst⟩ := Block.arc_of_inputs hp ha
      obtain ⟨v, θ0, θf, rfl, hv0, -⟩ := stores_fin hst hl hl0
      exact ⟨|v|, fun _ => ⟨hst.r.trans (fabs_def v), abs_pos.mpr hv0⟩⟩
  obtain ⟨r, hr⟩ := hr
  obtain ⟨hf, hpar, -, hprof⟩ := law_of_parse hp ht (hs.A.trans hA) hA0 (hs.tq.trans htq) htq0 hl
    hl0 hF hF0 hr
  exact ⟨_, _, hpar, hprof, Leg.law_duration _ hf⟩

/-- The sample at a tick. -/
theorem Ticks.lambda (h : Ticks tq b T k) (t : ℝ) :
    b.lambda (.fin t) = .ok (b.profile.lambda (.fin t)) ∧
      (b.profile.lambda (.fin t)).lambda = .fin (progress T t) := by
  refine ⟨?_, ?_⟩
  · rw [Block.lambda, if_pos h.parsed]
  · rw [h.profile, lambda_ofLaw]

theorem tick_succ (tq : ℝ) (j : ℕ) : (.fin (j * tq) + .fin tq : XReal) = .fin ((j + 1 : ℕ) * tq) := by
  rw [add_def]
  push_cast
  congr 1
  ring

/-- The visits of `walk` to the ticks from `j` on, for a block that lasts `k` ticks. -/
theorem walkFrom_ticks (hpar : b.parsed = true) (hdt : b.profile.dt = .fin (k * tq)) (htq0 : 0 < tq)
    {n j fuel : ℕ} (hj : j + n = k + 1) (hfuel : n < fuel) :
    b.walkFrom (.fin tq) fuel (.fin (j * tq)) = .ok (some ((List.range' j n).map fun i : ℕ =>
      (.fin (i * tq), b.profile.lambda (.fin (i * tq))))) := by
  have hle : ∀ i : ℕ, DataArith.le (.fin (i * tq) : XReal) b.profile.dt = true ↔ i ≤ k := by
    intro i
    rw [hdt, le_def, mul_le_mul_iff_left₀ htq0, Nat.cast_le]
  have hlam : ∀ t, b.lambda t = .ok (b.profile.lambda t) := fun t => by
    rw [Block.lambda, if_pos hpar]
  induction n generalizing j fuel with
  | zero =>
    obtain ⟨fuel, rfl⟩ := Nat.exists_eq_add_of_lt hfuel
    rw [Nat.zero_add, Block.walkFrom, if_neg (by rw [hle]; omega)]
    rfl
  | succ n ih =>
    cases fuel with
    | zero => omega
    | succ fuel =>
      have hrest := @ih (j + 1) fuel (by omega) (by omega)
      rw [Block.walkFrom, if_pos ((hle j).mpr (by omega)), hlam, tick_succ, hrest]
      rfl

/-- `walk` comes to its end where the block lasts a whole number of ticks. -/
theorem walk_whole (hpar : b.parsed = true) (hdt : b.profile.dt = .fin (k * tq))
    (htq : m.tq = .fin tq) (htq0 : 0 < tq) {fuel : ℕ} (hfuel : k + 1 < fuel) :
    b.walk m fuel = .ok (some ((List.range' 0 (k + 1)).map fun i : ℕ =>
      (.fin (i * tq), b.profile.lambda (.fin (i * tq))))) := by
  have hzero : (num 0 : XReal) = .fin ((0 : ℕ) * tq) := by simp
  rw [Block.walk, htq, hzero]
  exact walkFrom_ticks hpar hdt htq0 (by omega) hfuel

theorem Ticks.walk (h : Ticks tq b T k) (htq : m.tq = .fin tq) (htq0 : 0 < tq) {fuel : ℕ}
    (hfuel : k + 1 < fuel) :
    b.walk m fuel = .ok (some ((List.range' 0 (k + 1)).map fun i : ℕ =>
      (.fin (i * tq), b.profile.lambda (.fin (i * tq))))) := by
  have hdt : b.profile.dt = .fin (k * tq) := by
    rw [h.profile]
    rfl
  exact walk_whole h.parsed hdt htq htq0 hfuel

end Ticks

/-! ## The ticks of the machine -/

/-- A complete point can be commanded. -/
theorem exists_setpoint {K : Type} [DataArith K] (reply : Reply K) (m : Machine K) (x y z : K) :
    ∃ m', (Machine.setSetpoint reply (.ofCoords x y z)).run m = .ok () m' ∧
      Commanded (.ofCoords x y z) m m' ∧
      (m.agent = none → m' = { m with setpoint := .ofCoords x y z }) := by
  have hrun : ∃ m', (Machine.setSetpoint reply (.ofCoords x y z)).run m = .ok () m' := by
    rw [Machine.setSetpoint, EStateM.run_bind, EStateM.run_modify]
    dsimp only
    rw [EStateM.run_bind, EStateM.run_get]
    dsimp only
    split
    · rw [Point.getX_ofCoords, Point.getY_ofCoords, Point.getZ_ofCoords]
      exact ⟨_, rfl⟩
    · exact ⟨_, rfl⟩
  obtain ⟨m', hm⟩ := hrun
  refine ⟨m', hm, commanded_of_setSetpoint hm, fun ha => ?_⟩
  have hsame := (setSetpoint_run ha _).symm.trans hm
  injection hsame with _ hsame
  exact hsame.symm

/-- The block `b`, behind `prev`, is under the cursor of `q`, and is carried out by a machine
with the reference point and the tick of `m`. -/
structure Underway (m : Machine XReal) (tq : ℝ) (q : Program XReal) (b : Block XReal)
    (prev : Option (Block XReal)) : Prop where
  block : q.deref = some b
  prev_eq : PrevIn q b prev
  interpolates : ∀ lam, ∃ x y z, b.interpolate m prev lam = .ok (.ofCoords x y z)
  tick : m.tq = .fin tq
  tick_pos : 0 < tq

/-- The machine is at the tick `j` of the block. -/
structure AtTick (m : Machine XReal) (tq : ℝ) (q : Program XReal) (j : ℕ) (s : Fsm XReal) :
    Prop where
  calm : Calm .interpMotion s
  program : s.data.program = some q
  zero : s.data.machine.zero = m.zero
  tick : s.data.machine.tq = m.tq
  clock : s.data.tBlk = .fin (j * tq)

section Machine

variable {m : Machine XReal} {tq : ℝ} {q : Program XReal} {b : Block XReal}
  {prev : Option (Block XReal)} {T : Trapezoid} {k j : ℕ} {s t : Fsm XReal} {env : Env XReal}

/-- The end test with its tolerance, at a tick. -/
theorem past_end_iff (h : Ticks tq b T k) (htq0 : 0 < tq) (j : ℕ) :
    DataArith.lt (b.profile.dt + .fin tq / num 10) (.fin (j * tq) : XReal) = true ↔ k < j := by
  rw [h.profile]
  show DataArith.lt (.fin (k * tq) + .fin tq / num 10 : XReal) (.fin (j * tq)) = true ↔ _
  rw [num_def, Rat.cast_ofNat, div_of_ne (by norm_num), add_def, lt_def]
  have he : (k : ℝ) * tq + tq / 10 = (k + 1 / 10) * tq := by ring
  rw [he, mul_lt_mul_iff_left₀ htq0]
  constructor
  · intro hlt
    by_contra hle
    have hcast : (j : ℝ) ≤ k := by exact_mod_cast Nat.le_of_not_lt hle
    linarith
  · intro hlt
    have hcast : (k : ℝ) + 1 ≤ j := by exact_mod_cast hlt
    linarith

/-- One tick: the setpoint at the progress of its time, and the next tick, or the next block
behind the end. -/
theorem tick (hT : Ticks tq b T k) (hb : Underway m tq q b prev) (h : AtTick m tq q j s)
    (hq : Quiet env) : ∃ m' P, b.interpolate m prev (.fin (progress T (j * tq))) = .ok P ∧
      Commanded P s.data.machine m' ∧
      (s.data.machine.agent = none → m' = { s.data.machine with setpoint := P }) ∧
      (evalState env).run s = .ok () ⟨.interpMotion, if k < j then .loadBlock else .interpMotion,
        { s.data with
          machine := m'
          tTot := s.data.tTot + s.data.machine.tq
          tBlk := .fin ((j + 1 : ℕ) * tq) }, false⟩ := by
  obtain ⟨x, y, z, hP⟩ := hb.interpolates (.fin (progress T (j * tq)))
  obtain ⟨hlam, hprog⟩ := hT.lambda (j * tq)
  obtain ⟨m', hm, hcom, hoff⟩ := exists_setpoint env.reply s.data.machine x y z
  have hint : b.interpolateAt s.data.machine prev s.data.tBlk =
      .ok (.ofCoords x y z, b.profile.lambda (.fin (j * tq))) := by
    rw [h.clock]
    exact interpolateAt_of_lambda hT.parsed hprog ((Block.interpolate_congr h.zero _).trans hP)
  have htq : s.data.machine.tq = .fin tq := h.tick.trans hb.tick
  refine ⟨m', _, hP, hcom, hoff, ?_⟩
  rw [eval_interp hq h.calm h.program hb.block hb.prev_eq hint hm, htq, h.clock, tick_succ]
  have hiff := past_end_iff hT hb.tick_pos j
  by_cases hk : k < j
  · rw [if_pos (hiff.mpr hk), if_pos hk]
  · rw [if_neg (fun hlt => hk (hiff.mp hlt)), if_neg hk]

/-- Behind a tick comes the next one. -/
theorem AtTick.next (h : AtTick m tq q j s) {P : Point XReal} {m' : Machine XReal}
    (hcom : Commanded P s.data.machine m') (tTot : XReal) : AtTick m tq q (j + 1)
      ⟨.interpMotion, .interpMotion, { s.data with
        machine := m', tTot := tTot, tBlk := .fin ((j + 1 : ℕ) * tq) }, false⟩ :=
  ⟨⟨rfl, rfl⟩, h.program, hcom.zero.trans h.zero, hcom.tq.trans h.tick, rfl⟩

/-- The setpoints of a run that leaves the block: one at each tick of its profile, and one
more at its end. -/
theorem setpoints_of_run (hT : Ticks tq b T k) (hb : Underway m tq q b prev) {es : List (Eval XReal)}
    (hr : FsmRun s es t) (h : AtTick m tq q j s) (hj : j ≤ k + 1) (hq : ∀ e ∈ es, Quiet e.env)
    (hin : ∀ e ∈ es, e.before.second = .interpMotion) (hout : t.second ≠ .interpMotion) :
    ∃ ps P, es.map (·.after.data.machine.setpoint) = ps ++ [P] ∧
      List.Forall₂ (fun i P => b.interpolate m prev (.fin (progress T ((i : ℕ) * tq))) = .ok P)
        (List.range' j (k + 1 - j)) ps ∧
      b.interpolate m prev (.fin 1) = .ok P := by
  induction hr generalizing j with
  | nil s => exact absurd h.calm.second hout
  | @cons e s u t es he hr ih =>
    obtain ⟨rfl, rfl, -, hev⟩ := he
    obtain ⟨m', P, hP, hcom, -, hrun⟩ := tick hT hb h (hq e (by simp))
    have hu := eval_unique hev hrun
    have hset : e.after.data.machine.setpoint = P := by rw [hu, ← hcom.setpoint]
    by_cases hk : k < j
    · -- the end test holds, and the run is over
      obtain rfl : j = k + 1 := by omega
      rw [if_pos hk] at hu
      have hnil : es = [] := by
        cases hr with
        | nil => rfl
        | @cons e' _ _ _ es' he' _ =>
          have hs := hin e' (by simp)
          rw [he'.1, hu] at hs
          cases hs
      have hlate : T.duration ≤ ((k + 1 : ℕ) : ℝ) * tq := by
        rw [hT.duration]
        push_cast
        nlinarith [hb.tick_pos]
      rw [progress_after hlate] at hP
      subst hnil
      refine ⟨[], P, by rw [List.map_singleton, hset, List.nil_append], ?_, hP⟩
      rw [Nat.sub_self]
      exact .nil
    · rw [if_neg hk] at hu
      have hnext : AtTick m tq q (j + 1) e.after := by
        rw [hu]
        exact h.next hcom _
      obtain ⟨ps, Q, hmap, hps, hQ⟩ := ih hnext (by omega) (fun e' he' => hq e' (by simp [he']))
        (fun e' he' => hin e' (by simp [he'])) hout
      refine ⟨P :: ps, Q, ?_, ?_, hQ⟩
      · rw [List.map_cons, hset, hmap, List.cons_append]
      · have hrange : List.range' j (k + 1 - j) = j :: List.range' (j + 1) (k + 1 - (j + 1)) := by
          rw [show k + 1 - j = k + 1 - (j + 1) + 1 by omega]
          rfl
        rw [hrange]
        exact .cons hP hps

/-- The block is left behind its last tick. -/
theorem exists_run_of_ticks (hT : Ticks tq b T k) (hb : Underway m tq q b prev)
    (h : AtTick m tq q 0 s) {envs : List (Env XReal)} (hlen : envs.length = k + 2)
    (hq : ∀ env ∈ envs, Quiet env) :
    ∃ es t, FsmRun s es t ∧ es.map (·.env) = envs ∧
      (∀ e ∈ es, e.before.second = .interpMotion) ∧ t.second = .loadBlock := by
  have hstep : ∀ (j r : ℕ) (u : Fsm XReal) (env : Env XReal), Quiet env →
      (AtTick m tq q j u ∧ j + (r + 1) = k + 2) → ∃ e v, Evaluates e u v ∧ e.env = env ∧
        (if r = 0 then v.second = .loadBlock else AtTick m tq q (j + 1) v ∧ j + 1 + r = k + 2) := by
    rintro j r u env hqe ⟨hu, hj⟩
    obtain ⟨m', P, -, hcom, -, hrun⟩ := tick hT hb hu hqe
    refine ⟨⟨u, env, _⟩, _, ⟨rfl, rfl, by rw [hu.calm.second]; decide, hrun⟩, rfl, ?_⟩
    split
    · rw [if_pos (by omega)]
    · rw [if_neg (by omega)]
      exact ⟨hu.next hcom _, by omega⟩
  obtain ⟨es, t, hr, hmap, ht, hall⟩ := Run.exists_countdown (R := Evaluates) (j := 0) (·.env) Quiet
    (fun j r u => if r = 0 then u.second = .loadBlock else AtTick m tq q j u ∧ j + r = k + 2)
    (fun j r u env hqe hu => hstep j r u env hqe (by simpa using hu)) hq
    (by rw [hlen]; exact ⟨h, by omega⟩)
  refine ⟨es, t, hr, hmap, fun e he => ?_, ht⟩
  obtain ⟨l, l', rfl⟩ := List.append_of_mem he
  obtain ⟨r, u, v, hu, hev⟩ := hall l e l' rfl
  rw [if_neg (Nat.succ_ne_zero r)] at hu
  rw [hev.1]
  exact hu.1.calm.second

end Machine

/-! ## Blocks of a run -/

section Runs

variable {K : Type} [DataArith K] {m : Machine K} {q : Program K} {b : Block K}

omit [DataArith K] in
/-- The block behind the pointer of a block, which is not the last one. -/
theorem exists_prevIn (hw : q.Wired) (hb : b ∈ q.blocks) :
    ∃ prev, PrevIn q b prev ∧ ∀ r ∈ prev, r ∈ q.blocks.dropLast := by
  obtain ⟨i, hi⟩ := List.mem_iff_getElem?.mp hb
  have hlt := (List.getElem?_eq_some_iff.mp hi).1
  cases i with
  | zero =>
    refine ⟨none, ?_, fun r hr => nomatch hr⟩
    exact (hw.chain.prev_eq hi).trans (if_pos rfl)
  | succ n =>
    have hn : n < q.blocks.length := by omega
    have hget := List.getElem?_eq_getElem hn
    refine ⟨some q.blocks[n], prevIn_of_get hw.chain hi hget, fun r hr => ?_⟩
    cases hr
    refine List.mem_iff_getElem?.mpr ⟨n, ?_⟩
    rw [List.getElem?_dropLast, if_pos (by omega), hget]

/-- A block of a run can be interpolated. -/
theorem Program.Sourced.interpolates (h : q.Sourced m) (hw : q.Wired) (hb : b ∈ q.blocks)
    (hpar : b.parsed = true) (ht : b.type.Interpolated) :
    ∃ prev, PrevIn q b prev ∧ ∀ lam, ∃ x y z, b.interpolate m prev lam = .ok (.ofCoords x y z) := by
  obtain ⟨prev, hprev, hmem⟩ := exists_prevIn hw hb
  have ho : ∃ x y z, Block.origin m prev = .ofCoords x y z := by
    cases prev with
    | none => exact (Point.isComplete_iff _).mp m.zero_complete
    | some r =>
      have hr := hmem r rfl
      exact (h.parsed r (List.mem_of_mem_dropLast hr) (h.front r hr)).plotted.target
  obtain ⟨x, y, z, ho⟩ := ho
  exact ⟨prev, hprev, (h.parsed b hb hpar).plotted.interpolate_returns ht ho⟩

end Runs

section Refinement

variable {d : FsmData XReal} {pre : List (Eval XReal)} {e₁ : Eval XReal} {s : Fsm XReal}
  {q : Program XReal} {b : Block XReal} {A tq l F : ℝ}

/-- What LOAD_BLOCK leaves for an interpolated block: the machine is at its first tick. -/
theorem entered (tq : ℝ) (hr : FsmRun (setup .init d) (pre ++ [e₁]) s)
    (hload : e₁.before.second = .loadBlock) (hcalm : s.stopRequested = false) (hprog : s.data.program = some q) (hb : q.deref = some b)
    (ht : b.type.Interpolated) :
    AtTick s.data.machine tq q 0 s ∧ q.Wired ∧ q.Sourced s.data.machine := by
  obtain ⟨u, -, hlast⟩ := hr.append_split
  cases hlast with
  | cons hstep hnil =>
    cases hnil
    obtain ⟨rfl, rfl, -, hev⟩ := hstep
    obtain ⟨p, hl⟩ := eval_loadBlock hload hev
    obtain rfl : p.loadNext = q := Option.some.inj (hl.after.symm.trans hprog)
    have hsec : e₁.after.second = .interpMotion := by
      rcases hl.next with ⟨hd, -⟩ | ⟨-, c, hc, hsec⟩
      · have hcur : p.loadNext.current = none := Option.isNone_iff_eq_none.mp hd
        rw [Program.deref, hcur] at hb
        cases hb
      · cases hb.symm.trans hc
        exact hsec.trans (BlockType.blockState_of_interpolated ht)
    have hclock := hl.clock hsec
    have hm := sameSetup_of_run hr
    obtain ⟨p', hp', hw⟩ := (safe_run hr).program (by rw [hsec]; decide) (by rw [hsec]; decide)
    obtain ⟨p'', hp'', hsrc⟩ := sourced_run hr (by rw [hsec]; decide) (by rw [hsec]; decide)
    cases hprog.symm.trans hp'
    cases hprog.symm.trans hp''
    refine ⟨⟨⟨hsec, hcalm⟩, hprog, rfl, rfl, ?_⟩, hw.toWired, hsrc.congr hm⟩
    rw [hclock]
    simp

/-- The machine refines `walk`.  From the evaluation of LOAD_BLOCK that takes an interpolated
block to the one that leaves INTERP_MOTION, the setpoints are the positions at the times and
progresses that `walk` visits, in that order, and one more at the end of the block; and the
block, if it is parsed, is left after a fixed number of evaluations, whatever they read. -/
theorem motion_refines_walk (hA : d.machine.A = .fin A) (hA0 : 0 < A) (htq : d.machine.tq = .fin tq)
    (htq0 : 0 < tq) (hr : FsmRun (setup .init d) (pre ++ [e₁]) s)
    (hload : e₁.before.second = .loadBlock) (hcalm : s.stopRequested = false)
    (hprog : s.data.program = some q) (hb : q.deref = some b) (ht : b.type.Interpolated)
    (hl : b.length = .fin l) (hl0 : 0 < l) (hF : b.feedrate = .fin F) (hF0 : 0 < F) :
    (∀ es t, FsmRun s es t → (∀ e ∈ es, Quiet e.env) →
      (∀ e ∈ es, e.before.second = .interpMotion) → t.second ≠ .interpMotion →
      ∃ vs ps P prev, (∃ n, ∀ fuel, n < fuel → b.walk s.data.machine fuel = .ok (some vs)) ∧
        PrevIn q b prev ∧ es.map (·.after.data.machine.setpoint) = ps ++ [P] ∧
        List.Forall₂ (fun v Q => b.interpolate s.data.machine prev v.2.lambda = .ok Q) vs ps ∧
        b.interpolate s.data.machine prev (num 1) = .ok P) ∧
    (b.parsed = true → ∃ n, ∀ envs, envs.length = n → (∀ env ∈ envs, Quiet env) →
      ∃ es t, FsmRun s es t ∧ es.map (·.env) = envs ∧
        (∀ e ∈ es, e.before.second = .interpMotion) ∧ t.second ≠ .interpMotion) := by
  obtain ⟨hat, hw, hsrc⟩ := entered tq hr hload hcalm hprog hb ht
  have hm := sameSetup_of_run hr
  have hmem := Program.mem_of_deref hb
  have hstq : s.data.machine.tq = .fin tq := hm.tq.trans htq
  have hsetup : b.parsed = true → ∃ T k prev, Ticks tq b T k ∧
      Underway s.data.machine tq q b prev := by
    intro hpar
    obtain ⟨T, k, hT⟩ := exists_ticks (hsrc.parsed b hmem hpar) ht (hm.A.trans hA) hA0 hstq htq0
      hl hl0 hF hF0
    obtain ⟨prev, hprev, hint⟩ := hsrc.interpolates hw hmem hpar ht
    exact ⟨T, k, prev, hT, hb, hprev, hint, hstq, htq0⟩
  refine ⟨fun es t hes hq hin hout => ?_, fun hpar => ?_⟩
  · have hpar : b.parsed = true := by
      cases hes with
      | nil => exact absurd hat.calm.second hout
      | @cons e _ _ _ es he _ =>
        obtain ⟨rfl, rfl, -, hev⟩ := he
        obtain ⟨p, c, prev, tgt, hi⟩ := eval_interpMotion hat.calm.second hev
        cases hprog.symm.trans hi.before
        cases hb.symm.trans hi.block
        obtain ⟨smp, hsmp⟩ := hi.setpoint
        exact Block.parsed_of_interpolateAt hsmp
    obtain ⟨T, k, prev, hT, hU⟩ := hsetup hpar
    obtain ⟨ps, P, hmap, hps, hP⟩ := setpoints_of_run hT hU hes hat (Nat.zero_le _) hq hin hout
    refine ⟨_, ps, P, prev, ⟨k + 1, fun fuel hfuel => hT.walk hstq htq0 hfuel⟩, hU.prev_eq, hmap, ?_,
      by simpa using hP⟩
    rw [List.forall₂_map_left_iff]
    refine hps.imp fun i Q hQ => ?_
    rw [(hT.lambda _).2]
    exact hQ
  · obtain ⟨T, k, prev, hT, hU⟩ := hsetup hpar
    refine ⟨k + 2, fun envs hlen hq => ?_⟩
    obtain ⟨es, t, hes, hmap, hin, hout⟩ := exists_run_of_ticks hT hU hat hlen hq
    exact ⟨es, t, hes, hmap, hin, by rw [hout]; decide⟩

/-- A line of ten millimetres along the first axis, on the default machine. -/
theorem along_motion {text : List Line} {line : Line} {x : ℝ}
    (h : MadeFrom Machine.default text line b) (ht : typeCode line = .line)
    (h0 : modalTarget (Machine.default : Machine XReal) text =
      .ofCoords (.fin x) (.fin 0) (.fin 0))
    (h1 : modalTarget (Machine.default : Machine XReal) (text ++ [line]) =
      .ofCoords (.fin (x + 10)) (.fin 0) (.fin 0))
    (hF : lastOf (numeralWord 'F') (wordsOf (text ++ [line])) = some (.finite 100)) :
    b.parsed = true ∧ b.length = .fin 10 ∧ b.feedrate = .fin 100 := by
  have hten : x + 10 - x = 10 := add_sub_cancel_left x 10
  have hleg := hasLeg_of_madeFrom h (.inl (h.type_eq.trans ht))
    (legAt_along (by rw [hten]; norm_num) ht h0 h1 hF)
  refine ⟨hleg.parsed, hleg.length.trans (congrArg XReal.fin hten), ?_⟩
  rw [h.modal.feedrate, modalWord, lastOf_dataWord, hF]
  simp [ofNumeral]

/-- The way and the feedrate of the sample line. -/
theorem sample_motion (h : MadeFrom Machine.default
    (([sampleLine].filter Program.isCode).take 0) sampleLine b) :
    b.parsed = true ∧ b.length = .fin 10 ∧ b.feedrate = .fin 100 := by
  refine along_motion (x := 0) h (by decide +kernel) ?_ ?_ (by decide +kernel)
  · simp [modalTarget, wordsOf, Machine.default, Point.ofCoords]
  · exact (modalTarget_along (x := 10) (by decide +kernel) (by decide +kernel)
      (by decide +kernel)).trans (by norm_num)

/-- A straight line on the default machine, carried out. -/
theorem motion_refines_walk_sample : ∃ (pre es : List (Eval XReal)) (s t : Fsm XReal)
    (q : Program XReal) (b : Block XReal),
    FsmRun (setup .init partData) pre s ∧ FsmRun s es t ∧ t.second ≠ .interpMotion ∧
      s.data.program = some q ∧ q.deref = some b ∧ b.type = .line ∧
      ∃ vs ps P prev, (∃ n, ∀ fuel, n < fuel → b.walk s.data.machine fuel = .ok (some vs)) ∧
        PrevIn q b prev ∧ es.map (·.after.data.machine.setpoint) = ps ++ [P] ∧
        List.Forall₂ (fun v Q => b.interpolate s.data.machine prev v.2.lambda = .ok Q) vs ps ∧
        b.interpolate s.data.machine prev (num 1) = .ok P := by
  obtain ⟨p, b, e₁, e₀, e₂, s, h, ht⟩ := exists_opening (K := XReal) [sampleLine] sampleLine
    (by decide +kernel) (by decide +kernel) (by decide +kernel)
  have hline : b.type = .line := ht.trans (by decide +kernel)
  obtain ⟨c, hc, hmade⟩ := (blocks_of_load h.load).2 0 sampleLine (by decide +kernel)
  cases h.block.symm.trans hc
  obtain ⟨hpar, hl, hF⟩ := sample_motion hmade
  obtain ⟨hA, htq⟩ := default_limits
  have hopen : FsmRun (setup .init partData) ([e₁, e₀] ++ [e₂]) s := h.run
  have hrun := motion_refines_walk (d := partData) hA (by norm_num) htq (by norm_num) hopen
    h.ready.second h.standing.calm h.standing.program h.deref
    (.inl hline) hl (by norm_num) hF (by norm_num)
  obtain ⟨n, hn⟩ := hrun.2 hpar
  obtain ⟨es, t, hes, hmap, hin, hout⟩ := hn (List.replicate n {}) List.length_replicate
    fun env he => by rw [List.eq_of_mem_replicate he]; exact ⟨rfl, rfl, rfl⟩
  have hquiet : ∀ e ∈ es, Quiet e.env := fun e he => by
    have hm : e.env ∈ es.map (·.env) := List.mem_map_of_mem he
    rw [hmap] at hm
    rw [List.eq_of_mem_replicate hm]
    exact ⟨rfl, rfl, rfl⟩
  exact ⟨_, es, s, t, _, b, h.run, hes, hout, h.standing.program, h.deref, hline,
    hrun.1 es t hes hquiet hin hout⟩

end Refinement

end

end Cncpp
