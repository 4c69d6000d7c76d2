import Cncpp.Exchange
import Cncpp.Replay

/-! The machine and the simulator behind the agent: what the machine hands over for publishing in a
run, and where it holds the tool to be when it goes on. -/

namespace Cncpp

open DataArith Lib Lib.ExceptState Fsm

/-! ## What an evaluation does to the machine -/

section Effects

variable {K : Type} [DataArith K] {env : Env K} {s t : Fsm K}

/-- The states that command a setpoint. -/
def commanding : List State := [.rapidMotion, .interpMotion, .goToZero]

/-- Commanding the setpoint `P` returns. -/
def Commands (env : Env K) (P : Point K) (m m' : Machine K) : Prop :=
  (Machine.setSetpoint env.reply P).run m = .ok () m'

theorem machine_of_rapid {n : State} (h : (doRapidMotion env).run s = .ok n t) :
    ∃ p b, s.data.program = some p ∧ p.deref = some b ∧
      Commands env b.target s.data.machine t.data.machine ∧
      (s.stopRequested = false → env.sigint.inside = false →
        n = if t.data.machine.isConnected env.connected then
          if lt t.data.machine.error t.data.machine.maxError then .loadBlock else .noChange
          else .loadBlock) := by
  simp only [doRapidMotion, bind_eq_ok, currentBlock_ok, onMachine_ok] at h
  obtain ⟨b, _, ⟨p, hp, hb, rfl⟩, _, _, ⟨m, hm, rfl⟩, _, _, hg, _, _, htot, _, _, hblk, _, _, hstop,
    _, _, hg', h⟩ := h
  cases hg
  cases htot
  cases hblk
  cases hstop
  cases hg'
  refine ⟨p, b, hp, hb, ?_⟩
  dsimp only at h
  split at h
  · next hf =>
    simp only [bind_eq_ok] at h
    obtain ⟨_, _, hset, h⟩ := h
    cases hset
    cases h
    refine ⟨hm, fun hs hin => ?_⟩
    simp [hs, hin] at hf
  · cases h
    exact ⟨hm, fun _ _ => rfl⟩

theorem machine_of_interp {n : State} (h : (doInterpMotion env).run s = .ok n t) :
    ∃ P, Commands env P s.data.machine t.data.machine := by
  simp only [doInterpMotion, bind_eq_ok, currentBlock_ok, onMachine_ok, raise_ok] at h
  obtain ⟨b, _, ⟨p, hp, hb, rfl⟩, _, _, hg, prev, _, hprev, ⟨P, smp⟩, _, ⟨-, rfl⟩, _, _, ⟨m, hm, rfl⟩,
    _, _, htot, _, _, hblk, h⟩ := h
  cases hg
  obtain ⟨-, rfl⟩ := prevBlock_ok hp hprev
  cases htot
  cases hblk
  cases h
  exact ⟨P, hm⟩

theorem machine_of_zero {n : State} (h : (doGoToZero env).run s = .ok n t) :
    Commands env s.data.machine.zero s.data.machine t.data.machine ∧
      n = if lt t.data.machine.error t.data.machine.maxError then .idle else .noChange := by
  simp only [doGoToZero, bind_eq_ok, onMachine_ok] at h
  obtain ⟨_, _, hg, _, _, ⟨m, hm, rfl⟩, _, _, hg', h⟩ := h
  cases hg
  cases hg'
  cases h
  exact ⟨hm, rfl⟩

/-- An evaluation of a state of motion commands one setpoint, the others leave the machine as it
is. -/
theorem machine_of_eval (h : (evalState env).run s = .ok () t) :
    (s.second ∈ commanding ∧ ∃ P, Commands env P s.data.machine t.data.machine) ∨
      (s.second ∉ commanding ∧ t.data.machine = s.data.machine) := by
  have hmem := eval_state h
  simp only [List.mem_cons, List.not_mem_nil, or_false] at hmem
  rcases hmem with hs | hs | hs | hs | hs | hs | hs | hs
  · exact .inr ⟨by rw [hs]; decide, (eval_init hs h).machine⟩
  · exact .inr ⟨by rw [hs]; decide, (eval_idle hs h).machine⟩
  · obtain ⟨p, hl⟩ := eval_loadBlock hs h
    exact .inr ⟨by rw [hs]; decide, hl.machine⟩
  · obtain ⟨n, s', hf, -, -, -, htr⟩ := eval_of_wrapper (by rw [hs]; rfl) h
    obtain ⟨p, b, -, -, hm, -⟩ := machine_of_rapid hf
    exact .inl ⟨by rw [hs]; decide, b.target, htr.machine ▸ hm⟩
  · obtain ⟨n, s', hf, -, -, -, htr⟩ := eval_of_wrapper (by rw [hs]; rfl) h
    obtain ⟨P, hm⟩ := machine_of_interp hf
    exact .inl ⟨by rw [hs]; decide, P, htr.machine ▸ hm⟩
  · obtain ⟨p, b, hn⟩ := eval_noMotion hs h
    exact .inr ⟨by rw [hs]; decide, hn.machine⟩
  · obtain ⟨n, s', hf, -, -, -, htr⟩ := eval_of_wrapper (by rw [hs]; rfl) h
    exact .inl ⟨by rw [hs]; decide, _, htr.machine ▸ (machine_of_zero hf).1⟩
  · obtain ⟨n, s', hf, -, -, -, htr⟩ := eval_of_wrapper (by rw [hs]; rfl) h
    cases hf
    exact .inr ⟨by rw [hs]; decide, htr.machine⟩

end Effects

/-! ## A machine behind a connection -/

noncomputable section

/-- The default machine, behind a connection. -/
def linkedMachine : Machine XReal := { (Machine.default : Machine XReal) with agent := some ⟨[]⟩ }

theorem linkedMachine_connected : Machine.Connected linkedMachine :=
  ⟨Machine.default, .ok .null, .ok (), rfl⟩

def linkedData : FsmData XReal := ⟨"part.g", linkedMachine, none, num 0, num 0⟩

theorem exists_zero_eval {env : Env XReal} {s : Fsm XReal} (hs : Calm .goToZero s)
    (ha : s.data.machine.agent.isSome = true) (hq : Quiet env) :
    ∃ e t, Evaluates e s t ∧ e.env = env ∧ t.first = .goToZero := by
  obtain ⟨x, y, z, hz⟩ := (Point.isComplete_iff _).mp s.data.machine.zero_complete
  have hset := Machine.run_setSetpoint ha env.reply x y z
  rw [← hz] at hset
  have honm : (onMachine (Machine.setSetpoint env.reply s.data.machine.zero)).run s = .ok () _ :=
    onMachine_ok.mpr ⟨_, hset, rfl⟩
  have hf : Returns (doGoToZero env) s fun v s' => s'.stopRequested = false ∧
      v ∈ [State.noChange, .goToZero, .idle] := by
    refine .bind (.get (.bind (.of_run honm (.bind (.get (.pure ⟨hs.flag, ?_⟩))))))
    split <;> decide
  obtain ⟨v, s', hf, hflag, hv⟩ := hf
  have hu : v ≠ .unimplemented := by
    rintro rfl
    exact absurd hv (by decide)
  have hstay : ∀ (w : State) (u : Fsm XReal), (transition env .goToZero w).run u = .ok () u :=
    fun w u => by cases w <;> rfl
  have hrun := eval_quiet hq hs rfl hf hflag hv hu
  rw [hstay] at hrun
  exact ⟨⟨s, env, _⟩, _, ⟨rfl, rfl, by rw [hs.second]; decide, hrun⟩, rfl, rfl⟩

/-- A run that sends the machine to the reference point. -/
theorem exists_zero_run : ∃ (es : List (Eval XReal)) (t : Fsm XReal),
    FsmRun (setup .init linkedData) es t ∧ t.first = .goToZero ∧
      ∀ e ∈ es, Quiet e.env ∧ e.before.second ≠ .rapidMotion := by
  have hload : ∃ p, initialLoad ({ file := some [] } : Env XReal) (setup .init linkedData) =
      .ok () p ∧ p.blocks = [] := ⟨_, rfl, rfl⟩
  obtain ⟨p, hin, hp⟩ := hload
  have hqf : Quiet ({ file := some [] } : Env XReal) := ⟨rfl, rfl, rfl⟩
  have hqz : Quiet ({ key := 'z' } : Env XReal) := ⟨rfl, rfl, rfl⟩
  have h₁ := eval_start hqf ⟨rfl, rfl⟩ hin (by rw [hp]; exact fun _ hb => nomatch hb)
  have hidle : Calm .idle (⟨.init, .idle, { linkedData with program := some p }, false⟩ : Fsm XReal) :=
    ⟨rfl, rfl⟩
  have h₂ := eval_key hqz hidle (by decide) (by decide)
  obtain ⟨e₃, t, h₃, he₃, ht⟩ := exists_zero_eval
    (s := ⟨.idle, .goToZero, { linkedData with program := some p }, false⟩) ⟨rfl, rfl⟩ rfl
    quiet_default
  have hq₃ : Quiet e₃.env := he₃ ▸ quiet_default
  refine ⟨[⟨_, { file := some [] }, _⟩, ⟨_, { key := 'z' }, _⟩, e₃], t,
    .cons ⟨rfl, rfl, nofun, h₁⟩ (.cons ⟨rfl, rfl, nofun, h₂⟩ (.single h₃)), ht, ?_⟩
  simp only [List.forall_mem_cons]
  exact ⟨⟨hqf, nofun⟩, ⟨hqz, nofun⟩, ⟨hq₃, by rw [h₃.1]; nofun⟩, fun _ h => nomatch h⟩

section Evaluations

variable {env : Env XReal} {s t : Fsm XReal} {p : Program XReal} {b : Block XReal}

theorem sendMetrics_true (u : Fsm XReal) : (sendMetrics true).run u = .ok () u := by
  refine bind_eq_ok.mpr ⟨u, u, rfl, ?_⟩
  rw [Bool.not_true, Bool.and_false]
  rfl

/-- The transition functions return when the metrics are published. -/
theorem transition_returns (hm : env.transitionMetrics = true) {st v : State} (hst : st ≠ .idle)
    (u : Fsm XReal) : ∃ t, (transition env st v).run u = .ok () t := by
  unfold transition
  split
  · exact absurd rfl hst
  · rw [beginRapid, hm]
    exact ⟨_, bind_eq_ok.mpr ⟨(), _, rfl, sendMetrics_true _⟩⟩
  · rw [endRapid, hm]
    exact ⟨_, sendMetrics_true u⟩
  · exact ⟨_, rfl⟩
  · exact ⟨u, rfl⟩

theorem exists_eval {st : State} {valid : List State} {emergency : Bool} {f : FsmM XReal State}
    {v : State} {s' : Fsm XReal} (hq : Quiet env) (hm : env.transitionMetrics = true)
    (hs : Calm st s) (hst : st ≠ .idle) (hne : st ≠ .stop)
    (hw : stateFun env st = wrapper st valid emergency env f) (hf : f.run s = .ok v s')
    (hs' : s'.stopRequested = false) (hv : v ∈ valid) (hu : v ≠ .unimplemented) :
    ∃ e t, Evaluates e s t ∧ e.env = env := by
  obtain ⟨t, ht⟩ := transition_returns (v := if v = .noChange then st else v) hm hst
    { s' with first := st, second := if v = .noChange then st else v }
  rw [← eval_quiet hq hs hw hf hs' hv hu] at ht
  exact ⟨⟨s, env, t⟩, t, ⟨rfl, rfl, by rw [hs.second]; exact hne, ht⟩, rfl⟩

theorem exists_load_eval (hs : Calm .loadBlock s) (hp : s.data.program = some p)
    (hd : p.loadNext.done = false) (hb : p.loadNext.deref = some b) :
    ∃ e t, Evaluates e s t ∧ e.env = {} := by
  have hf : (doLoadBlock {}).run s = .ok (blockState b.type) { s with data := { s.data with
      program := some p.loadNext, tTot := s.data.tTot + s.data.machine.tq } } := by
    refine bind_eq_ok.mpr ⟨p, s, getProgram_ok.mpr ⟨hp, rfl⟩, bind_eq_ok.mpr ⟨(), _, rfl, ?_⟩⟩
    rw [if_neg (by rw [hd]; decide)]
    refine bind_eq_ok.mpr ⟨b, _, currentBlock_ok.mpr ⟨p.loadNext, rfl, hb, rfl⟩, ?_⟩
    exact bind_eq_ok.mpr ⟨(), _, sendMetrics_true _, rfl⟩
  have hmem := blockState_mem b.type
  refine exists_eval quiet_default rfl hs (by decide) (by decide) rfl hf hs.flag hmem ?_
  intro hu
  rw [hu] at hmem
  exact absurd hmem (by decide)

theorem exists_rapid_eval {x y z : XReal} (hs : Calm .rapidMotion s) (ha : s.data.machine.agent.isSome = true)
    (hp : s.data.program = some p) (hb : p.deref = some b) (ht : b.target = .ofCoords x y z)
    (hq : Quiet env) (hm : env.transitionMetrics = true) : ∃ e t, Evaluates e s t ∧ e.env = env := by
  have hset := Machine.run_setSetpoint ha env.reply x y z
  rw [← ht] at hset
  have honm : (onMachine (Machine.setSetpoint env.reply b.target)).run s = .ok () _ :=
    onMachine_ok.mpr ⟨_, hset, rfl⟩
  have hf : Returns (doRapidMotion env) s fun v s' => s'.stopRequested = false ∧
      v ∈ [State.noChange, .rapidMotion, .loadBlock] := by
    refine .bind (.of_run (currentBlock_ok.mpr ⟨p, hp, hb, rfl⟩) (.bind ?_))
    refine .of_run honm (.bind (.get (.bind ?_)))
    refine .of_run rfl (.bind (.of_run rfl (.bind (.of_run rfl (.bind (.get ?_))))))
    have hflag : (s.stopRequested || env.sigint.inside) = false := by rw [hs.flag, hq.2.1]; rfl
    split
    · next hset =>
      have hset : (s.stopRequested || env.sigint.inside) = true := hset
      rw [hflag] at hset
      cases hset
    · refine .pure ⟨hflag, ?_⟩
      split
      · split <;> decide
      · decide
  obtain ⟨v, s', hf, hflag, hv⟩ := hf
  refine exists_eval hq hm hs (by decide) (by decide) rfl hf hflag hv ?_
  rintro rfl
  exact absurd hv (by decide)

end Evaluations

/-- The agent plays no part when a file is loaded. -/
theorem load_behind {K : Type} [DataArith K] {m : Machine K} {p p' : Program K} {file : String}
    {content : Option (List Line)} {app : Bool} (a : Option (Agent K))
    (h : Edited m (.load file content app) p p') :
    Edited { m with agent := a } (.load file content app) p p' := by
  obtain ⟨lines, hl, hr⟩ := edited_load.mp h
  exact edited_load.mpr ⟨lines, hl, hr⟩

/-- A file of three blocks is loaded in INIT. -/
theorem exists_linked : ∃ (p : Program XReal) (a b c : Block XReal) (e₁ : Eval XReal) (s : Fsm XReal),
    Mixed p a b c ∧ FsmRun (setup .init linkedData) [e₁] s ∧ s.second = .idle ∧
      s.stopRequested = false ∧ s.data.program = some p ∧ s.data.machine = linkedMachine ∧
      Quiet e₁.env := by
  obtain ⟨p, a, b, c, hdefault, hmix⟩ := exists_mixed
  have hload : Edited linkedMachine (.load "part.g" (some mixedLines) false) Program.empty p :=
    load_behind (some ⟨[]⟩) hdefault
  have hin : initialLoad ({ file := some mixedLines } : Env XReal) (setup .init linkedData) =
      .ok () p := by
    obtain ⟨lines, hl, hr⟩ := edited_load.mp hload
    exact Program.load_iff.mpr ⟨lines, hl, hr⟩
  have hq : Quiet ({ file := some mixedLines } : Env XReal) := ⟨rfl, rfl, rfl⟩
  have ht := eval_start hq ⟨rfl, rfl⟩ hin (Program.parsed_load hin)
  exact ⟨p, a, b, c, ⟨_, { file := some mixedLines }, _⟩, _, hmix, .single ⟨rfl, rfl, nofun, ht⟩, rfl,
    rfl, rfl, rfl, hq⟩

/-- SPACE starts the file, and its rapid motion is loaded. -/
theorem exists_linked_rapid : ∃ (q : Program XReal) (b : Block XReal) (es : List (Eval XReal))
    (s : Fsm XReal), FsmRun (setup .init linkedData) es s ∧
      (∀ e ∈ es, Quiet e.env ∧ e.before.second ≠ .rapidMotion) ∧ Calm .rapidMotion s ∧
      s.data.program = some q ∧ q.deref = some b ∧ s.data.machine = linkedMachine ∧
      b.target.IsReal := by
  obtain ⟨p, b, _, _, e₁, s, hmix, hr, hs, hcalm, hp, hm, hq₁⟩ := exists_linked
  obtain ⟨p', hp', hw⟩ := (safe_run hr).program (by rw [hs]; decide) (by rw [hs]; decide)
  cases hp.symm.trans hp'
  have hb : p.rewind.blocks[0]? = some b := by
    change p.blocks[0]? = some b
    rw [hmix.blocks]
    rfl
  obtain ⟨hderef, hdone, -⟩ := Program.loadNext_of_get (p := p.rewind) hw.chain
    p.cursorAt_rewind hb
  have hqs : Quiet ({ key := ' ' } : Env XReal) := ⟨rfl, rfl, rfl⟩
  obtain ⟨v, h₂, hv, hpv, hmv⟩ : ∃ v, (evalState { key := ' ' }).run s = .ok () v ∧
      Calm .loadBlock v ∧ v.data.program = some p.rewind ∧ v.data.machine = s.data.machine :=
    ⟨_, eval_space hqs ⟨hs, hcalm⟩ rfl hp, ⟨rfl, rfl⟩, rfl, rfl⟩
  obtain ⟨e, u, he, henv⟩ := exists_load_eval hv hpv hdone hderef
  have hrun : FsmRun (setup .init linkedData) [e₁, ⟨s, { key := ' ' }, v⟩, e] u :=
    hr.append (.cons ⟨rfl, rfl, by rw [hs]; decide, h₂⟩ (.single he))
  have hfirst : e₁.before.second = .init := by
    cases hr with
    | cons h₁ _ =>
      rw [h₁.1]
      rfl
  have hall : ∀ e' ∈ [e₁, ⟨s, { key := ' ' }, v⟩, e],
      Quiet e'.env ∧ e'.before.second ≠ .rapidMotion := by
    simp only [List.mem_cons, List.not_mem_nil, or_false, forall_eq_or_imp, forall_eq, henv, he.1,
      hfirst, hs, hv.second]
    exact ⟨⟨hq₁, by decide⟩, ⟨hqs, by decide⟩, quiet_default, by decide⟩
  have hflag := calm_of_quiet hrun rfl fun e' he' => (hall e' he').1
  obtain ⟨-, rfl, -, hload⟩ := he
  obtain ⟨q, hl⟩ := eval_loadBlock hv.second hload
  obtain rfl : p.rewind = q := by
    injection hpv.symm.trans hl.before
  rcases hl.next with ⟨hd, -⟩ | ⟨-, c, hc, hsec⟩
  · rw [hdone] at hd
    cases hd
  · cases hderef.symm.trans hc
    rw [hmix.rapid] at hsec
    exact ⟨p.rewind.loadNext, b, _, e.after, hrun, hall, ⟨hsec, hflag⟩, hl.after, hderef,
      hl.machine.trans (hmv.trans hm), hmix.real⟩

end

/-! ## What is handed to the agent -/

section Published

variable {K : Type} [DataArith K] {env : Env K} {s t : Fsm K} {e : Eval K} {es : List (Eval K)}
  {sent : List (Command K)} {P : Point K} {m m' : Machine K}

/-- The point with some coordinates, and the command for it. -/
def pointOf (c : K × K × K) : Point K := .ofCoords c.1 c.2.1 c.2.2

def commandFor (c : K × K × K) : Command K := ⟨some c, false⟩

/-- With an agent only complete points can be commanded. -/
theorem Commands.complete (h : Commands env P m m') (ha : m.agent.isSome = true) :
    P.isComplete = true := by
  by_contra hp
  rw [Bool.not_eq_true] at hp
  obtain ⟨x, hx⟩ := Machine.run_setSetpoint_incomplete ha env.reply hp
  cases hx.symm.trans h

theorem Commands.agent (h : Commands env P m m') (ha : m.agent.isSome = true) :
    m'.agent.isSome = true := by
  obtain ⟨⟨sent⟩, hsent⟩ := Option.isSome_iff_exists.mp ha
  obtain ⟨x, y, z, rfl⟩ := (Point.isComplete_iff P).mp (h.complete ha)
  injection h.symm.trans (Machine.run_setSetpoint ha env.reply x y z) with _ hm'
  have hidle := Machine.sync_idle (m := { m with
    setpoint := .ofCoords x y z
    command := { m.command with fmuInput := some (x, y, z) } }) hsent env.reply
  rw [hm', hidle.agent]
  rfl

/-- A command is handed over once. -/
theorem Commands.publishes (h : Commands env P m m') (hm : Machine.Idle sent m) :
    ∃ c, P = pointOf c ∧ Machine.Idle (sent ++ [commandFor c]) m' := by
  have hsome : m.agent.isSome = true := by
    rw [hm.agent]
    rfl
  obtain ⟨x, y, z, rfl⟩ := (Point.isComplete_iff P).mp (h.complete hsome)
  have hstep : m' = state ((Machine.setSetpoint env.reply (.ofCoords x y z)).run m) :=
    (congrArg state h).symm
  exact ⟨(x, y, z), rfl, Machine.idle_step (c := .setSetpoint env.reply (.ofCoords x y z)) hm hstep⟩

theorem publishes_eval (he : Evaluates e s t) (h : Machine.Idle sent s.data.machine) :
    ∃ cs : List (K × K × K), (commandOf e).toList = cs.map pointOf ∧
      Machine.Idle (sent ++ cs.map commandFor) t.data.machine := by
  obtain ⟨rfl, rfl, -, hrun⟩ := he
  rcases machine_of_eval hrun with ⟨hs, P, hP⟩ | ⟨hs, hm⟩
  · obtain ⟨c, rfl, hidle⟩ := hP.publishes h
    have hset : e.after.data.machine.setpoint = pointOf c := (commanded_of_setSetpoint hP).setpoint
    refine ⟨[c], ?_, hidle⟩
    simp only [commanding, List.mem_cons, List.not_mem_nil, or_false] at hs
    rcases hs with hs | hs | hs <;> rw [commandOf, hs, hset] <;> rfl
  · refine ⟨[], ?_, by rw [hm, List.map_nil, List.append_nil]; exact h⟩
    have hnone : commandOf e = none := by
      unfold commandOf
      split
      · next hs' => exact absurd (by rw [hs']; decide) hs
      · next hs' => exact absurd (by rw [hs']; decide) hs
      · next hs' => exact absurd (by rw [hs']; decide) hs
      · rfl
    rw [hnone]
    rfl

theorem publishes_run (hr : FsmRun s es t) (h : Machine.Idle sent s.data.machine) :
    ∃ cs : List (K × K × K), es.filterMap commandOf = cs.map pointOf ∧
      Machine.Idle (sent ++ cs.map commandFor) t.data.machine := by
  induction hr generalizing sent with
  | nil s =>
    refine ⟨[], rfl, ?_⟩
    rw [List.map_nil, List.append_nil]
    exact h
  | cons he _ ih =>
    obtain ⟨cs, hcs, hidle⟩ := publishes_eval he h
    obtain ⟨cs', hcs', hidle'⟩ := ih hidle
    refine ⟨cs ++ cs', ?_, ?_⟩
    · rw [List.map_append, ← hcs, ← hcs', List.filterMap_cons]
      cases commandOf _ <;> rfl
    · rw [List.map_append, ← List.append_assoc]
      exact hidle'

/-- What the agent is told to publish.  In every run of the machine behind a connection, whatever the
keys, the replies and the signals are, the agent is handed the setpoints of the evaluations, in
their order, each complete and each once; no reset is among them, and none is pending. -/
theorem run_publishes {d : FsmData K} (hc : Machine.Connected d.machine)
    (hr : FsmRun (setup .init d) es t) : ∃ cs : List (K × K × K), es.filterMap commandOf = cs.map pointOf ∧
      t.data.machine.agent = some ⟨cs.map commandFor⟩ ∧ t.data.machine.command = ⟨none, false⟩ := by
  obtain ⟨cs, hcs, hidle⟩ := publishes_run hr hc.idle
  exact ⟨cs, hcs, hidle.agent, hidle.command⟩

theorem run_publishes_sample : ∃ (es : List (Eval XReal)) (t : Fsm XReal)
    (cs : List (XReal × XReal × XReal)), FsmRun (setup .init linkedData) es t ∧
      t.first = .goToZero ∧ es.filterMap commandOf = cs.map pointOf ∧
      t.data.machine.agent = some ⟨cs.map commandFor⟩ ∧ t.data.machine.command = ⟨none, false⟩ := by
  obtain ⟨es, t, hr, ht, -⟩ := exists_zero_run
  obtain ⟨cs, hcs, hagent, hcmd⟩ := run_publishes linkedMachine_connected hr
  exact ⟨es, t, cs, hr, ht, hcs, hagent, hcmd⟩

end Published

/-! ## Where the tool is when the machine goes on -/

noncomputable section

open XReal

section Arrival

variable {env : Env XReal} {s t : Fsm XReal} {e : Eval XReal} {es : List (Eval XReal)}
  {P : Point XReal} {m m' : Machine XReal}

/-- The machine holds a position that is within the tolerance of the setpoint `P`. -/
structure Arrived (P : Point XReal) (m : Machine XReal) : Prop where
  setpoint : m.setpoint = P
  near : ∃ x y z u v w, P = .ofCoords x y z ∧ m.position = .ofCoords u v w ∧
    DataArith.lt (DataArith.hypot3 (x - u) (y - v) (z - w)) m.maxError = true

theorem lt_nan (v : XReal) : DataArith.lt (DataArith.quietNaN : XReal) v = false := by
  cases v <;> rfl

/-- The error that is compared is the distance from the position that the machine holds. -/
theorem Commands.arrived_iff (h : Commands env P m m') (ha : m.agent.isSome = true) :
    DataArith.lt m'.error m'.maxError = true ↔ Arrived P m' := by
  have hset := (commanded_of_setSetpoint h).setpoint
  obtain ⟨x, y, z, rfl⟩ := (Point.isComplete_iff P).mp (h.complete ha)
  have hrun := Machine.run_setSetpoint ha env.reply x y z
  have herr : m'.error = Machine.positioningError m' := by
    injection h.symm.trans hrun with _ hm'
    rw [hm']
    exact Machine.sync_error (by exact ha) env.reply
  constructor
  · intro hlt
    have hpos : m'.position.isComplete = true := by
      by_contra hp
      rw [Bool.not_eq_true] at hp
      rw [herr, Machine.positioningError_incomplete (by rw [hp, Bool.and_false]), lt_nan] at hlt
      cases hlt
    obtain ⟨u, v, w, huvw⟩ := (Point.isComplete_iff _).mp hpos
    rw [herr, Machine.positioningError_complete hset huvw] at hlt
    exact ⟨hset, x, y, z, u, v, w, rfl, huvw, hlt⟩
  · rintro ⟨-, x', y', z', u, v, w, hxyz, huvw, hlt⟩
    rw [herr, Machine.positioningError_complete (hset.trans hxyz) huvw]
    exact hlt

/-- The machine has an agent, and no SIGINT has arrived. -/
structure Online (s : Fsm XReal) : Prop where
  agent : s.data.machine.agent.isSome = true
  flag : s.stopRequested = false

/-- What an evaluation that waits for the tool does, on a machine with an agent. -/
structure Waits (e : Eval XReal) : Prop where
  rapid : e.before.second = .rapidMotion → ∃ p b, e.before.data.program = some p ∧
    p.deref = some b ∧ (e.after.second = .loadBlock ↔ Arrived b.target e.after.data.machine)
  zero : e.before.second = .goToZero →
    (e.after.second = .idle ↔ Arrived e.before.data.machine.zero e.after.data.machine)

/-- A state that is left for `v` on a condition, and otherwise stays. -/
theorem settle_wait {cur v : State} {valid : List State} (c : Bool) (hv : v ∈ valid)
    (hn : State.noChange ∈ valid) (hcur : v ≠ cur) (hne : v ≠ .noChange) :
    settle cur valid true false (if c then v else .noChange) = v ↔ c = true := by
  cases c
  · rw [settle_guarded false (by simpa using hn)]
    simp [Ne.symm hcur]
  · rw [settle_guarded false (by simpa using hv)]
    simp [hne]

theorem waits_eval (he : Evaluates e s t) (hs : Online s) (hq : Quiet e.env)
    (hc : e.before.second = .rapidMotion → e.env.connected = true) : Online t ∧ Waits e := by
  obtain ⟨rfl, rfl, hne, hrun⟩ := he
  have hflag := flag_of_quiet hq hs.flag hne hrun
  have hagent : e.after.data.machine.agent.isSome = true := by
    rcases machine_of_eval hrun with ⟨-, P, hP⟩ | ⟨-, hm⟩
    · exact hP.agent hs.agent
    · rw [hm]
      exact hs.agent
  refine ⟨⟨hagent, hflag⟩, fun hr => ?_, fun hz => ?_⟩
  · obtain ⟨n, s', hf, -, -, hsec, htr⟩ := eval_of_wrapper (by rw [hr]; rfl) hrun
    obtain ⟨p, b, hp, hb, hm, hn⟩ := machine_of_rapid hf
    rw [← htr.machine] at hm hn
    have hcon : e.after.data.machine.isConnected e.env.connected = true := by
      rw [Machine.isConnected, hagent, hc hr]
      rfl
    have hsig : (e.before.signalled e.env.sigint.before).stopRequested = false := by
      rw [signalled, hs.flag, hq.1]
      rfl
    refine ⟨p, b, hp, hb, (Iff.trans ?_ (hm.arrived_iff hs.agent))⟩
    rw [hsec, hflag, hn hsig hq.2.1, if_pos hcon, hr]
    exact settle_wait _ (by decide) (by decide) (by decide) (by decide)
  · obtain ⟨n, s', hf, -, -, hsec, htr⟩ := eval_of_wrapper (by rw [hz]; rfl) hrun
    obtain ⟨hm, hn⟩ := machine_of_zero hf
    rw [← htr.machine] at hm hn
    refine Iff.trans ?_ (hm.arrived_iff hs.agent)
    rw [hsec, hflag, hn, hz]
    exact settle_wait _ (by decide) (by decide) (by decide) (by decide)

/-- Where the tool is when the machine goes on.  In every run without SIGINT over a connection
that is open in each rapid motion, RAPID_MOTION is left for the next block exactly when the position
that the machine holds after the exchange is within the tolerance of the target, and GO_TO_ZERO for
IDLE exactly when it is within the tolerance of the reference point. -/
theorem run_waits {d : FsmData XReal} (ha : d.machine.agent.isSome = true)
    (hr : FsmRun (setup .init d) es t) (hq : ∀ e ∈ es, Quiet e.env)
    (hc : ∀ e ∈ es, e.before.second = .rapidMotion → e.env.connected = true) :
    ∀ e ∈ es, Waits e := by
  intro e he
  obtain ⟨u, v, hu, hev⟩ := hr.invariant_at
    (fun e => Quiet e.env ∧ (e.before.second = .rapidMotion → e.env.connected = true)) Online
    (fun e u v hin hu hev => (waits_eval hev hu hin.1 hin.2).1) (fun e he => ⟨hq e he, hc e he⟩)
    ⟨ha, rfl⟩ he
  exact (waits_eval hev hu (hq e he) (hc e he)).2

/-- A run to the reference point, and one with a rapid motion. -/
theorem run_waits_sample : (∃ (es : List (Eval XReal)) (t : Fsm XReal),
    FsmRun (setup .init linkedData) es t ∧ t.first = .goToZero ∧ ∀ e ∈ es, Waits e) ∧
    ∃ (es : List (Eval XReal)) (e : Eval XReal) (t : Fsm XReal),
      FsmRun (setup .init linkedData) (es ++ [e]) t ∧ e.before.second = .rapidMotion ∧
      ∀ e' ∈ es ++ [e], Waits e' := by
  constructor
  · obtain ⟨es, t, hr, ht, henv⟩ := exists_zero_run
    exact ⟨es, t, hr, ht, run_waits rfl hr (fun e he => (henv e he).1)
      fun e he hrapid => absurd hrapid (henv e he).2⟩
  · obtain ⟨q, b, es, s, hr, henv, hs, hp, hb, hm, x, y, z, ht⟩ := exists_linked_rapid
    have hquiet : Quiet ({ connected := true } : Env XReal) := ⟨rfl, rfl, rfl⟩
    obtain ⟨e, t, he, henv'⟩ := exists_rapid_eval hs (by rw [hm]; rfl) hp hb ht hquiet rfl
    refine ⟨es, e, t, hr.append (.single he), by rw [he.1, hs.second],
      run_waits rfl (hr.append (.single he)) (fun e' he' => ?_) fun e' he' hrapid => ?_⟩
    · rcases List.mem_append.mp he' with hmem | hmem
      · exact (henv e' hmem).1
      · rw [List.mem_singleton.mp hmem, henv']
        exact hquiet
    · rcases List.mem_append.mp he' with hmem | hmem
      · exact absurd hrapid (henv e' hmem).2
      · rw [List.mem_singleton.mp hmem, henv']

end Arrival

end

end Cncpp
