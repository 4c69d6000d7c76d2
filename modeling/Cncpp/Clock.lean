import Cncpp.Cursor
import Cncpp.Dispatch

/-! What an evaluation leaves to which no SIGINT arrives, with its clocks: the state that
follows, the time in total and the time in the block. -/

namespace Cncpp.Fsm

open DataArith Lib Lib.ExceptState

variable {K : Type} [DataArith K] {env : Env K} {s : Fsm K} {p : Program K} {b : Block K}

/-- The machine is in the state `st`, and no SIGINT has arrived. -/
structure Calm (st : State) (s : Fsm K) : Prop where
  second : s.second = st
  flag : s.stopRequested = false

omit [DataArith K] in
theorem quiet_default : Quiet ({} : Env K) := ⟨rfl, rfl, rfl⟩

/-- Without SIGINT an evaluation is the state function and the transition that it asks
for. -/
theorem eval_quiet {st : State} {valid : List State} {emergency : Bool} {f : FsmM K State}
    {n : State} {s' : Fsm K} (hq : Quiet env) (hs : Calm st s)
    (hw : stateFun env st = wrapper st valid emergency env f) (hf : f.run s = .ok n s')
    (hs' : s'.stopRequested = false) (hn : n ∈ valid) (hu : n ≠ .unimplemented) :
    (evalState env).run s = (transition env st (if n = .noChange then st else n)).run
      { s' with first := st, second := if n = .noChange then st else n } := by
  obtain ⟨hb, -, ha⟩ := hq
  obtain ⟨rfl, hflag⟩ := hs
  have hsame : ∀ u : Fsm K, u.stopRequested = false → ∀ v, v = false →
      { u with stopRequested := u.stopRequested || v } = u := by
    rintro ⟨a, c, d, _⟩ rfl _ rfl
    rfl
  have hrun : (stateFun env s.second).run s = .ok n s' := by
    rw [hw]
    refine bind_eq_ok.mpr ⟨n, s', hf, ?_⟩
    rw [if_neg hu]
    refine bind_eq_ok.mpr ⟨(), s', ?_, ?_⟩
    · exact congrArg (EStateM.Result.ok ()) (hsame s' hs' _ ha)
    · refine bind_eq_ok.mpr ⟨s', s', rfl, ?_⟩
      simp only [hs', Bool.and_false, Bool.false_eq_true, if_false, if_pos hn]
      rfl
  have hset : (setStop env.sigint.before).run s = .ok () s :=
    congrArg (EStateM.Result.ok ()) (hsame s hflag _ hb)
  rw [evalState, EStateM.run_bind, hset]
  dsimp only
  rw [EStateM.run_bind, EStateM.run_get]
  dsimp only
  rw [EStateM.run_bind, hrun]
  rfl

theorem eval_unique {t u : Fsm K} (ht : (evalState env).run s = .ok () t)
    (hu : (evalState env).run s = .ok () u) : t = u := by
  injection ht.symm.trans hu

omit [DataArith K] in
theorem desc_ok (h : ∀ b ∈ p.blocks, b.parsed = true) : p.desc = .ok () := by
  unfold Program.desc
  generalize p.blocks = bs at h
  induction bs with
  | nil => rfl
  | cons c bs ih =>
    have hc : c.desc = .ok () := by rw [Block.desc, if_pos (h c (by simp))]
    show (c.desc >>= fun _ => List.forM bs Block.desc) = _
    rw [hc]
    exact ih fun b hb => h b (by simp [hb])

theorem setSetpoint_run {reply : Reply K} {m : Machine K} (ha : m.agent = none) (q : Point K) :
    (Machine.setSetpoint reply q).run m = .ok () { m with setpoint := q } := by
  simp [Machine.setSetpoint, EStateM.run_bind, ha]

/-- INIT, with a program file that loads. -/
theorem eval_start (hq : Quiet env) (hs : Calm .init s) (hload : initialLoad env s = .ok () p)
    (hpar : ∀ b ∈ p.blocks, b.parsed = true) :
    (evalState env).run s = .ok () ⟨.init, .idle, { s.data with program := some p }, false⟩ := by
  have hf : (doInit env).run s = .ok .idle { s with data := { s.data with program := some p } } := by
    simp only [run_doInit, hload, desc_ok hpar]
  rw [eval_quiet hq hs rfl hf hs.flag (by decide) (by decide), hs.flag]
  rfl

/-- SPACE in IDLE. -/
theorem eval_space (hq : Quiet env) (hs : Calm .idle s) (hk : env.key = ' ')
    (hp : s.data.program = some p) :
    (evalState env).run s = .ok () ⟨.idle, .loadBlock,
      { s.data with program := some p.rewind, tTot := num 0, tBlk := num 0 }, false⟩ := by
  have hf : (doIdle env).run s = .ok .loadBlock s := by
    rw [doIdle, if_pos hk]
    rfl
  have hreset : ∀ u : Fsm K, u.data.program = some p → resetRun.run u = .ok () { u with
      data := { u.data with program := some p.rewind, tTot := num 0, tBlk := num 0 } } :=
    fun u hu => bind_eq_ok.mpr ⟨p, u, getProgram_ok.mpr ⟨hu, rfl⟩, rfl⟩
  rw [eval_quiet hq hs rfl hf hs.flag (by decide) (by decide), hs.flag]
  exact hreset ⟨.idle, .loadBlock, s.data, false⟩ hp

/-- R in IDLE. -/
theorem eval_reload (hq : Quiet env) (hs : Calm .idle s) (hk : env.key = 'r' ∨ env.key = 'R')
    (hp : s.data.program = some p) :
    (evalState env).run s = .ok () ⟨.idle, .idle, { s.data with program := some (state
      ((Program.load s.data.machine s.data.programFile env.file false).run p)) }, false⟩ := by
  have hspace : env.key ≠ ' ' := by rcases hk with hk | hk <;> rw [hk] <;> decide
  have hf : (doIdle env).run s = .ok .noChange { s with data := { s.data with program := some (state
      ((Program.load s.data.machine s.data.programFile env.file false).run p)) } } := by
    rw [doIdle, if_neg hspace, if_pos hk]
    exact bind_eq_ok.mpr ⟨p, s, getProgram_ok.mpr ⟨hp, rfl⟩, rfl⟩
  rw [eval_quiet hq hs rfl hf hs.flag (by decide) (by decide), hs.flag]
  rfl

/-- Any other key in IDLE. -/
theorem eval_key (hq : Quiet env) (hs : Calm .idle s) (hspace : env.key ≠ ' ')
    (hr : ¬ (env.key = 'r' ∨ env.key = 'R')) :
    (evalState env).run s = .ok () ⟨.idle, if env.key = 'z' ∨ env.key = 'Z' then .goToZero
      else if env.key = 'q' ∨ env.key = 'Q' then .stop else .idle, s.data, false⟩ := by
  have hf : (doIdle env).run s = .ok (if env.key = 'z' ∨ env.key = 'Z' then .goToZero
      else if env.key = 'q' ∨ env.key = 'Q' then .stop else .noChange) s := by
    rw [doIdle, if_neg hspace, if_neg hr]
    split
    · rfl
    · split <;> rfl
  split at hf
  · next hz =>
    rw [if_pos hz, eval_quiet hq hs rfl hf hs.flag (by decide) (by decide), hs.flag]
    rfl
  · next hz =>
    rw [if_neg hz]
    split at hf
    · next hk =>
      rw [if_pos hk, eval_quiet hq hs rfl hf hs.flag (by decide) (by decide), hs.flag]
      rfl
    · next hk =>
      rw [if_neg hk, eval_quiet hq hs rfl hf hs.flag (by decide) (by decide), hs.flag]
      rfl

/-- LOAD_BLOCK behind the last block. -/
theorem eval_load_end (hq : Quiet env) (hs : Calm .loadBlock s) (hp : s.data.program = some p)
    (hd : p.loadNext.done = true) :
    (evalState env).run s = .ok () ⟨.loadBlock, .idle,
      { s.data with program := some p.loadNext }, false⟩ := by
  have hf : (doLoadBlock env).run s = .ok .idle
      { s with data := { s.data with program := some p.loadNext } } := by
    refine bind_eq_ok.mpr ⟨p, s, getProgram_ok.mpr ⟨hp, rfl⟩, bind_eq_ok.mpr ⟨(), _, rfl, ?_⟩⟩
    rw [if_pos hd]
    rfl
  rw [eval_quiet hq hs rfl hf hs.flag (by decide) (by decide)]
  rw [hs.flag]
  rfl

/-- LOAD_BLOCK on a block, without an agent. -/
theorem eval_load_next (hq : Quiet env) (hs : Calm .loadBlock s) (hp : s.data.program = some p)
    (ha : s.data.machine.agent = none) (hd : p.loadNext.done = false)
    (hb : p.loadNext.deref = some b) :
    (evalState env).run s = .ok () ⟨.loadBlock, blockState b.type,
      { s.data with
        program := some p.loadNext
        tTot := s.data.tTot + s.data.machine.tq
        tBlk := if blockState b.type ∈ [State.rapidMotion, .interpMotion] then num 0
          else s.data.tBlk }, false⟩ := by
  have hsend : ∀ (ok : Bool) (u : Fsm K), u.data.machine.agent = none →
      (sendMetrics ok).run u = .ok () u := by
    intro ok u hu
    refine bind_eq_ok.mpr ⟨u, u, rfl, ?_⟩
    rw [hu]
    rfl
  have hf : (doLoadBlock env).run s = .ok (blockState b.type) { s with data := { s.data with
      program := some p.loadNext, tTot := s.data.tTot + s.data.machine.tq } } := by
    refine bind_eq_ok.mpr ⟨p, s, getProgram_ok.mpr ⟨hp, rfl⟩, bind_eq_ok.mpr ⟨(), _, rfl, ?_⟩⟩
    rw [if_neg (by rw [hd]; decide)]
    refine bind_eq_ok.mpr ⟨b, _, currentBlock_ok.mpr ⟨p.loadNext, rfl, hb, rfl⟩, ?_⟩
    exact bind_eq_ok.mpr ⟨(), _, hsend _ _ ha, rfl⟩
  have hmem := blockState_mem b.type
  generalize blockState b.type = n at hf hmem ⊢
  have hu : n ≠ .unimplemented := by
    rintro rfl
    exact absurd hmem (by decide)
  rw [eval_quiet hq hs rfl hf hs.flag hmem hu, hs.flag]
  simp only [List.mem_cons, List.not_mem_nil, or_false] at hmem
  rcases hmem with rfl | rfl | rfl | rfl
  · rfl
  · exact bind_eq_ok.mpr ⟨(), _, rfl, hsend _ _ ha⟩
  · rfl
  · rfl

/-- RAPID_MOTION, without an agent. -/
theorem eval_rapid (hq : Quiet env) (hs : Calm .rapidMotion s) (hp : s.data.program = some p)
    (ha : s.data.machine.agent = none) (hb : p.deref = some b) :
    (evalState env).run s = .ok () ⟨.rapidMotion, .loadBlock,
      { s.data with
        machine := { s.data.machine with setpoint := b.target }
        tTot := s.data.tTot + s.data.machine.tq
        tBlk := s.data.tBlk + s.data.machine.tq }, false⟩ := by
  have hf : (doRapidMotion env).run s = .ok .loadBlock { s with data := { s.data with
      machine := { s.data.machine with setpoint := b.target }
      tTot := s.data.tTot + s.data.machine.tq
      tBlk := s.data.tBlk + s.data.machine.tq } } := by
    refine bind_eq_ok.mpr ⟨b, s, currentBlock_ok.mpr ⟨p, hp, hb, rfl⟩, ?_⟩
    refine bind_eq_ok.mpr ⟨(), _, onMachine_ok.mpr ⟨_, setSetpoint_run ha b.target, rfl⟩, ?_⟩
    refine bind_eq_ok.mpr ⟨_, _, rfl, bind_eq_ok.mpr ⟨(), _, rfl, bind_eq_ok.mpr ⟨(), _, rfl,
      bind_eq_ok.mpr ⟨(), _, rfl, bind_eq_ok.mpr ⟨_, _, rfl, ?_⟩⟩⟩⟩⟩
    simp only [hs.flag, hq.2.1, Machine.isConnected, ha]
    rfl
  rw [eval_quiet hq hs rfl hf hs.flag (by decide) (by decide), hs.flag]
  refine bind_eq_ok.mpr ⟨_, _, rfl, ?_⟩
  simp [ha]

/-- INTERP_MOTION: a sample, which is the last one behind the end of the block. -/
theorem eval_interp {prev : Option (Block K)} {P : Point K} {smp : Sample K} {m : Machine K}
    (hq : Quiet env) (hs : Calm .interpMotion s) (hp : s.data.program = some p)
    (hb : p.deref = some b) (hprev : PrevIn p b prev)
    (hint : b.interpolateAt s.data.machine prev s.data.tBlk = .ok (P, smp))
    (hm : (Machine.setSetpoint env.reply P).run s.data.machine = .ok () m) :
    (evalState env).run s = .ok () ⟨.interpMotion,
      if lt (b.profile.dt + s.data.machine.tq / num 10) s.data.tBlk then .loadBlock
        else .interpMotion,
      { s.data with
        machine := m
        tTot := s.data.tTot + s.data.machine.tq
        tBlk := s.data.tBlk + s.data.machine.tq }, false⟩ := by
  have hf : (doInterpMotion env).run s = .ok
      (if lt (b.profile.dt + s.data.machine.tq / num 10) s.data.tBlk then .loadBlock else .noChange)
      { s with data := { s.data with
        machine := m
        tTot := s.data.tTot + s.data.machine.tq
        tBlk := s.data.tBlk + s.data.machine.tq } } := by
    refine bind_eq_ok.mpr ⟨b, s, currentBlock_ok.mpr ⟨p, hp, hb, rfl⟩, bind_eq_ok.mpr ⟨_, _, rfl,
      bind_eq_ok.mpr ⟨prev, s, prevBlock_run hp hprev, ?_⟩⟩⟩
    refine bind_eq_ok.mpr ⟨(P, smp), s, raise_ok.mpr ⟨hint, rfl⟩, ?_⟩
    exact bind_eq_ok.mpr ⟨(), _, onMachine_ok.mpr ⟨m, hm, rfl⟩, rfl⟩
  split at hf
  · next hlt =>
    rw [if_pos hlt, eval_quiet hq hs rfl hf hs.flag (by decide) (by decide), hs.flag]
    rfl
  · next hlt =>
    rw [if_neg hlt, eval_quiet hq hs rfl hf hs.flag (by decide) (by decide), hs.flag]
    rfl

/-- NO_MOTION. -/
theorem eval_still (hq : Quiet env) (hs : Calm .noMotion s) (hp : s.data.program = some p)
    (hb : p.deref = some b) (hpar : b.parsed = true) :
    (evalState env).run s = .ok () ⟨.noMotion, .loadBlock,
      { s.data with tTot := s.data.tTot + s.data.machine.tq }, false⟩ := by
  have hdesc : b.desc = .ok () := by rw [Block.desc, if_pos hpar]
  have hf : (doNoMotion (K := K)).run s = .ok .loadBlock
      { s with data := { s.data with tTot := s.data.tTot + s.data.machine.tq } } := by
    refine bind_eq_ok.mpr ⟨b, s, currentBlock_ok.mpr ⟨p, hp, hb, rfl⟩, ?_⟩
    exact bind_eq_ok.mpr ⟨(), s, raise_ok.mpr ⟨hdesc, rfl⟩, rfl⟩
  rw [eval_quiet hq hs rfl hf hs.flag (by decide) (by decide), hs.flag]
  rfl

/-- GO_TO_ZERO, without an agent: it is left when the error that the machine holds is
small enough. -/
theorem eval_zero (hq : Quiet env) (hs : Calm .goToZero s) (ha : s.data.machine.agent = none) :
    (evalState env).run s = .ok () ⟨.goToZero,
      if lt s.data.machine.error s.data.machine.maxError then .idle else .goToZero,
      { s.data with machine := { s.data.machine with setpoint := s.data.machine.zero } }, false⟩ := by
  have hf : (doGoToZero env).run s = .ok
      (if lt s.data.machine.error s.data.machine.maxError then .idle else .noChange)
      { s with data := { s.data with
        machine := { s.data.machine with setpoint := s.data.machine.zero } } } := by
    refine bind_eq_ok.mpr ⟨_, _, rfl, ?_⟩
    exact bind_eq_ok.mpr ⟨(), _, onMachine_ok.mpr ⟨_, setSetpoint_run ha _, rfl⟩, rfl⟩
  split at hf
  · next hlt =>
    rw [if_pos hlt, eval_quiet hq hs rfl hf hs.flag (by decide) (by decide), hs.flag]
    rfl
  · next hlt =>
    rw [if_neg hlt, eval_quiet hq hs rfl hf hs.flag (by decide) (by decide), hs.flag]
    rfl

end Cncpp.Fsm
