import Cncpp.StateFunctions

/-! What one evaluation of the machine does, state by state: the state function, the
check of the flag in its wrapper, and the transition function. -/

namespace Cncpp.Fsm

open DataArith Lib Lib.ExceptState

variable {K : Type} [DataArith K] {env : Env K} {s t : Fsm K} {n : State}

/-! ## Wrappers and transitions -/

omit [DataArith K] in
theorem wrapper_ok {st : State} {valid : List State} {emergency : Bool} {f : FsmM K State}
    (h : (wrapper st valid emergency env f).run s = .ok n t) :
    ∃ n' s', f.run s = .ok n' s' ∧
      t = { s' with stopRequested := s'.stopRequested || env.sigint.after } ∧
      n = if emergency && t.stopRequested then .stop
        else if n' ∈ valid then n' else .noChange := by
  simp only [wrapper, bind_eq_ok] at h
  obtain ⟨n', s', hf, h⟩ := h
  refine ⟨n', s', hf, ?_⟩
  split at h
  · cases h
  · simp only [bind_eq_ok] at h
    obtain ⟨_, _, hset, _, _, hg, h⟩ := h
    cases hset
    cases hg
    split at h
    · next he => cases h; exact ⟨rfl, (if_pos he).symm⟩
    · next he => cases h; exact ⟨rfl, (if_neg he).symm⟩

/-- What a transition function does to the data. -/
structure Transited (a b : State) (d d' : FsmData K) : Prop where
  machine : d'.machine = d.machine
  rewound : a = .idle → b = .loadBlock →
    ∃ p, d.program = some p ∧ d'.program = some p.rewind
  program : ¬ (a = .idle ∧ b = .loadBlock) → d'.program = d.program
  clock : a = .loadBlock → b = .interpMotion → d'.tBlk = num 0

theorem transition_ok {a b : State} (h : (transition env a b).run s = .ok () t) :
    t = { s with data := t.data } ∧ Transited a b s.data t.data := by
  unfold transition at h
  split at h
  · simp only [resetRun, bind_eq_ok, getProgram_ok] at h
    obtain ⟨p, _, ⟨hp, rfl⟩, _, _, hset, hm⟩ := h
    cases hset
    cases hm
    exact ⟨rfl, rfl, fun _ _ => ⟨p, hp, rfl⟩, fun hn => absurd ⟨rfl, rfl⟩ hn, nofun⟩
  · simp only [beginRapid, bind_eq_ok] at h
    obtain ⟨_, _, hc, hm⟩ := h
    cases hc
    cases sendMetrics_ok hm
    exact ⟨rfl, rfl, nofun, fun _ => rfl, nofun⟩
  · cases sendMetrics_ok h
    exact ⟨rfl, rfl, nofun, fun _ => rfl, nofun⟩
  · cases h
    exact ⟨rfl, rfl, nofun, fun _ => rfl, fun _ _ => rfl⟩
  · next h1 _ _ h4 =>
    cases h
    exact ⟨rfl, rfl, fun ha hb => (h1 ha hb).elim, fun _ => rfl, fun ha hb => (h4 ha hb).elim⟩

/-- SIGINT arrives, or not. -/
def signalled (s : Fsm K) (v : Bool) : Fsm K := { s with stopRequested := s.stopRequested || v }

/-- The next state, from the current one, the result of the state function and the
flag. -/
def settle (cur : State) (valid : List State) (emergency stop : Bool) (n : State) : State :=
  if emergency && stop then .stop
  else if n ∈ valid then (if n = .noChange then cur else n)
  else cur

theorem settle_guarded {cur n : State} {valid : List State} (stop : Bool) (h : n ∈ valid) :
    settle cur valid true stop n =
      if stop then .stop else if n = .noChange then cur else n := by
  rw [settle, Bool.true_and, if_pos h]

/-- An evaluation runs a state function in its wrapper, and then a transition
function. -/
theorem eval_of_wrapper {st : State} {valid : List State} {emergency : Bool} {f : FsmM K State}
    (hw : stateFun env s.second = wrapper st valid emergency env f)
    (h : (evalState env).run s = .ok () t) :
    ∃ n s', f.run (s.signalled env.sigint.before) = .ok n s' ∧ t.first = s.second ∧
      t.stopRequested = (s'.stopRequested || env.sigint.after) ∧
      t.second = settle s.second valid emergency t.stopRequested n ∧
      Transited s.second t.second s'.data t.data := by
  simp only [evalState, bind_eq_ok] at h
  obtain ⟨_, _, hset, _, _, hg, n, s1, hf, _, _, hm, ht⟩ := h
  cases hset
  cases hg
  cases hm
  rw [hw] at hf
  obtain ⟨n', s', hf', rfl, rfl⟩ := wrapper_ok hf
  obtain ⟨heq, htr⟩ := transition_ok ht
  have hsec := congrArg Fsm.second heq
  have hstop := congrArg Fsm.stopRequested heq
  dsimp only at hsec hstop
  refine ⟨n', s', hf', by rw [heq], hstop, ?_, ?_⟩
  · rw [hsec, hstop, settle]
    split
    · rfl
    · split
      · rfl
      · rfl
  · rw [hsec]
    exact htr

/-! ## Evaluations, state by state -/

/-- The flag, as an evaluation finds it. -/
def flagSeen (env : Env K) (s : Fsm K) : Bool := s.stopRequested || env.sigint.before

/-- The flag after an evaluation that does not clear it. -/
def flagLeft (env : Env K) (s : Fsm K) : Bool := flagSeen env s || env.sigint.after

/-- An evaluation in a state that ignores the flag goes on, and keeps it. -/
structure Ignored (env : Env K) (s t : Fsm K) : Prop where
  first : t.first = s.second
  stop : t.stopRequested = flagLeft env s

/-- An evaluation in a state with an emergency transition moves to STOP when the flag
is set in the end. -/
structure Guarded (s t : Fsm K) : Prop where
  first : t.first = s.second
  halt : t.stopRequested = true → t.second = .stop

/-- An evaluation of INIT. -/
structure InitEval (env : Env K) (s t : Fsm K) : Prop extends Ignored env s t where
  machine : t.data.machine = s.data.machine
  next : (t.second = .stop ∧ ∀ p, initialLoad env s = .ok () p → p.desc ≠ .ok ()) ∨
    (t.second = .idle ∧ ∃ p, initialLoad env s = .ok () p ∧ t.data.program = some p)

theorem eval_init (hs : s.second = .init) (h : (evalState env).run s = .ok () t) :
    InitEval env s t := by
  obtain ⟨n, s', hf, hfirst, hstop, hnext, htr⟩ := eval_of_wrapper (by rw [hs]; rfl) h
  rw [hs] at hnext htr
  obtain ⟨hm, hflag, hn⟩ := doInit_ok hf
  refine ⟨⟨hfirst, by rw [hstop, hflag]; rfl⟩, htr.machine.trans hm, ?_⟩
  rcases hn with ⟨rfl, hno⟩ | ⟨rfl, p, hp, hprog⟩
  · exact .inl ⟨hnext, hno⟩
  · exact .inr ⟨hnext, p, hp, (htr.program (fun h => nomatch h.1)).trans hprog⟩

/-- An evaluation of IDLE. -/
structure IdleEval (env : Env K) (s t : Fsm K) : Prop extends Guarded s t where
  stop : t.stopRequested = flagLeft env s
  machine : t.data.machine = s.data.machine
  key :
    ((env.key = 'r' ∨ env.key = 'R') ∧
      (t.second = .idle ∨ t.second = .stop ∧ t.stopRequested = true) ∧
      ∃ p, s.data.program = some p ∧ t.data.program = some (state
        ((Program.load s.data.machine s.data.programFile env.file false).run p))) ∨
    (env.key = ' ' ∧ t.second = .loadBlock ∧
      ∃ p, s.data.program = some p ∧ t.data.program = some p.rewind) ∨
    (¬ (env.key = 'r' ∨ env.key = 'R') ∧ (env.key = ' ' → t.stopRequested = true) ∧
      (t.second = .idle ∨ t.second = .goToZero ∨ t.second = .stop) ∧
      t.data.program = s.data.program)

theorem eval_idle (hs : s.second = .idle) (h : (evalState env).run s = .ok () t) :
    IdleEval env s t := by
  obtain ⟨n, s', hf, hfirst, hstop, hnext, htr⟩ := eval_of_wrapper (by rw [hs]; rfl) h
  rw [hs] at hnext htr
  have hkeep : t.second ≠ .loadBlock → t.data.program = s'.data.program := fun hne =>
    htr.program fun hc => hne hc.2
  have hguard : t.stopRequested = true → t.second = .stop := by
    intro hv
    rw [hnext, hv]
    rfl
  have hgo : t.stopRequested = false → t.second = if n = .noChange then .idle else n := by
    intro hv
    rw [hnext, hv]
    exact settle_guarded false (by rcases doIdle_ok hf with _ | _ | ⟨-, -, rfl | rfl | rfl⟩ <;> decide)
  have hbase : Guarded s t := ⟨hfirst, hguard⟩
  cases hv : t.stopRequested with
  | true =>
    have hsec := hguard hv
    have hprog := hkeep (by rw [hsec]; decide)
    cases doIdle_ok hf with
    | run hk =>
      have hnr : ¬ (env.key = 'r' ∨ env.key = 'R') := by
        rw [hk]
        decide
      exact ⟨hbase, hstop, htr.machine,
        .inr (.inr ⟨hnr, fun _ => hv, .inr (.inr hsec), hprog⟩)⟩
    | reload hk hp => exact ⟨hbase, hstop, htr.machine, .inl ⟨hk, .inr ⟨hsec, hv⟩, _, hp, hprog⟩⟩
    | other _ hnr _ =>
      exact ⟨hbase, hstop, htr.machine,
        .inr (.inr ⟨hnr, fun _ => hv, .inr (.inr hsec), hprog⟩)⟩
  | false =>
    have hsec := hgo hv
    cases doIdle_ok hf with
    | run hk => exact ⟨hbase, hstop, htr.machine, .inr (.inl ⟨hk, hsec, htr.rewound rfl hsec⟩)⟩
    | reload hk hp =>
      have hsec : t.second = .idle := hsec
      exact ⟨hbase, hstop, htr.machine,
        .inl ⟨hk, .inl hsec, _, hp, hkeep (by rw [hsec]; decide)⟩⟩
    | other hk hnr hn =>
      have hsec : t.second = .idle ∨ t.second = .goToZero ∨ t.second = .stop := by
        rcases hn with rfl | rfl | rfl
        · exact .inr (.inl hsec)
        · exact .inr (.inr hsec)
        · exact .inl hsec
      have hprog := hkeep (by rcases hsec with h | h | h <;> rw [h] <;> decide)
      exact ⟨hbase, hstop, htr.machine, .inr (.inr ⟨hnr, fun h => absurd h hk, hsec, hprog⟩)⟩

/-- An evaluation of LOAD_BLOCK. -/
structure LoadEval (env : Env K) (s t : Fsm K) (p : Program K) : Prop extends Ignored env s t where
  before : s.data.program = some p
  after : t.data.program = some p.loadNext
  machine : t.data.machine = s.data.machine
  next : p.loadNext.done = true ∧ t.second = .idle ∨
    p.loadNext.done = false ∧ ∃ b, p.loadNext.deref = some b ∧ t.second = blockState b.type
  clock : t.second = .interpMotion → t.data.tBlk = num 0

theorem blockState_mem (type : BlockType) :
    blockState type ∈ [State.noMotion, .rapidMotion, .interpMotion, .idle] := by
  unfold blockState
  split_ifs <;> decide

theorem eval_loadBlock (hs : s.second = .loadBlock) (h : (evalState env).run s = .ok () t) :
    ∃ p, LoadEval env s t p := by
  obtain ⟨n, s', hf, hfirst, hstop, hnext, htr⟩ := eval_of_wrapper (by rw [hs]; rfl) h
  rw [hs] at hnext htr
  obtain ⟨p, hload⟩ := doLoadBlock_ok hf
  have hn : t.second = n := by
    have hmem : n ∈ [State.noMotion, .rapidMotion, .interpMotion, .idle] := by
      rcases hload.next with ⟨-, rfl⟩ | ⟨-, b, -, rfl⟩
      · decide
      · exact blockState_mem b.type
    have hne : n ≠ .noChange := by
      rintro rfl
      exact absurd hmem (by decide)
    rw [hnext, settle, Bool.false_and, if_neg Bool.false_ne_true, if_pos hmem, if_neg hne]
  refine ⟨p, ⟨hfirst, by rw [hstop, hload.stop]; rfl⟩, hload.before, ?_, ?_, ?_,
    fun hi => htr.clock rfl hi⟩
  · rw [htr.program (fun hc => nomatch hc.1), hload.after]
  · rw [htr.machine, hload.machine]
    rfl
  · rw [hn]
    exact hload.next

/-- An evaluation of a state that carries out the block `b`. -/
structure MoveEval (s t : Fsm K) (p : Program K) (b : Block K) : Prop where
  before : s.data.program = some p
  after : t.data.program = some p
  block : p.deref = some b
  next : t.second = .stop ∧ t.stopRequested = true ∨ t.second = .loadBlock ∨ t.second = s.second

/-- An evaluation of RAPID_MOTION. -/
structure RapidEval (env : Env K) (s t : Fsm K) (p : Program K) (b : Block K) : Prop extends
    Guarded s t, MoveEval s t p b where
  commanded : Commanded b.target s.data.machine t.data.machine
  /-- The flag is taken down in the state function. -/
  stop : t.stopRequested = env.sigint.after
  /-- Without an agent a rapid motion takes one evaluation. -/
  offline : s.data.machine.agent = none → t.stopRequested = false → t.second = .loadBlock

theorem eval_rapidMotion (hs : s.second = .rapidMotion) (h : (evalState env).run s = .ok () t) :
    ∃ p b, RapidEval env s t p b := by
  obtain ⟨n, s', hf, hfirst, hstop, hnext, htr⟩ := eval_of_wrapper (by rw [hs]; rfl) h
  obtain ⟨p, b, hmove, hcom, hflag, hoff⟩ := doRapidMotion_ok hf
  rw [hs] at hnext htr
  have hsec : t.second = if t.stopRequested then .stop
      else if n = .noChange then .rapidMotion else n := by
    rw [hnext]
    exact settle_guarded _ (by rcases hmove.next with rfl | rfl <;> decide)
  have hprog := htr.program (fun hc => nomatch hc.1)
  refine ⟨p, b, ⟨hfirst, fun hv => ?_⟩, ⟨hmove.before, hprog.trans hmove.after, hmove.block, ?_⟩, ?_,
    by rw [hstop, hflag, Bool.false_or], fun ha hv => ?_⟩
  · rw [hsec, if_pos hv]
  · rw [hsec, hs]
    split
    · next hv => exact .inl ⟨rfl, hv⟩
    · rcases hmove.next with rfl | rfl
      · exact .inr (.inl rfl)
      · exact .inr (.inr rfl)
  · rw [htr.machine]
    exact hcom
  · rw [hsec, hv, hoff ha]
    rfl

/-- An evaluation of INTERP_MOTION: one sample. -/
structure InterpEval (env : Env K) (s t : Fsm K) (p : Program K) (b : Block K)
    (prev : Option (Block K)) (tgt : Point K) : Prop extends
    Guarded s t, MoveEval s t p b where
  prev_eq : PrevIn p b prev
  setpoint : ∃ smp, b.interpolateAt s.data.machine prev s.data.tBlk = .ok (tgt, smp)
  commanded : Commanded tgt s.data.machine t.data.machine
  stop : t.stopRequested = flagLeft env s
  last : t.second = .loadBlock →
    lt (b.profile.dt + s.data.machine.tq / num 10) s.data.tBlk = true

theorem eval_interpMotion (hs : s.second = .interpMotion) (h : (evalState env).run s = .ok () t) :
    ∃ p b prev tgt, InterpEval env s t p b prev tgt := by
  obtain ⟨n, s', hf, hfirst, hstop, hnext, htr⟩ := eval_of_wrapper (by rw [hs]; rfl) h
  obtain ⟨p, b, prev, tgt, hsmp⟩ := doInterpMotion_ok hf
  rw [hs] at hnext htr
  have hsec : t.second = if t.stopRequested then .stop
      else if n = .noChange then .interpMotion else n := by
    rw [hnext]
    exact settle_guarded _ (by rcases hsmp.next with rfl | rfl <;> decide)
  have hprog := htr.program (fun hc => nomatch hc.1)
  refine ⟨p, b, prev, tgt, ⟨hfirst, fun hv => ?_⟩, ⟨hsmp.before, hprog.trans hsmp.after, hsmp.block,
    ?_⟩, hsmp.prev_eq, hsmp.setpoint, ?_, by rw [hstop, hsmp.stop]; rfl, fun hl => hsmp.last ?_⟩
  · rw [hsec, if_pos hv]
  · rw [hsec, hs]
    split
    · next hv => exact .inl ⟨rfl, hv⟩
    · rcases hsmp.next with rfl | rfl
      · exact .inr (.inl rfl)
      · exact .inr (.inr rfl)
  · rw [htr.machine]
    exact hsmp.commanded
  · rw [hsec] at hl
    rcases hsmp.next with rfl | rfl
    · rfl
    · split at hl <;> cases hl

/-- An evaluation of NO_MOTION. -/
structure NoMotionEval (env : Env K) (s t : Fsm K) (p : Program K) (b : Block K) : Prop extends
    Ignored env s t, MoveEval s t p b where
  parsed : b.parsed = true
  machine : t.data.machine = s.data.machine
  done : t.second = .loadBlock

theorem eval_noMotion (hs : s.second = .noMotion) (h : (evalState env).run s = .ok () t) :
    ∃ p b, NoMotionEval env s t p b := by
  obtain ⟨n, s', hf, hfirst, hstop, hnext, htr⟩ := eval_of_wrapper (by rw [hs]; rfl) h
  obtain ⟨p, b, hmove, hpar, hm, hflag, rfl⟩ := doNoMotion_ok hf
  rw [hs] at hnext htr
  have hsec : t.second = .loadBlock := hnext
  have hprog := htr.program (fun hc => nomatch hc.1)
  exact ⟨p, b, ⟨hfirst, by rw [hstop, hflag]; rfl⟩, ⟨hmove.before, hprog.trans hmove.after,
    hmove.block, .inr (.inl hsec)⟩, hpar, htr.machine.trans hm, hsec⟩

/-- An evaluation of GO_TO_ZERO. -/
structure ZeroEval (env : Env K) (s t : Fsm K) : Prop extends Guarded s t where
  stop : t.stopRequested = flagLeft env s
  program : t.data.program = s.data.program
  commanded : Commanded s.data.machine.zero s.data.machine t.data.machine
  next : t.second = .stop ∨ t.second = .idle ∨ t.second = .goToZero

theorem eval_goToZero (hs : s.second = .goToZero) (h : (evalState env).run s = .ok () t) :
    ZeroEval env s t := by
  obtain ⟨n, s', hf, hfirst, hstop, hnext, htr⟩ := eval_of_wrapper (by rw [hs]; rfl) h
  obtain ⟨hp, hflag, hcom, hn⟩ := doGoToZero_ok hf
  rw [hs] at hnext htr
  have hsec : t.second = if t.stopRequested then .stop
      else if n = .noChange then .goToZero else n := by
    rw [hnext]
    exact settle_guarded _ (by rcases hn with rfl | rfl <;> decide)
  refine ⟨⟨hfirst, fun hv => by rw [hsec, if_pos hv]⟩, by rw [hstop, hflag]; rfl,
    (htr.program (fun hc => nomatch hc.1)).trans hp, by rw [htr.machine]; exact hcom, ?_⟩
  rw [hsec]
  split
  · exact .inl rfl
  · rcases hn with rfl | rfl
    · exact .inr (.inl rfl)
    · exact .inr (.inr rfl)

/-- The states that can be evaluated. -/
theorem eval_state (h : (evalState env).run s = .ok () t) :
    s.second ∈ [State.init, .idle, .loadBlock, .rapidMotion, .interpMotion, .noMotion, .goToZero,
      .stop] := by
  cases hs : s.second with
  | numStates | noChange | unimplemented =>
    simp only [evalState, bind_eq_ok] at h
    obtain ⟨_, _, hset, _, _, hg, n, s', hf, -⟩ := h
    cases hset
    cases hg
    dsimp only at hf
    rw [hs] at hf
    cases hf
  | _ => decide

/-- No SIGINT arrives during the evaluation. -/
def Quiet (env : Env K) : Prop :=
  env.sigint.before = false ∧ env.sigint.inside = false ∧ env.sigint.after = false

/-- Without SIGINT the flag stays down. -/
theorem flag_of_quiet (hq : Quiet env) (hs : s.stopRequested = false) (hne : s.second ≠ .stop)
    (h : (evalState env).run s = .ok () t) : t.stopRequested = false := by
  obtain ⟨hb, -, ha⟩ := hq
  have hleft : flagLeft env s = false := by simp [flagLeft, flagSeen, hs, hb, ha]
  have hmem := eval_state h
  simp only [List.mem_cons, List.not_mem_nil, or_false] at hmem
  rcases hmem with hm | hm | hm | hm | hm | hm | hm | hm
  · exact (eval_init hm h).stop.trans hleft
  · exact (eval_idle hm h).stop.trans hleft
  · obtain ⟨p, he⟩ := eval_loadBlock hm h
    exact he.stop.trans hleft
  · obtain ⟨p, b, he⟩ := eval_rapidMotion hm h
    exact he.stop.trans ha
  · obtain ⟨p, b, prev, tgt, he⟩ := eval_interpMotion hm h
    exact he.stop.trans hleft
  · obtain ⟨p, b, he⟩ := eval_noMotion hm h
    exact he.stop.trans hleft
  · exact (eval_goToZero hm h).stop.trans hleft
  · exact absurd hm hne

end Cncpp.Fsm
