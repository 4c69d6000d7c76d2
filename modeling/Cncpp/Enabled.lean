import Cncpp.Clock

/-! When an evaluation returns, on a machine without an agent: the block of the state is
there, and the motion it asks for is defined. -/

namespace Cncpp.Fsm

open DataArith Lib Lib.ExceptState

variable {K : Type} [DataArith K] {env : Env K} {s : Fsm K} {p : Program K} {b : Block K}

/-- Without an agent the machine goes on. -/
structure Alive (s : Fsm K) (p : Program K) : Prop where
  program : s.data.program = some p
  agent : s.data.machine.agent = none

omit [DataArith K] in
/-- The pointer of a block leads to the block before it in the list. -/
theorem prevIn_of_get {n : ℕ} {a : Block K} (hc : Chain p.blocks)
    (hb : p.blocks[n + 1]? = some b) (ha : p.blocks[n]? = some a) : PrevIn p b (some a) := by
  refine ⟨a.addr, ?_, find_of_get hc.nodup ha⟩
  rw [hc.prev_eq hb, if_neg (Nat.succ_ne_zero n), Nat.add_sub_cancel, ha]
  rfl

/-! ## Small programs -/

section Small

variable {Q : Unit → Fsm K → Prop}

omit [DataArith K] in
theorem Alive.sendMetrics {ok : Bool} (h : s.Alive p) (hQ : Q () s) :
    Returns (sendMetrics ok) s Q := by
  refine .bind (.get ?_)
  rw [h.agent]
  exact .pure hQ

omit [DataArith K] in
theorem Alive.getProgram {Q : Program K → Fsm K → Prop} (h : s.Alive p) (hQ : Q p s) :
    Returns getProgram s Q := .of_run (getProgram_ok.mpr ⟨h.program, rfl⟩) hQ

omit [DataArith K] in
theorem Alive.currentBlock {Q : Block K → Fsm K → Prop} (h : s.Alive p) (hb : p.deref = some b)
    (hQ : Q b s) : Returns currentBlock s Q :=
  .of_run (currentBlock_ok.mpr ⟨p, h.program, hb, rfl⟩) hQ

/-- Commanding a setpoint. -/
theorem Alive.command {reply : Reply K} {q : Point K} (h : s.Alive p)
    (hQ : ∀ t : Fsm K, t.Alive p → Q () t) :
    Returns (onMachine (Machine.setSetpoint reply q)) s Q :=
  .of_run (onMachine_ok.mpr ⟨_, setSetpoint_run h.agent q, rfl⟩) (hQ _ ⟨h.program, h.agent⟩)

theorem Alive.transition (env : Env K) (a c : State) (h : s.Alive p) :
    Returns (transition env a c) s fun _ _ => True := by
  unfold Fsm.transition
  split
  · exact .bind (h.getProgram (.of_run rfl trivial))
  · exact .bind (.of_run rfl (Alive.sendMetrics (p := p) ⟨h.program, h.agent⟩ trivial))
  · exact h.sendMetrics trivial
  · exact .of_run rfl trivial
  · exact .pure trivial

end Small

/-! ## Evaluations -/

omit [DataArith K] in
theorem wrapper_returns (st : State) {valid : List State} {emergency : Bool} {f : FsmM K State}
    (hf : Returns f s fun n t => n ≠ .unimplemented ∧ t.Alive p) :
    Returns (wrapper st valid emergency env f) s fun _ t => t.Alive p := by
  refine .bind (hf.mono fun n t ht => ?_)
  obtain ⟨hn, ha⟩ := ht
  rw [if_neg hn]
  refine .bind (.of_run rfl (.bind (.get ?_)))
  split
  · exact .pure ⟨ha.program, ha.agent⟩
  · exact .pure ⟨ha.program, ha.agent⟩

/-- An evaluation returns when its state function does. -/
theorem eval_returns {st : State} {valid : List State} {emergency : Bool} {f : FsmM K State}
    (hw : stateFun env s.second = wrapper st valid emergency env f)
    (hf : Returns f (s.signalled env.sigint.before) fun n t => n ≠ .unimplemented ∧ t.Alive p) :
    ∃ t, (evalState env).run s = .ok () t := by
  obtain ⟨n, s', hwr, ha⟩ := wrapper_returns st hf
  rw [← hw] at hwr
  have hall : Returns (evalState env) s fun _ _ => True := by
    refine .bind (.of_run rfl (.bind (.get (.bind (.of_run hwr (.bind (.of_run rfl ?_)))))))
    exact Alive.transition env _ _ ⟨ha.program, ha.agent⟩
  obtain ⟨_, t, ht, -⟩ := hall
  exact ⟨t, ht⟩

theorem rapidMotion_returns (env : Env K) (hs : s.second = .rapidMotion) (h : s.Alive p)
    (hb : p.deref = some b) : ∃ t, (evalState env).run s = .ok () t := by
  have hs' : (s.signalled env.sigint.before).Alive p := ⟨h.program, h.agent⟩
  refine eval_returns (p := p) (by rw [hs]; rfl) ?_
  refine .bind (hs'.currentBlock hb (.bind (hs'.command fun t ht => ?_)))
  refine .bind (.get (.bind (.of_run rfl (.bind (.of_run rfl (.bind (.of_run rfl (.bind
    (.get ?_)))))))))
  split
  · exact .bind (.of_run rfl (.pure ⟨by decide, ht.program, ht.agent⟩))
  · refine .pure ⟨?_, ht.program, ht.agent⟩
    split
    · split <;> decide
    · decide

/-! ## A machine without an agent, step by step -/

/-- A machine without an agent that is in the state `st`, with the program `p`, and to
which no SIGINT has arrived. -/
structure Standing (st : State) (p : Program K) (s : Fsm K) : Prop extends Alive s p where
  second : s.second = st
  calm : s.stopRequested = false

omit [DataArith K] in
theorem Standing.toCalm {st : State} (h : Standing st p s) : Calm st s := ⟨h.second, h.calm⟩

theorem exists_init {d : FsmData K} {lines : List Line} (ha : d.machine.agent = none)
    (hload : Edited d.machine (.load d.programFile (some lines) false) Program.empty p) :
    ∃ e t, Evaluates e (setup .init d) t ∧ e.env = { file := some lines } ∧
      Standing .idle p t ∧ t.data.machine = d.machine := by
  have hin : initialLoad ({ file := some lines } : Env K) (setup .init d) = .ok () p := by
    obtain ⟨lines', hl, hr⟩ := edited_load.mp hload
    exact Program.load_iff.mpr ⟨lines', hl, hr⟩
  have ht := eval_start ⟨rfl, rfl, rfl⟩ ⟨rfl, rfl⟩ hin (Program.parsed_load hin)
  exact ⟨⟨_, { file := some lines }, _⟩, _, ⟨rfl, rfl, nofun, ht⟩, rfl, ⟨⟨rfl, ha⟩, rfl, rfl⟩, rfl⟩

/-- SPACE starts a run. -/
theorem exists_space (h : Standing .idle p s) :
    ∃ e t, Evaluates e s t ∧ e.env = { key := ' ' } ∧ Standing .loadBlock p.rewind t ∧
      t.data.machine = s.data.machine := by
  have hq : Quiet ({ key := ' ' } : Env K) := ⟨rfl, rfl, rfl⟩
  have ht := eval_space hq h.toCalm rfl h.program
  exact ⟨⟨s, { key := ' ' }, _⟩, _, ⟨rfl, rfl, by rw [h.second]; decide, ht⟩, rfl,
    ⟨⟨rfl, h.agent⟩, rfl, rfl⟩, rfl⟩

/-- R reloads the program, and the machine waits on, whether the load returns or not. -/
theorem exists_reload (h : Standing .idle p s) (file : Option (List Line)) :
    ∃ e t, Evaluates e s t ∧ e.env = { key := 'r', file := file } ∧ Standing .idle (state
      ((Program.load s.data.machine s.data.programFile file false).run p)) t ∧
      t.data.machine = s.data.machine := by
  have hq : Quiet ({ key := 'r', file := file } : Env K) := ⟨rfl, rfl, rfl⟩
  have ht := eval_reload hq h.toCalm (.inl rfl) h.program
  exact ⟨⟨s, { key := 'r', file := file }, _⟩, _, ⟨rfl, rfl, by rw [h.second]; decide, ht⟩, rfl,
    ⟨⟨rfl, h.agent⟩, rfl, rfl⟩, rfl⟩

/-- The next block is loaded. -/
theorem exists_next (h : Standing .loadBlock p s) (hb : p.loadNext.deref = some b)
    (hd : p.loadNext.done = false) :
    ∃ e t, Evaluates e s t ∧ e.env = {} ∧ Standing (blockState b.type) p.loadNext t ∧
      t.data.machine = s.data.machine ∧ (t.second = .interpMotion → t.data.tBlk = num 0) := by
  have ht := eval_load_next quiet_default h.toCalm h.program h.agent hd hb
  refine ⟨⟨s, {}, _⟩, _, ⟨rfl, rfl, by rw [h.second]; decide, ht⟩, rfl, ⟨⟨rfl, h.agent⟩, rfl, rfl⟩, rfl,
    fun hi => if_pos ?_⟩
  have hi : blockState b.type = .interpMotion := hi
  rw [hi]
  decide

/-- The program ends. -/
theorem exists_end (h : Standing .loadBlock p s) (hd : p.loadNext.done = true) :
    ∃ e t, Evaluates e s t ∧ e.env = {} ∧ Standing .idle p.loadNext t := by
  have ht := eval_load_end quiet_default h.toCalm h.program hd
  exact ⟨⟨s, {}, _⟩, _, ⟨rfl, rfl, by rw [h.second]; decide, ht⟩, rfl, ⟨⟨rfl, h.agent⟩, rfl, rfl⟩⟩

/-- A rapid motion is over in one evaluation, whatever SIGINT does before the flag is
taken down. -/
theorem exists_rapid (h : Standing .rapidMotion p s) (hb : p.deref = some b) (env : Env K)
    (hafter : env.sigint.after = false) :
    ∃ e t, Evaluates e s t ∧ e.env = env ∧ Standing .loadBlock p t ∧
      Commanded b.target s.data.machine t.data.machine := by
  obtain ⟨t, ht⟩ := rapidMotion_returns env h.second h.toAlive hb
  obtain ⟨q, c, hev⟩ := eval_rapidMotion h.second ht
  cases h.program.symm.trans hev.before
  cases hb.symm.trans hev.block
  have hcalm : t.stopRequested = false := hev.stop.trans hafter
  exact ⟨⟨s, env, t⟩, t, ⟨rfl, rfl, by rw [h.second]; decide, ht⟩, rfl,
    ⟨⟨hev.after, hev.commanded.agent h.agent⟩, hev.offline h.agent hcalm, hcalm⟩, hev.commanded⟩

theorem exists_noMotion (h : Standing .noMotion p s) (hb : p.deref = some b)
    (hpar : b.parsed = true) :
    ∃ e t, Evaluates e s t ∧ e.env = {} ∧ Standing .loadBlock p t ∧
      t.data.machine = s.data.machine := by
  have ht := eval_still quiet_default h.toCalm h.program hb hpar
  exact ⟨⟨s, {}, _⟩, _, ⟨rfl, rfl, by rw [h.second]; decide, ht⟩, rfl,
    ⟨⟨h.program, h.agent⟩, rfl, rfl⟩, rfl⟩

end Cncpp.Fsm
