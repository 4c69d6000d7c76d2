import Cncpp.ClosedLoop

/-! What the agent is handed in a run: the commands for setpoints, which the simulator hears, and
between them the metrics, which go to a topic of their own.  Whatever the operator, the signals and
the simulator do, they are sessions, one for each program that was started, and a session says
block by block what the machine does. -/

namespace Cncpp

open DataArith Lib Lib.ExceptState Fsm

/-- What the agent is handed: the command for a setpoint, or metrics. -/
inductive Message (K : Type) where
  | setpoint (P : Point K)
  | line (l : Line)
  | rapidStart (t : K)
  | rapidEnd (t : K)

section Messages

variable {K : Type} [DataArith K]

/-- The metrics that `do_load_block` sends: the line that it has loaded. -/
def loadMetrics (d : FsmData K) : List (Message K) :=
  match d.program with
  | some p => if p.loadNext.done then [] else (p.loadNext.deref.map fun b => .line b.line).toList
  | none => []

/-- The metrics that the transition functions send. -/
def transitionMetrics (a b : State) (tTot : K) : List (Message K) :=
  match a, b with
  | .loadBlock, .rapidMotion => [.rapidStart tTot]
  | .rapidMotion, .loadBlock => [.rapidEnd tTot]
  | _, _ => []

/-- What an evaluation sends, in its state function and then in its transition function. -/
def messagesOf (e : Eval K) : List (Message K) :=
  if e.before.data.machine.agent.isSome then
    (if e.before.second = .loadBlock then loadMetrics e.before.data else []) ++
      ((commandOf e).map .setpoint).toList ++
        transitionMetrics e.before.second e.after.second e.after.data.tTot
  else []

/-- The program that an evaluation starts. -/
def startedOf (e : Eval K) : Option (Program K) :=
  if e.before.second = .idle ∧ e.after.second = .loadBlock then e.before.data.program else none

/-! ## Sessions -/

/-- The time `n` ticks after `t`, as the machine counts it. -/
def ticksAfter (tq t : K) (n : ℕ) : K := (· + tq)^[n] t

/-- Setpoints of the block `b` of `p`, one for each tick of its time. -/
def Samples (m : Machine K) (p : Program K) (b : Block K) (Ps : List (Point K)) : Prop :=
  ∀ i P, Ps[i]? = some P → ∃ prev smp, PrevIn p b prev ∧
    b.interpolateAt m prev (ticksAfter m.tq (num 0) i) = .ok (P, smp)

/-- The time `i` ticks into the block is behind its end, by the test of `do_interp_motion`. -/
def PastEnd (m : Machine K) (b : Block K) (i : ℕ) : Prop :=
  lt (b.profile.dt + m.tq / num 10) (ticksAfter m.tq (num 0) i) = true

/-- What is sent so far of the block that is carried out.  Only the last setpoint can be one behind
the end, where the machine is stopped. -/
inductive Begun (m : Machine K) (p : Program K) (b : Block K) : List (Message K) → Prop
  | still : b.type = .noMotion → Begun m p b [.line b.line]
  | rapid (t : K) (n : ℕ) : b.type = .rapid →
      Begun m p b (.line b.line :: .rapidStart t :: List.replicate n (.setpoint b.target))
  | interp {Ps : List (Point K)} : b.type.Interpolated → Samples m p b Ps →
      (∀ i, i + 1 < Ps.length → ¬ PastEnd m b i) → Begun m p b (.line b.line :: Ps.map .setpoint)

/-- What is sent of a block that has been carried out.  A rapid motion says when it began and when
it ended; in between the machine commands nothing but its target, once for each tick.  An
interpolated block is sampled up to the first tick behind its end. -/
inductive Told (m : Machine K) (p : Program K) (b : Block K) : List (Message K) → Prop
  | still : b.type = .noMotion ∨ ¬ b.type.Known → Told m p b [.line b.line]
  | rapid (t : K) (n : ℕ) : b.type = .rapid →
      Told m p b (.line b.line :: .rapidStart t ::
        (List.replicate (n + 1) (.setpoint b.target) ++ [.rapidEnd (ticksAfter m.tq t (n + 1))]))
  | interp {Ps : List (Point K)} (n : ℕ) : b.type.Interpolated → Samples m p b Ps →
      Ps.length = n + 1 → (∀ i < n, ¬ PastEnd m b i) → PastEnd m b n →
      Told m p b (.line b.line :: Ps.map .setpoint)

/-- The first `n` blocks of the program are told, in order. -/
inductive Recited (m : Machine K) (p : Program K) : ℕ → List (Message K) → Prop
  | zero : Recited m p 0 []
  | succ {n : ℕ} {b : Block K} {ms ws : List (Message K)} : Recited m p n ms →
      p.blocks[n]? = some b → Told m p b ws → Recited m p (n + 1) (ms ++ ws)

/-- A session ends behind the last block, or behind one of an unknown type. -/
def Over (p : Program K) (n : ℕ) : Prop :=
  n = p.blocks.length ∨ ∃ k b, n = k + 1 ∧ p.blocks[k]? = some b ∧ ¬ b.type.Known

/-- Sessions for the given programs, and between them the moves to the reference point, one
command for each evaluation of GO_TO_ZERO. -/
inductive Conversation (m : Machine K) : List (Program K) → List (Message K) → Prop
  | nil : Conversation m [] []
  | zero {ps : List (Program K)} {ms : List (Message K)} : Conversation m ps ms →
      Conversation m ps (ms ++ [.setpoint m.zero])
  | session {ps : List (Program K)} {p : Program K} {n : ℕ} {ms ws : List (Message K)} :
      Conversation m ps ms → Recited m p n ws → Over p n → Conversation m (ps ++ [p]) (ms ++ ws)

/-- A session that is not over: some blocks have been told, and perhaps the next one has begun. -/
structure Unfinished (m : Machine K) (p : Program K) (rest : List (Message K)) : Prop where
  told : ∃ n ws vs, Recited m p n ws ∧ rest = ws ++ vs ∧
    (vs = [] ∨ ∃ b, p.blocks[n]? = some b ∧ Begun m p b vs)

end Messages

/-! ## The clock -/

section Clock

variable {K : Type} [DataArith K] {env : Env K} {s t : Fsm K} {n : State}

/-- An evaluation is a state function and the transition function, which finds what the former
has left. -/
theorem eval_transition {st : State} {valid : List State} {emergency : Bool} {f : FsmM K State}
    (hw : stateFun env s.second = wrapper st valid emergency env f)
    (h : (evalState env).run s = .ok () t) :
    ∃ n s', f.run (s.signalled env.sigint.before) = .ok n s' ∧
      (transition env s.second t.second).run
        ⟨s.second, t.second, s'.data, s'.stopRequested || env.sigint.after⟩ = .ok () t := by
  simp only [evalState, bind_eq_ok] at h
  obtain ⟨_, _, hset, _, _, hg, n, s1, hf, _, _, hm, ht⟩ := h
  cases hset
  cases hg
  cases hm
  rw [hw] at hf
  obtain ⟨n', s', hf', rfl, rfl⟩ := wrapper_ok hf
  have hsec := congrArg Fsm.second (transition_ok ht).1
  dsimp only at hsec
  rw [← hsec] at ht
  exact ⟨n', s', hf', ht⟩

/-- Only the start of a run sets the time in total. -/
theorem transition_tTot {a b : State} (hne : ¬ (a = .idle ∧ b = .loadBlock))
    (h : (transition env a b).run s = .ok () t) : t.data.tTot = s.data.tTot := by
  unfold transition at h
  split at h
  · exact absurd ⟨rfl, rfl⟩ hne
  · simp only [beginRapid, bind_eq_ok] at h
    obtain ⟨_, _, hc, hm⟩ := h
    cases hc
    cases sendMetrics_ok hm
    rfl
  · cases sendMetrics_ok h
    rfl
  · cases h
    rfl
  · cases h
    rfl

/-- Behind a motion the time of the block stays. -/
theorem transition_tBlk {a b : State} (hi : a ≠ .idle) (hl : a ≠ .loadBlock)
    (h : (transition env a b).run s = .ok () t) : t.data.tBlk = s.data.tBlk := by
  unfold transition at h
  split at h
  · exact absurd rfl hi
  · exact absurd rfl hl
  · cases sendMetrics_ok h
    rfl
  · exact absurd rfl hl
  · cases h
    rfl

theorem tTot_of_rapid (h : (doRapidMotion env).run s = .ok n t) :
    t.data.tTot = s.data.tTot + s.data.machine.tq := by
  simp only [doRapidMotion, bind_eq_ok, currentBlock_ok, onMachine_ok] at h
  obtain ⟨b, _, ⟨p, hp, hb, rfl⟩, _, _, ⟨m, hm, rfl⟩, _, _, hg, _, _, htot, _, _, hblk, _, _, hstop,
    _, _, hg', h⟩ := h
  cases hg
  cases htot
  cases hblk
  cases hstop
  cases hg'
  rw [← (commanded_of_setSetpoint hm).tq]
  dsimp only at h
  split at h
  · simp only [bind_eq_ok] at h
    obtain ⟨_, _, hset, h⟩ := h
    cases hset
    cases h
    rfl
  · cases h
    rfl

theorem tBlk_of_interp (h : (doInterpMotion env).run s = .ok n t) :
    t.data.tBlk = s.data.tBlk + s.data.machine.tq := by
  simp only [doInterpMotion, bind_eq_ok, currentBlock_ok, onMachine_ok, raise_ok] at h
  obtain ⟨b, _, ⟨p, hp, hb, rfl⟩, _, _, hg, prev, _, hprev, ⟨P, smp⟩, _, ⟨-, rfl⟩, _, _, ⟨m, hm, rfl⟩,
    _, _, htot, _, _, hblk, h⟩ := h
  cases hg
  obtain ⟨-, rfl⟩ := prevBlock_ok hp hprev
  cases htot
  cases hblk
  cases h
  rfl

/-- The end test of a sample, for the two ways in which the block is not stopped. -/
theorem interp_test (hs : s.second = .interpMotion) (h : (evalState env).run s = .ok () t) {p : Program K}
    {b : Block K} (hp : s.data.program = some p) (hb : p.deref = some b) :
    (t.second = .loadBlock → lt (b.profile.dt + s.data.machine.tq / num 10) s.data.tBlk = true) ∧
      (t.second = .interpMotion →
        lt (b.profile.dt + s.data.machine.tq / num 10) s.data.tBlk = false) := by
  obtain ⟨n, s', hf, -, -, hnext, -⟩ := eval_of_wrapper (by rw [hs]; rfl) h
  have hn : n = if lt (b.profile.dt + s.data.machine.tq / num 10) s.data.tBlk then .loadBlock
      else .noChange := by
    simp only [doInterpMotion, bind_eq_ok, currentBlock_ok, onMachine_ok, raise_ok] at hf
    obtain ⟨c, _, ⟨q, hq, hc, rfl⟩, _, _, hg, prev, _, hprev, ⟨P, smp⟩, _, ⟨-, rfl⟩, _, _, ⟨m, -, rfl⟩,
      _, _, htot, _, _, hblk, hf⟩ := hf
    cases hg
    cases htot
    cases hblk
    cases hf
    cases hp.symm.trans hq
    cases hb.symm.trans hc
    rfl
  have hsec : t.second = if t.stopRequested then .stop
      else if n = .noChange then .interpMotion else n := by
    rw [hnext, hs]
    refine settle_guarded _ ?_
    rw [hn]
    split <;> decide
  cases hlt : lt (b.profile.dt + s.data.machine.tq / num 10) s.data.tBlk with
  | true =>
    refine ⟨fun _ => rfl, fun ht => ?_⟩
    rw [hn, hlt, ht] at hsec
    split at hsec <;> cases hsec
  | false =>
    refine ⟨fun ht => ?_, fun _ => rfl⟩
    rw [hn, hlt, ht] at hsec
    split at hsec <;> cases hsec

end Clock

/-! ## What has been said in a state -/

section Heard

variable {K : Type} [DataArith K] {m : Machine K} {p q : Program K} {b : Block K} {s t : Fsm K}
  {e : Eval K} {n : ℕ} {ps : List (Program K)} {ms ws vs : List (Message K)}

theorem ticksAfter_succ (tq v : K) (n : ℕ) : ticksAfter tq v (n + 1) = ticksAfter tq v n + tq :=
  Function.iterate_succ_apply' ..

/-- Only the reference point of the machine is read. -/
theorem interpolateAt_congr {m' : Machine K} {prev : Option (Block K)} (hz : m'.zero = m.zero)
    (v : K) : b.interpolateAt m' prev v = b.interpolateAt m prev v := by
  simp only [Block.interpolateAt, Block.interpolate_congr hz]

theorem Samples.concat {Ps : List (Point K)} {P : Point K} {prev : Option (Block K)}
    {smp : Sample K} (h : Samples m p b Ps) (hprev : PrevIn p b prev)
    (hP : b.interpolateAt m prev (ticksAfter m.tq (num 0) Ps.length) = .ok (P, smp)) :
    Samples m p b (Ps ++ [P]) := by
  intro i Q hQ
  rcases Nat.lt_or_ge i Ps.length with hi | hi
  · rw [List.getElem?_append_left hi] at hQ
    exact h i Q hQ
  · rw [List.getElem?_append_right hi] at hQ
    obtain ⟨hlt, rfl⟩ := List.getElem?_eq_some_iff.mp hQ
    obtain rfl : i = Ps.length := by simp at hlt; omega
    exact ⟨prev, smp, hprev, by simpa using hP⟩

/-- What has been said of the block `b` that is carried out in the state `s`. -/
inductive Carrying (m : Machine K) (p : Program K) (b : Block K) (s : Fsm K) :
    List (Message K) → Prop
  | still : b.type = .noMotion → s.second = .noMotion → Carrying m p b s [.line b.line]
  | rapid (v : K) (n : ℕ) : b.type = .rapid → s.second = .rapidMotion →
      s.data.tTot = ticksAfter m.tq v n →
      Carrying m p b s (.line b.line :: .rapidStart v :: List.replicate n (.setpoint b.target))
  | interp {Ps : List (Point K)} : b.type.Interpolated → s.second = .interpMotion →
      Samples m p b Ps → (∀ i < Ps.length, ¬ PastEnd m b i) →
      s.data.tBlk = ticksAfter m.tq (num 0) Ps.length →
      Carrying m p b s (.line b.line :: Ps.map .setpoint)

theorem Carrying.begun (h : Carrying m p b s vs) : Begun m p b vs := by
  cases h with
  | still ht _ => exact .still ht
  | rapid v n ht _ _ => exact .rapid v n ht
  | interp ht _ hP hend _ => exact .interp ht hP fun i hi => hend i (by omega)

/-- What has been said when the machine stands in `s`: of the session for the program `p` that is
under way, `ws` of the blocks before the one at `n`. -/
inductive Heard (m : Machine K) (s : Fsm K) : List (Program K) → List (Message K) → Prop
  | resting {ps : List (Program K)} {ms : List (Message K)} :
      s.second ∈ [State.init, .idle, .goToZero, .stop] → Conversation m ps ms → Heard m s ps ms
  | loading {ps : List (Program K)} {ms ws : List (Message K)} {p q : Program K} {n : ℕ} :
      s.second = .loadBlock → Conversation m ps ms → Chain p.blocks → Walk p.blocks s q n →
      Recited m p n ws → Heard m s (ps ++ [p]) (ms ++ ws)
  | carrying {ps : List (Program K)} {ms ws vs : List (Message K)} {p q : Program K} {n : ℕ}
      {b : Block K} : Conversation m ps ms → Chain p.blocks → Walk p.blocks s q (n + 1) →
      p.blocks[n]? = some b → Recited m p n ws → Carrying m p b s vs →
      Heard m s (ps ++ [p]) (ms ++ (ws ++ vs))
  | broken {ps : List (Program K)} {ms rest : List (Message K)} {p : Program K} :
      s.second = .stop → Conversation m ps ms → Unfinished m p rest →
      Heard m s (ps ++ [p]) (ms ++ rest)

/-- The machine has an agent, and the parameters of `m`. -/
structure Tuned (m : Machine K) (s : Fsm K) : Prop where
  agent : s.data.machine.agent.isSome = true
  zero : s.data.machine.zero = m.zero
  tick : s.data.machine.tq = m.tq

theorem Tuned.eval (h : Tuned m s) (he : Evaluates e s t) : Tuned m t := by
  obtain ⟨hz, htq⟩ := params_of_eval he
  refine ⟨?_, hz.trans h.zero, htq.trans h.tick⟩
  obtain ⟨rfl, rfl, -, hrun⟩ := he
  rcases machine_of_eval hrun with ⟨-, P, hP⟩ | ⟨-, hm⟩
  · exact hP.agent h.agent
  · rw [hm]
    exact h.agent

omit [DataArith K] in
theorem startedOf_of_ne (hs : e.before.second ≠ .idle) : startedOf e = none :=
  if_neg fun h => hs h.1

omit [DataArith K] in
/-- The states at rest send nothing by themselves. -/
theorem messagesOf_of_quiet (hs : e.before.second ∈ [State.init, .idle, .noMotion]) :
    messagesOf e = [] := by
  simp only [List.mem_cons, List.not_mem_nil, or_false] at hs
  unfold messagesOf commandOf
  rcases hs with hs | hs | hs <;> rw [hs] <;> split <;> rfl

omit [DataArith K] in
/-- A state that commands a setpoint. -/
theorem messagesOf_of_command (ha : e.before.data.machine.agent.isSome = true)
    (hs : e.before.second ∈ commanding) {P : Point K} (hP : e.after.data.machine.setpoint = P) :
    messagesOf e = .setpoint P ::
      transitionMetrics e.before.second e.after.second e.after.data.tTot := by
  simp only [commanding, List.mem_cons, List.not_mem_nil, or_false] at hs
  unfold messagesOf commandOf
  rcases hs with hs | hs | hs <;> rw [if_pos ha, hs, hP] <;> rfl

theorem heard_init (hs : s.second = .init) (h : Conversation m ps ms) (he : Evaluates e s t) :
    Heard m t (ps ++ (startedOf e).toList) (ms ++ messagesOf e) := by
  obtain ⟨rfl, rfl, -, hrun⟩ := he
  rw [messagesOf_of_quiet (by rw [hs]; simp), startedOf_of_ne (by rw [hs]; decide), Option.toList_none,
    List.append_nil, List.append_nil]
  refine .resting ?_ h
  rcases (eval_init hs hrun).next with ⟨ht, -⟩ | ⟨ht, -⟩ <;> rw [ht] <;> decide

theorem heard_idle (hs : s.second = .idle) (h : Conversation m ps ms) (he : Evaluates e s t)
    (hchain : ∀ p, s.data.program = some p → Chain p.blocks) :
    Heard m t (ps ++ (startedOf e).toList) (ms ++ messagesOf e) := by
  obtain ⟨rfl, rfl, -, hrun⟩ := he
  rw [messagesOf_of_quiet (by rw [hs]; simp), List.append_nil]
  have hrest : e.after.second ∈ [State.idle, .goToZero, .stop] →
      Heard m e.after (ps ++ (startedOf e).toList) ms := by
    intro ht
    have hne : e.after.second ≠ .loadBlock := by
      rintro hload
      rw [hload] at ht
      exact absurd ht (by decide)
    rw [startedOf, if_neg fun hc => hne hc.2, Option.toList_none, List.append_nil]
    exact .resting (List.mem_cons_of_mem _ ht) h
  rcases (eval_idle hs hrun).key with ⟨-, ht, -⟩ | ⟨-, ht, p, hp, hp'⟩ | ⟨-, -, ht, -⟩
  · refine hrest ?_
    rcases ht with ht | ⟨ht, -⟩ <;> rw [ht] <;> decide
  · rw [startedOf, if_pos ⟨hs, ht⟩, hp, Option.toList_some, ← List.append_nil ms]
    exact .loading ht h (hchain p hp) ⟨hp', rfl, p.cursorAt_rewind⟩ .zero
  · refine hrest ?_
    rcases ht with ht | ht | ht <;> rw [ht] <;> decide

theorem heard_zero (hs : s.second = .goToZero) (hm : Tuned m s) (h : Conversation m ps ms)
    (he : Evaluates e s t) : Heard m t (ps ++ (startedOf e).toList) (ms ++ messagesOf e) := by
  obtain ⟨rfl, rfl, -, hrun⟩ := he
  have hz := eval_goToZero hs hrun
  rw [messagesOf_of_command hm.agent (by rw [hs]; decide) (hz.commanded.setpoint.trans hm.zero),
    startedOf_of_ne (by rw [hs]; decide), Option.toList_none, List.append_nil, hs]
  refine .resting ?_ h.zero
  rcases hz.next with ht | ht | ht <;> rw [ht] <;> decide

omit [DataArith K] in
theorem messagesOf_of_load (ha : e.before.data.machine.agent.isSome = true)
    (hs : e.before.second = .loadBlock) (hq : e.before.data.program = some q) :
    messagesOf e = (if q.loadNext.done then [] else
      (q.loadNext.deref.map fun b => .line b.line).toList) ++
        transitionMetrics .loadBlock e.after.second e.after.data.tTot := by
  unfold messagesOf commandOf loadMetrics
  rw [if_pos ha, if_pos hs, hs, hq]
  simp

omit [DataArith K] in
theorem done_of_deref (h : q.loadNext.deref = some b) : q.loadNext.done = false := by
  obtain ⟨a, ha, -⟩ := Option.bind_eq_some_iff.mp h
  have hdone : q.loadNext.done = q.loadNext.current.isNone := rfl
  rw [hdone, ha]
  rfl

/-- LOAD_BLOCK names the line of the next block, and says when a rapid motion begins. -/
theorem heard_load (hs : s.second = .loadBlock) (hm : Tuned m s) (h : Conversation m ps ms)
    (hc : Chain p.blocks) (hw : Walk p.blocks s q n) (hr : Recited m p n ws) (he : Evaluates e s t) :
    Heard m t (ps ++ [p] ++ (startedOf e).toList) (ms ++ ws ++ messagesOf e) := by
  have hwalk := walk_load hc hs hw he
  obtain ⟨rfl, rfl, -, hrun⟩ := he
  obtain ⟨q', hload⟩ := eval_loadBlock hs hrun
  cases hw.program.symm.trans hload.before
  rw [messagesOf_of_load hm.agent hs hw.program, startedOf_of_ne (by rw [hs]; decide),
    Option.toList_none, List.append_nil, List.append_assoc]
  rcases hwalk with ⟨b, hb, hderef, ht, -, hw'⟩ | ⟨rfl, ht, -, -, hdone⟩
  · rw [done_of_deref hderef, if_neg Bool.false_ne_true, hderef, Option.map_some, Option.toList_some]
    have hcarry : ∀ vs, Carrying m p b e.after vs → Heard m e.after (ps ++ [p]) (ms ++ (ws ++ vs)) :=
      fun vs hvs => .carrying h hc hw' hb hr hvs
    by_cases hk : b.type.Known
    · simp only [BlockType.Known, List.mem_cons, List.not_mem_nil, or_false] at hk
      have htype : b.type = .noMotion ∨ b.type = .rapid ∨ b.type.Interpolated := by
        unfold BlockType.Interpolated BlockType.IsArc
        tauto
      rcases htype with htype | htype | htype
      · rw [htype] at ht
        have ht : e.after.second = .noMotion := ht
        rw [ht]
        exact hcarry _ (.still htype ht)
      · rw [htype] at ht
        have ht : e.after.second = .rapidMotion := ht
        rw [ht]
        exact hcarry _ (.rapid e.after.data.tTot 0 htype ht rfl)
      · rw [BlockType.blockState_of_interpolated htype] at ht
        rw [ht]
        have hnone : Samples m p b [] := by
          intro i P hi
          simp at hi
        have hbegin : ∀ i < ([] : List (Point K)).length, ¬ PastEnd m b i :=
          fun i hi => absurd hi (Nat.not_lt_zero i)
        exact hcarry _ (.interp htype ht hnone hbegin (hload.clock ht))
    · rw [BlockType.blockState_eq_idle.mpr hk] at ht
      rw [ht]
      exact .resting (by rw [ht]; decide)
        (h.session (hr.succ hb (.still (.inr hk))) (.inr ⟨n, b, rfl, hb, hk⟩))
  · rw [hdone, if_pos rfl, ht]
    have hnil : ([] : List (Message K)) ++ transitionMetrics .loadBlock .idle e.after.data.tTot = [] :=
      rfl
    rw [hnil, List.append_nil]
    exact .resting (by rw [ht]; decide) (h.session hr (.inl rfl))

theorem heard_still (hs : s.second = .noMotion) (h : Conversation m ps ms)
    (hc : Chain p.blocks) (hw : Walk p.blocks s q (n + 1)) (hb : p.blocks[n]? = some b)
    (hr : Recited m p n ws) (ht : b.type = .noMotion) (he : Evaluates e s t) :
    Heard m t (ps ++ [p] ++ (startedOf e).toList) (ms ++ (ws ++ [.line b.line]) ++ messagesOf e) := by
  obtain ⟨rfl, rfl, -, hrun⟩ := he
  obtain ⟨q', c, hev⟩ := eval_noMotion hs hrun
  cases hw.program.symm.trans hev.before
  rw [messagesOf_of_quiet (by rw [hs]; simp), startedOf_of_ne (by rw [hs]; decide),
    Option.toList_none, List.append_nil, List.append_nil]
  exact .loading hev.done h hc ⟨hev.after, hw.blocks, hw.cursor⟩ (hr.succ hb (.still (.inl ht)))

/-- RAPID_MOTION commands the target once more, and says when the motion has ended. -/
theorem heard_rapid (hs : s.second = .rapidMotion) (hm : Tuned m s) (h : Conversation m ps ms)
    (hc : Chain p.blocks) (hw : Walk p.blocks s q (n + 1)) (hb : p.blocks[n]? = some b)
    (hr : Recited m p n ws) (htype : b.type = .rapid) {v : K} {k : ℕ}
    (htot : s.data.tTot = ticksAfter m.tq v k) (he : Evaluates e s t) :
    Heard m t (ps ++ [p] ++ (startedOf e).toList) (ms ++ (ws ++ (.line b.line :: .rapidStart v ::
      List.replicate k (.setpoint b.target))) ++ messagesOf e) := by
  obtain ⟨rfl, rfl, -, hrun⟩ := he
  obtain ⟨q', c, hev⟩ := eval_rapidMotion hs hrun
  cases hw.program.symm.trans hev.before
  cases (hw.deref hc hb).symm.trans hev.block
  obtain ⟨n', s', hf, htr⟩ := eval_transition (by rw [hs]; rfl) hrun
  have htick : e.after.data.tTot = ticksAfter m.tq v (k + 1) := by
    have hleft := tTot_of_rapid hf
    have hmove : e.after.data.tTot = e.before.data.tTot + e.before.data.machine.tq :=
      (transition_tTot (by rw [hs]; nofun) htr).trans hleft
    rw [hmove, ticksAfter_succ, ← htot, hm.tick]
  have hw' : Walk p.blocks e.after q (n + 1) := ⟨hev.after, hw.blocks, hw.cursor⟩
  have happ : ∀ T : List (Message K), ms ++ (ws ++ (.line b.line :: .rapidStart v ::
      List.replicate k (.setpoint b.target))) ++ .setpoint b.target :: T =
      ms ++ (ws ++ (.line b.line :: .rapidStart v ::
        (List.replicate (k + 1) (.setpoint b.target) ++ T))) := by
    intro T
    simp [List.replicate_succ']
  rw [messagesOf_of_command hm.agent (by rw [hs]; decide) hev.commanded.setpoint,
    startedOf_of_ne (by rw [hs]; decide), Option.toList_none, List.append_nil, hs, happ]
  rcases hev.next with ⟨ht, -⟩ | ht | ht
  · rw [ht]
    refine .broken ht h ⟨n, ws, _, hr, rfl, .inr ⟨b, hb, ?_⟩⟩
    exact (List.append_nil _).symm ▸ .rapid v (k + 1) htype
  · rw [ht, htick]
    exact .loading ht h hc hw' (hr.succ hb (.rapid v k htype))
  · rw [hs] at ht
    rw [ht]
    refine .carrying h hc hw' hb hr ?_
    exact (List.append_nil _).symm ▸ .rapid v (k + 1) htype ht htick

/-- INTERP_MOTION commands the next setpoint of the block. -/
theorem heard_interp (hs : s.second = .interpMotion) (hm : Tuned m s) (h : Conversation m ps ms)
    (hc : Chain p.blocks) (hw : Walk p.blocks s q (n + 1)) (hb : p.blocks[n]? = some b)
    (hr : Recited m p n ws) (htype : b.type.Interpolated) {Ps : List (Point K)}
    (hP : Samples m p b Ps) (hend : ∀ i < Ps.length, ¬ PastEnd m b i)
    (hblk : s.data.tBlk = ticksAfter m.tq (num 0) Ps.length)
    (he : Evaluates e s t) : Heard m t (ps ++ [p] ++ (startedOf e).toList)
      (ms ++ (ws ++ (.line b.line :: Ps.map .setpoint)) ++ messagesOf e) := by
  obtain ⟨rfl, rfl, -, hrun⟩ := he
  obtain ⟨q', c, prev, P, hev⟩ := eval_interpMotion hs hrun
  cases hw.program.symm.trans hev.before
  cases (hw.deref hc hb).symm.trans hev.block
  obtain ⟨n', s', hf, htr⟩ := eval_transition (by rw [hs]; rfl) hrun
  have htick : e.after.data.tBlk = ticksAfter m.tq (num 0) (Ps ++ [P]).length := by
    have hleft := tBlk_of_interp hf
    have hmove : e.after.data.tBlk = e.before.data.tBlk + e.before.data.machine.tq :=
      (transition_tBlk (by rw [hs]; nofun) (by rw [hs]; nofun) htr).trans hleft
    rw [hmove, List.length_append, List.length_singleton, ticksAfter_succ, ← hblk, hm.tick]
  have hP' : Samples m p b (Ps ++ [P]) := by
    obtain ⟨smp, hint⟩ := hev.setpoint
    rw [interpolateAt_congr hm.zero, hblk] at hint
    exact hP.concat (hev.prev_eq.congr hw.blocks.symm) hint
  have hw' : Walk p.blocks e.after q (n + 1) := ⟨hev.after, hw.blocks, hw.cursor⟩
  obtain ⟨hover, hgoes⟩ := interp_test hs hrun hw.program (hw.deref hc hb)
  rw [hm.tick, hblk] at hover hgoes
  have happ : ms ++ (ws ++ (.line b.line :: Ps.map .setpoint)) ++
      .setpoint P :: transitionMetrics .interpMotion e.after.second e.after.data.tTot =
      ms ++ (ws ++ (.line b.line :: (Ps ++ [P]).map .setpoint)) := by
    have hnil : transitionMetrics .interpMotion e.after.second e.after.data.tTot = [] := rfl
    rw [hnil]
    simp
  rw [messagesOf_of_command hm.agent (by rw [hs]; decide) hev.commanded.setpoint,
    startedOf_of_ne (by rw [hs]; decide), Option.toList_none, List.append_nil, hs, happ]
  rcases hev.next with ⟨ht, -⟩ | ht | ht
  · refine .broken ht h ⟨n, ws, _, hr, rfl, .inr ⟨b, hb, .interp htype hP' fun i hi => ?_⟩⟩
    rw [List.length_append, List.length_singleton] at hi
    exact hend i (by omega)
  · refine .loading ht h hc hw' (hr.succ hb (.interp Ps.length htype hP' ?_ hend (hover ht)))
    rw [List.length_append, List.length_singleton]
  · refine .carrying h hc hw' hb hr (.interp htype (ht.trans hs) hP' (fun i hi => ?_) htick)
    rw [List.length_append, List.length_singleton] at hi
    rcases Nat.lt_succ_iff_lt_or_eq.mp hi with hi | rfl
    · exact hend i hi
    · rw [PastEnd, hgoes (ht.trans hs)]
      exact Bool.false_ne_true

/-- One evaluation. -/
theorem Heard.step (h : Heard m s ps ms) (hm : Tuned m s)
    (hchain : s.second = .idle → ∀ p, s.data.program = some p → Chain p.blocks)
    (he : Evaluates e s t) : Heard m t (ps ++ (startedOf e).toList) (ms ++ messagesOf e) := by
  cases h with
  | resting hs h =>
    simp only [List.mem_cons, List.not_mem_nil, or_false] at hs
    rcases hs with hs | hs | hs | hs
    · exact heard_init hs h he
    · exact heard_idle hs h he (hchain hs)
    · exact heard_zero hs hm h he
    · exact absurd hs he.2.2.1
  | loading hs h hc hw hr => exact heard_load hs hm h hc hw hr he
  | carrying h hc hw hb hr hcar =>
    cases hcar with
    | still ht hs => exact heard_still hs h hc hw hb hr ht he
    | rapid v k ht hs htot => exact heard_rapid hs hm h hc hw hb hr ht htot he
    | interp ht hs hP hend hblk => exact heard_interp hs hm h hc hw hb hr ht hP hend hblk he
  | broken hs _ _ => exact absurd hs he.2.2.1

/-- A run goes on with what has been said. -/
theorem heard_run {d : FsmData K} {pre es : List (Eval K)} (hpre : FsmRun (setup .init d) pre s)
    (hr : FsmRun s es t) (hm : Tuned d.machine s) (h : Heard d.machine s ps ms) :
    Heard d.machine t (ps ++ es.filterMap startedOf) (ms ++ es.flatMap messagesOf) := by
  induction hr generalizing pre ps ms with
  | nil s => simpa using h
  | @cons e s u t es he _ ih =>
    have hchain : s.second = .idle → ∀ p, s.data.program = some p → Chain p.blocks := by
      intro hs p hp
      obtain ⟨p', hp', hw⟩ := (safe_run hpre).program (by rw [hs]; decide) (by rw [hs]; decide)
      cases hp.symm.trans hp'
      exact hw.chain
    have hrest := ih (hpre.append (.single he)) (hm.eval he) (h.step hm hchain he)
    have hps : ps ++ (e :: es).filterMap startedOf =
        ps ++ (startedOf e).toList ++ es.filterMap startedOf := by
      cases hst : startedOf e with
      | none => rw [List.filterMap_cons_none hst, Option.toList_none, List.append_nil]
      | some p => rw [List.filterMap_cons_some hst, Option.toList_some, List.append_assoc]; rfl
    rw [hps, List.flatMap_cons, ← List.append_assoc]
    exact hrest

/-- What has been said is a conversation, and perhaps a session that is not over. -/
theorem Heard.split (h : Heard m s ps ms) : ∃ ps' ms' rest, ms = ms' ++ rest ∧
    Conversation m ps' ms' ∧ (ps = ps' ∧ rest = [] ∨
      s.second ∉ [State.init, .idle, .goToZero] ∧ ∃ p, ps = ps' ++ [p] ∧ Unfinished m p rest) := by
  cases h with
  | resting _ h => exact ⟨ps, ms, [], (List.append_nil ms).symm, h, .inl ⟨rfl, rfl⟩⟩
  | @loading ps ms ws p q n hs h _ _ hr =>
    exact ⟨ps, ms, ws, rfl, h, .inr ⟨by rw [hs]; decide, p, rfl, n, ws, [], hr, by simp, .inl rfl⟩⟩
  | @carrying ps ms ws vs p q n b h _ _ hb hr hcar =>
    refine ⟨ps, ms, ws ++ vs, rfl, h, .inr ⟨?_, p, rfl, n, ws, vs, hr, rfl, .inr ⟨b, hb, hcar.begun⟩⟩⟩
    cases hcar with
    | still _ hs | rapid _ _ _ hs _ | interp _ hs _ _ _ => rw [hs]; decide
  | @broken ps ms rest p hs h hu => exact ⟨ps, ms, rest, rfl, h, .inr ⟨by rw [hs]; decide, p, rfl, hu⟩⟩

/-- What the agent is handed.  In every run of the machine behind an agent, whatever the keys, the
signals and the replies are, it is told one session for each program that is started, in order, and
between them the moves to the reference point; the last session is not over only while the program
is carried out, or when the machine has been stopped in it.  A session goes through the blocks of
its program and says of each its line, and then its motion: of a rapid one the time at which it
began and the time, in ticks, at which it ended, around the commands for its target; of an
interpolated one the setpoint at each tick, up to the first one behind its end. -/
theorem run_converses {d : FsmData K} {es : List (Eval K)} (ha : d.machine.agent.isSome = true)
    (hr : FsmRun (setup .init d) es t) : ∃ ps ms rest, es.flatMap messagesOf = ms ++ rest ∧
      Conversation d.machine ps ms ∧ (es.filterMap startedOf = ps ∧ rest = [] ∨
        t.second ∉ [State.init, .idle, .goToZero] ∧
          ∃ p, es.filterMap startedOf = ps ++ [p] ∧ Unfinished d.machine p rest) := by
  have hstart : Heard d.machine (setup .init d) [] [] :=
    .resting (show State.init ∈ _ by decide) .nil
  exact (heard_run (.nil _) hr ⟨ha, rfl, rfl⟩ hstart).split

end Heard

/-! ## The session of a rapid motion -/

noncomputable section

open XReal

theorem run_converses_sample : ∃ (p : Program XReal) (a b c : Block XReal) (es : List (Eval XReal))
    (t : Fsm XReal), FsmRun (setup .init linkedData) es t ∧ t.second = .idle ∧
      p.blocks = [a, b, c] ∧ a.type = .rapid ∧ b.type = .line ∧ c.type = .noMotion ∧
      Conversation linkedMachine [p] (es.flatMap messagesOf) := by
  obtain ⟨p, a, b, c, e₁, s, hmix, h₁, hs, hcalm, hp, hm, -⟩ := exists_linked
  obtain ⟨hA, htq⟩ := default_limits
  have hmax : s.data.machine.maxError = .fin ((5 / 1000 : ℚ) : ℝ) := by
    rw [hm]
    rfl
  have hpl : Playable jumping s.data.machine p (1 / 1000) :=
    playable_of_run h₁ hs hp (by rw [hm]; exact hA) (by norm_num) (by rw [hm]; exact htq) (by norm_num)
      hmix.known hmix.drivable hmix.targets (by rw [hmax]; exact jumping_settles (by norm_num))
  obtain ⟨e₀, es, u, t, a', he₀, hkey, hready, hrun, hbusy, ht⟩ :=
    exists_played hpl ⟨hs, hcalm⟩ hp (by rw [hm]; rfl) (num 0, num 0, num 0)
  have hrest := (fsmRun_of_coupled (.cons he₀ hrun)).1
  have hr : FsmRun (setup .init linkedData) ([e₁] ++ e₀ :: es) t := h₁.append hrest
  have hstarted : ([e₁] ++ e₀ :: es).filterMap startedOf = [p] := by
    have hbefore₁ : startedOf e₁ = none := by
      cases h₁ with
      | cons he _ => exact startedOf_of_ne (by rw [he.1]; decide)
    have hbefore₀ : startedOf e₀ = some p := by
      have he := (fsmRun_of_coupled (.single he₀)).1
      cases he with
      | cons he hnil =>
        cases hnil
        rw [startedOf, he.1, he.2.1, if_pos ⟨hs, hready.calm.second⟩, hp]
    have hnone : es.filterMap startedOf = [] :=
      List.filterMap_eq_nil_iff.mpr fun e he => startedOf_of_ne (hbusy e he)
    rw [List.singleton_append, List.filterMap_cons_none hbefore₁, List.filterMap_cons_some hbefore₀, hnone]
  obtain ⟨ps, ms, rest, hms, hconv, hcase⟩ := run_converses rfl hr
  rcases hcase with ⟨hps, hnil⟩ | ⟨hbusy', -⟩
  · rw [hstarted] at hps
    rw [← hps] at hconv
    refine ⟨p, a, b, c, _, t, hr, ht, hmix.blocks, hmix.rapid, hmix.line, hmix.still, ?_⟩
    rw [hms, hnil, List.append_nil]
    exact hconv
  · rw [ht] at hbusy'
    exact absurd (by decide) hbusy'

end

end Cncpp
