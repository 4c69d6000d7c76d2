import Cncpp.Fsm

/-! What the state functions do, one specification for each: the state they return,
the block they work on, and what they leave of the machine and the program. -/

namespace Cncpp.Fsm

open DataArith Lib Lib.ExceptState

variable {K : Type}

/-! ## The small programs -/

section Small

variable {s t : Fsm K}

theorem getProgram_ok {p : Program K} :
    getProgram.run s = .ok p t ↔ s.data.program = some p ∧ t = s := by
  rw [getProgram, EStateM.run_bind, EStateM.run_get]
  cases h : s.data.program with
  | none => simp [h]
  | some q =>
    simp only [h, EStateM.run_pure, EStateM.Result.ok.injEq, Option.some.injEq]
    exact and_congr_right fun _ => eq_comm

theorem currentBlock_ok {b : Block K} : currentBlock.run s = .ok b t ↔
    ∃ p, s.data.program = some p ∧ p.deref = some b ∧ t = s := by
  simp only [currentBlock, bind_eq_ok, getProgram_ok]
  constructor
  · rintro ⟨p, _, ⟨hp, rfl⟩, h⟩
    cases hd : p.deref with
    | none => rw [hd] at h; cases h
    | some c => rw [hd] at h; cases h; exact ⟨p, hp, hd, rfl⟩
  · rintro ⟨p, hp, hd, rfl⟩
    exact ⟨p, _, ⟨hp, rfl⟩, by rw [hd]; rfl⟩

/-- The block behind the pointer of `b`, in the program `p`. -/
def PrevIn (p : Program K) (b : Block K) : Option (Block K) → Prop
  | none => b.prev = none
  | some q => ∃ a, b.prev = some a ∧ p.find a = some q

theorem PrevIn.unique {p : Program K} {b : Block K} {q r : Option (Block K)} (h : PrevIn p b q)
    (h' : PrevIn p b r) : q = r := by
  cases q with
  | none =>
    have h : b.prev = none := h
    cases r with
    | none => rfl
    | some r =>
      obtain ⟨a, ha, -⟩ := h'
      rw [h] at ha
      cases ha
  | some q =>
    obtain ⟨a, ha, hq⟩ := h
    cases r with
    | none =>
      have h' : b.prev = none := h'
      rw [ha] at h'
      cases h'
    | some r =>
      obtain ⟨a', ha', hr⟩ := h'
      cases ha.symm.trans ha'
      exact hq.symm.trans hr

theorem prevBlock_ok {b : Block K} {q : Option (Block K)} {p : Program K}
    (hp : s.data.program = some p) (h : (prevBlock b).run s = .ok q t) :
    PrevIn p b q ∧ t = s := by
  unfold prevBlock at h
  cases hb : b.prev with
  | none => rw [hb] at h; cases h; exact ⟨hb, rfl⟩
  | some a =>
    rw [hb] at h
    simp only [bind_eq_ok, getProgram_ok] at h
    obtain ⟨p', _, ⟨hp', rfl⟩, h⟩ := h
    cases hp.symm.trans hp'
    cases hf : p.find a with
    | none => rw [hf] at h; cases h
    | some r => rw [hf] at h; cases h; exact ⟨⟨a, hb, hf⟩, rfl⟩

theorem prevBlock_run {b : Block K} {q : Option (Block K)} {p : Program K}
    (hp : s.data.program = some p) (h : PrevIn p b q) : (prevBlock b).run s = .ok q s := by
  unfold prevBlock
  cases q with
  | none =>
    have hnone : b.prev = none := h
    rw [hnone]
    rfl
  | some r =>
    obtain ⟨a, ha, hr⟩ := h
    rw [ha]
    refine bind_eq_ok.mpr ⟨p, s, getProgram_ok.mpr ⟨hp, rfl⟩, ?_⟩
    rw [hr]
    rfl

theorem raise_ok {α : Type} {x : Except (Exn K) α} {a : α} :
    (raise x).run s = .ok a t ↔ x = .ok a ∧ t = s := by
  rw [raise, ofExcept_eq_ok]
  cases x <;> simp [Except.mapError]

theorem run_onMachine (x : MachineM K Unit) (s : Fsm K) : (onMachine x).run s =
    match x.run s.data.machine with
    | .ok _ m => .ok () { s with data := { s.data with machine := m } }
    | .error e m => .error (.exception e) { s with data := { s.data with machine := m } } := rfl

theorem onMachine_ok {x : MachineM K Unit} {u : Unit} : (onMachine x).run s = .ok u t ↔
    ∃ m, x.run s.data.machine = .ok () m ∧ t = { s with data := { s.data with machine := m } } := by
  rw [run_onMachine]
  cases x.run s.data.machine with
  | ok _ m =>
    constructor
    · intro h; cases h; exact ⟨m, rfl, rfl⟩
    · rintro ⟨_, h, rfl⟩; cases h; rfl
  | error e m => simp

theorem sendMetrics_ok {ok : Bool} (h : (sendMetrics ok).run s = .ok () t) : t = s := by
  rw [sendMetrics, EStateM.run_bind, EStateM.run_get] at h
  dsimp only at h
  split at h
  · cases h
  · cases h; rfl

end Small

/-! ## State functions -/

variable [DataArith K] {env : Env K} {s t : Fsm K} {n : State}

/-- Commanding a setpoint leaves everything else that moves read alone. -/
structure Commanded (p : Point K) (m m' : Machine K) : Prop where
  setpoint : m'.setpoint = p
  zero : m'.zero = m.zero
  tq : m'.tq = m.tq
  agent : m.agent = none → m'.agent = none

theorem commanded_of_setSetpoint {reply : Reply K} {p : Point K} {m m' : Machine K}
    (h : (Machine.setSetpoint reply p).run m = .ok () m') : Commanded p m m' := by
  simp only [Machine.setSetpoint, bind_eq_ok] at h
  obtain ⟨_, _, hm, m1, _, hg, h⟩ := h
  cases hm
  cases hg
  split at h
  · next ha =>
    simp only [bind_eq_ok, ofExcept_eq_ok] at h
    obtain ⟨x, _, ⟨-, rfl⟩, y, _, ⟨-, rfl⟩, z, _, ⟨-, rfl⟩, _, _, hm, hs⟩ := h
    cases hm
    cases hs
    refine ⟨by simp, by simp, by simp, fun hn => ?_⟩
    simp [hn] at ha
  · cases h
    exact ⟨rfl, rfl, rfl, fun hn => hn⟩

/-- What `do_init` loads. -/
def initialLoad (env : Env K) (s : Fsm K) : EStateM.Result (Exn K) (Program K) Unit :=
  (Program.load s.data.machine s.data.programFile env.file false).run
    { Program.empty with filename := s.data.programFile }

theorem run_doInit (env : Env K) (s : Fsm K) : (doInit env).run s =
    match initialLoad env s with
    | .error _ _ => .ok .stop s
    | .ok _ p =>
      match p.desc with
      | .ok _ => .ok .idle { s with data := { s.data with program := some p } }
      | .error _ => .ok .stop { s with data := { s.data with program := some p } } := by
  rw [doInit, EStateM.run_bind, EStateM.run_get]
  dsimp only
  rw [initialLoad]
  cases (Program.load s.data.machine s.data.programFile env.file false).run
      { Program.empty with filename := s.data.programFile } with
  | error e p => rfl
  | ok u p => cases hd : p.desc <;> simp only [hd] <;> rfl

/-- What `do_init` does. -/
theorem doInit_ok (h : (doInit env).run s = .ok n t) :
    t.data.machine = s.data.machine ∧ t.stopRequested = s.stopRequested ∧
      ((n = .stop ∧ ∀ p, initialLoad env s = .ok () p → p.desc ≠ .ok ()) ∨
        (n = .idle ∧ ∃ p, initialLoad env s = .ok () p ∧ t.data.program = some p)) := by
  rw [run_doInit] at h
  split at h
  · next he =>
    cases h
    refine ⟨rfl, rfl, .inl ⟨rfl, fun p hp => ?_⟩⟩
    rw [he] at hp
    cases hp
  · next p hload =>
    split at h
    · cases h
      exact ⟨rfl, rfl, .inr ⟨rfl, p, hload, rfl⟩⟩
    · next hd =>
      cases h
      refine ⟨rfl, rfl, .inl ⟨rfl, fun q hq hok => ?_⟩⟩
      cases hload.symm.trans hq
      rw [hok] at hd
      cases hd

/-- What `do_idle` does: it starts a run, reloads the program, or neither. -/
inductive IdleStep (env : Env K) (s : Fsm K) : State → Fsm K → Prop
  | run : env.key = ' ' → IdleStep env s .loadBlock s
  | reload {p : Program K} : env.key = 'r' ∨ env.key = 'R' → s.data.program = some p →
      IdleStep env s .noChange { s with data := { s.data with program := some (state
        ((Program.load s.data.machine s.data.programFile env.file false).run p)) } }
  | other {n : State} : env.key ≠ ' ' → ¬ (env.key = 'r' ∨ env.key = 'R') →
      n = .goToZero ∨ n = .stop ∨ n = .noChange →
      IdleStep env s n s

theorem doIdle_ok (h : (doIdle env).run s = .ok n t) : IdleStep env s n t := by
  unfold doIdle at h
  split at h
  · next hk => cases h; exact .run hk
  next hk =>
  split at h
  · next hr =>
    simp only [bind_eq_ok, getProgram_ok] at h
    obtain ⟨p, _, ⟨hp, rfl⟩, _, _, hg, _, _, hset, h⟩ := h
    cases hg
    cases hset
    cases h
    exact .reload hr hp
  next hr =>
  split at h
  · cases h; exact .other hk hr (.inl rfl)
  split at h
  · cases h; exact .other hk hr (.inr (.inl rfl))
  · cases h; exact .other hk hr (.inr (.inr rfl))

/-- What `do_load_block` does. -/
structure LoadStep (s : Fsm K) (n : State) (t : Fsm K) (p : Program K) : Prop where
  before : s.data.program = some p
  after : t.data.program = some p.loadNext
  machine : t.data.machine = s.data.machine
  stop : t.stopRequested = s.stopRequested
  next : p.loadNext.done = true ∧ n = .idle ∨
    p.loadNext.done = false ∧ ∃ b, p.loadNext.deref = some b ∧ n = blockState b.type

theorem doLoadBlock_ok (h : (doLoadBlock env).run s = .ok n t) : ∃ p, LoadStep s n t p := by
  simp only [doLoadBlock, bind_eq_ok, getProgram_ok] at h
  obtain ⟨p, _, ⟨hp, rfl⟩, _, _, hset, h⟩ := h
  cases hset
  refine ⟨p, ?_⟩
  split at h
  · next hd =>
    cases h
    exact ⟨hp, rfl, rfl, rfl, .inl ⟨hd, rfl⟩⟩
  · next hd =>
    simp only [bind_eq_ok, currentBlock_ok] at h
    obtain ⟨b, _, ⟨q, hq, hb, rfl⟩, _, _, hsend, _, _, hg, _, _, hadd, h⟩ := h
    cases sendMetrics_ok hsend
    cases hg
    cases hadd
    cases h
    cases hq
    exact ⟨hp, rfl, rfl, rfl, .inr ⟨by simpa using hd, b, hb, rfl⟩⟩

/-- What the three functions do that carry out a block. -/
structure MoveStep (s : Fsm K) (n : State) (t : Fsm K) (p : Program K) (b : Block K) : Prop where
  before : s.data.program = some p
  after : t.data.program = some p
  block : p.deref = some b
  next : n = .loadBlock ∨ n = .noChange

theorem doRapidMotion_ok (h : (doRapidMotion env).run s = .ok n t) :
    ∃ p b, MoveStep s n t p b ∧ Commanded b.target s.data.machine t.data.machine ∧
      t.stopRequested = false ∧ (s.data.machine.agent = none → n = .loadBlock) := by
  simp only [doRapidMotion, bind_eq_ok, currentBlock_ok, onMachine_ok] at h
  obtain ⟨b, _, ⟨p, hp, hb, rfl⟩, _, _, ⟨m, hm, rfl⟩, _, _, hg, _, _, htot, _, _, hblk, _, _, hstop,
    _, _, hg', h⟩ := h
  cases hg
  cases htot
  cases hblk
  cases hstop
  cases hg'
  have hcom := commanded_of_setSetpoint hm
  refine ⟨p, b, ?_⟩
  dsimp only at h
  split at h
  · next hf =>
    simp only [bind_eq_ok] at h
    obtain ⟨_, _, hset, h⟩ := h
    cases hset
    cases h
    exact ⟨⟨hp, hp, hb, .inl rfl⟩, hcom, rfl, fun _ => rfl⟩
  · next hf =>
    cases h
    refine ⟨⟨hp, hp, hb, ?_⟩, hcom, by simpa using hf, fun ha => ?_⟩
    · split
      · split
        · exact .inl rfl
        · exact .inr rfl
      · exact .inl rfl
    · have hoff : m.isConnected env.connected = false := by
        simp [Machine.isConnected, hcom.agent ha]
      rw [hoff]
      rfl

/-- One sample of an interpolated block. -/
structure SampleStep (s : Fsm K) (n : State) (t : Fsm K) (p : Program K) (b : Block K)
    (prev : Option (Block K)) (tgt : Point K) : Prop extends MoveStep s n t p b where
  prev_eq : PrevIn p b prev
  setpoint : ∃ smp, b.interpolateAt s.data.machine prev s.data.tBlk = .ok (tgt, smp)
  commanded : Commanded tgt s.data.machine t.data.machine
  stop : t.stopRequested = s.stopRequested
  last : n = .loadBlock → lt (b.profile.dt + s.data.machine.tq / num 10) s.data.tBlk = true

theorem doInterpMotion_ok (h : (doInterpMotion env).run s = .ok n t) :
    ∃ p b prev tgt, SampleStep s n t p b prev tgt := by
  simp only [doInterpMotion, bind_eq_ok, currentBlock_ok, onMachine_ok, raise_ok] at h
  obtain ⟨b, _, ⟨p, hp, hb, rfl⟩, _, _, hg, prev, _, hprev, ⟨tgt, smp⟩, _, ⟨hint, rfl⟩, _, _,
    ⟨m, hm, rfl⟩, _, _, htot, _, _, hblk, h⟩ := h
  cases hg
  obtain ⟨hpv, rfl⟩ := prevBlock_ok hp hprev
  cases htot
  cases hblk
  cases h
  refine ⟨p, b, prev, tgt, ⟨hp, hp, hb, ?_⟩, hpv, ⟨smp, hint⟩, commanded_of_setSetpoint hm, rfl,
    ?_⟩
  · split
    · exact .inl rfl
    · exact .inr rfl
  · split
    · next hlt => exact fun _ => hlt
    · exact fun hn => absurd hn (by decide)

theorem doNoMotion_ok (h : (doNoMotion (K := K)).run s = .ok n t) :
    ∃ p b, MoveStep s n t p b ∧ b.parsed = true ∧ t.data.machine = s.data.machine ∧
      t.stopRequested = s.stopRequested ∧ n = .loadBlock := by
  simp only [doNoMotion, bind_eq_ok, currentBlock_ok, raise_ok] at h
  obtain ⟨b, _, ⟨p, hp, hb, rfl⟩, _, _, ⟨hdesc, rfl⟩, _, _, hg, _, _, htot, h⟩ := h
  cases hg
  cases htot
  cases h
  have hpar : b.parsed = true := by
    unfold Block.desc at hdesc
    split at hdesc
    · assumption
    · cases hdesc
  exact ⟨p, b, ⟨hp, hp, hb, .inl rfl⟩, hpar, rfl, rfl, rfl⟩

theorem doGoToZero_ok (h : (doGoToZero env).run s = .ok n t) :
    t.data.program = s.data.program ∧ t.stopRequested = s.stopRequested ∧
      Commanded s.data.machine.zero s.data.machine t.data.machine ∧ (n = .idle ∨ n = .noChange) := by
  simp only [doGoToZero, bind_eq_ok, onMachine_ok] at h
  obtain ⟨_, _, hg, _, _, ⟨m, hm, rfl⟩, _, _, hg', h⟩ := h
  cases hg
  cases hg'
  cases h
  refine ⟨rfl, rfl, commanded_of_setSetpoint hm, ?_⟩
  split
  · exact .inl rfl
  · exact .inr rfl

end Cncpp.Fsm
