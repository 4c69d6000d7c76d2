import Cncpp.Lib.Run
import Cncpp.Program

/-! The finite state machine that runs a program: the state functions, the
transition functions, the generated dispatch and the loop `run`.

Everything one evaluation takes from outside is an `Env`: the key, the content
of the program file, the agent, and the moments at which SIGINT arrives. -/

namespace Cncpp

open DataArith Lib Lib.ExceptState

/-- `state_t`. -/
inductive State where
  | init
  | idle
  | loadBlock
  | rapidMotion
  | interpMotion
  | noMotion
  | goToZero
  | stop
  | numStates
  | noChange
  | unimplemented
  deriving DecidableEq, Repr

/-- `state_names`. -/
def State.name : State → String
  | init => "INIT"
  | idle => "IDLE"
  | loadBlock => "LOAD_BLOCK"
  | rapidMotion => "RAPID_MOTION"
  | interpMotion => "INTERP_MOTION"
  | noMotion => "NO_MOTION"
  | goToZero => "GO_TO_ZERO"
  | stop => "STOP"
  | numStates => "NUM_STATES"
  | noChange => "NO_CHANGE"
  | unimplemented => "UNIMPLEMENTED"

/-- When SIGINT arrives, relative to the accesses to `stop_requested`. -/
structure Sigint where
  /-- Before the state function is called. -/
  before : Bool := false
  /-- Inside `do_rapid_motion`, the one state function that accesses the flag,
  before it does so. -/
  inside : Bool := false
  /-- After that, and before the dispatch reads the flag. -/
  after : Bool := false

structure Env (K : Type) where
  key : Char := ' '
  file : Option (List Line) := none
  connected : Bool := false
  reply : Reply K := .publishFails
  /-- Publishing metrics succeeds in the state function. -/
  metrics : Bool := true
  /-- Publishing metrics succeeds in the transition function. -/
  transitionMetrics : Bool := true
  sigint : Sigint := {}

structure FsmData (K : Type) where
  programFile : String
  machine : Machine K
  program : Option (Program K)
  tTot : K
  tBlk : K

/-- The machine, and `stop_requested`.  `first` and `second` are the previous
and the current state. -/
structure Fsm (K : Type) where
  first : State
  second : State
  data : FsmData K
  stopRequested : Bool

/-- Why an evaluation does not return: an exception that nobody catches, or an
access through a null pointer, the end iterator or a freed node. -/
inductive Failure (K : Type) where
  | exception (e : Exn K)
  | nullProgram
  | noBlock
  | danglingPrev

abbrev FsmM (K : Type) := EStateM (Failure K) (Fsm K)

namespace Fsm

variable {K : Type}

def raise (x : Except (Exn K) α) : FsmM K α := ofExcept (x.mapError .exception)

def getProgram : FsmM K (Program K) := do
  match (← get).data.program with
  | some p => pure p
  | none => throw .nullProgram

def setProgram (p : Program K) : FsmM K Unit :=
  modify fun s => { s with data := { s.data with program := some p } }

/-- `*data.program->current()`. -/
def currentBlock : FsmM K (Block K) := do
  match (← getProgram).deref with
  | some b => pure b
  | none => throw .noBlock

/-- The block that `prev` points to, if the pointer is not null. -/
def prevBlock (b : Block K) : FsmM K (Option (Block K)) := do
  match b.prev with
  | none => pure none
  | some a =>
    match (← getProgram).find a with
    | some p => pure (some p)
    | none => throw .danglingPrev

/-- Run a machine operation. -/
def onMachine (x : MachineM K Unit) : FsmM K Unit := fun s =>
  match x.run s.data.machine with
  | .ok _ m => .ok () { s with data := { s.data with machine := m } }
  | .error e m => .error (.exception e) { s with data := { s.data with machine := m } }

/-- `send_metrics`; the outcome of the publication is an input. -/
def sendMetrics (ok : Bool) : FsmM K Unit := do
  if (← get).data.machine.agent.isSome && !ok then throw (.exception .publish)

def setStop (v : Bool) : FsmM K Unit :=
  modify fun s => { s with stopRequested := s.stopRequested || v }

variable [DataArith K]

def addTot (dt : K) : FsmM K Unit :=
  modify fun s => { s with data := { s.data with tTot := s.data.tTot + dt } }

def addBlk (dt : K) : FsmM K Unit :=
  modify fun s => { s with data := { s.data with tBlk := s.data.tBlk + dt } }

def clearBlk : FsmM K Unit :=
  modify fun s => { s with data := { s.data with tBlk := num 0 } }

/-! ## State functions -/

def doInit (env : Env K) : FsmM K State := do
  let s ← get
  match (Program.load s.data.machine s.data.programFile env.file false).run
      { Program.empty with filename := s.data.programFile } with
  | .error _ _ => pure .stop
  | .ok _ p =>
    setProgram p
    match p.desc with
    | .ok _ => pure .idle
    | .error _ => pure .stop

def doIdle (env : Env K) : FsmM K State := do
  if env.key = ' ' then pure .loadBlock
  else if env.key = 'r' ∨ env.key = 'R' then
    let p ← getProgram
    let s ← get
    -- whatever the load throws is caught and printed
    setProgram (state ((Program.load s.data.machine s.data.programFile env.file false).run p))
    pure .noChange
  else if env.key = 'z' ∨ env.key = 'Z' then pure .goToZero
  else if env.key = 'q' ∨ env.key = 'Q' then pure .stop
  else pure .noChange

def blockState (type : BlockType) : State :=
  if type = .noMotion then .noMotion
  else if type = .rapid then .rapidMotion
  else if type = .line ∨ type = .cwa ∨ type = .ccwa then .interpMotion
  else .idle

def doLoadBlock (env : Env K) : FsmM K State := do
  let p ← getProgram
  let p := p.loadNext
  setProgram p
  if p.done then pure .idle
  else
    let b ← currentBlock
    sendMetrics env.metrics
    addTot (← get).data.machine.tq
    pure (blockState b.type)

def doRapidMotion (env : Env K) : FsmM K State := do
  let b ← currentBlock
  onMachine (Machine.setSetpoint env.reply b.target)
  let m := (← get).data.machine
  let next := if m.isConnected env.connected then
      if lt m.error m.maxError then State.loadBlock else .noChange
    else .loadBlock
  addTot m.tq
  addBlk m.tq
  setStop env.sigint.inside
  if (← get).stopRequested then
    modify ({ · with stopRequested := false })
    pure .loadBlock
  else pure next

def doInterpMotion (env : Env K) : FsmM K State := do
  let b ← currentBlock
  let s ← get
  let tq := s.data.machine.tq
  let prev ← prevBlock b
  let (tgt, _) ← raise (b.interpolateAt s.data.machine prev s.data.tBlk)
  onMachine (Machine.setSetpoint env.reply tgt)
  addTot tq
  addBlk tq
  pure (if lt (b.profile.dt + tq / num 10) s.data.tBlk then .loadBlock else .noChange)

def doNoMotion : FsmM K State := do
  let b ← currentBlock
  raise b.desc
  addTot (← get).data.machine.tq
  pure .loadBlock

def doGoToZero (env : Env K) : FsmM K State := do
  let m := (← get).data.machine
  onMachine (Machine.setSetpoint env.reply m.zero)
  let m := (← get).data.machine
  pure (if lt m.error m.maxError then .idle else .noChange)

/-! ## Transition functions -/

/-- `reset`. -/
def resetRun : FsmM K Unit := do
  let p ← getProgram
  setProgram p.rewind
  modify fun s => { s with data := { s.data with tTot := num 0, tBlk := num 0 } }

def beginRapid (env : Env K) : FsmM K Unit := do
  clearBlk
  sendMetrics env.transitionMetrics

def endRapid (env : Env K) : FsmM K Unit := sendMetrics env.transitionMetrics

def beginInterp : FsmM K Unit := clearBlk

/-- The installed transition functions. -/
def transition (env : Env K) : State → State → FsmM K Unit
  | .idle, .loadBlock => resetRun
  | .loadBlock, .rapidMotion => beginRapid env
  | .rapidMotion, .loadBlock => endRapid env
  | .loadBlock, .interpMotion => beginInterp
  | _, _ => pure ()

/-! ## Dispatch -/

/-- A generated state wrapper: results that are not listed become NO_CHANGE, and
the states with an emergency transition check the flag. -/
def wrapper (state : State) (valid : List State) (emergency : Bool) (env : Env K)
    (f : FsmM K State) : FsmM K State := do
  let next ← f
  if next = .unimplemented then throw (.exception (.notImplemented state.name))
  else
    let next := if next ∈ valid then next else .noChange
    setStop env.sigint.after
    if emergency && (← get).stopRequested then pure .stop else pure next

/-- The installed state functions. -/
def stateFun (env : Env K) : State → FsmM K State
  | .init => wrapper .init [.idle, .stop] false env (doInit env)
  | .idle => wrapper .idle [.noChange, .idle, .loadBlock, .stop, .goToZero] true env (doIdle env)
  | .loadBlock =>
    wrapper .loadBlock [.noMotion, .rapidMotion, .interpMotion, .idle] false env (doLoadBlock env)
  | .rapidMotion =>
    wrapper .rapidMotion [.noChange, .rapidMotion, .loadBlock] true env (doRapidMotion env)
  | .interpMotion =>
    wrapper .interpMotion [.noChange, .interpMotion, .loadBlock] true env (doInterpMotion env)
  | .noMotion => wrapper .noMotion [.loadBlock] false env doNoMotion
  | .goToZero => wrapper .goToZero [.noChange, .goToZero, .idle] true env (doGoToZero env)
  | .stop => wrapper .stop [.noChange] false env (pure .noChange)
  | s => throw (.exception (.stateNotFound s.name))

/-- `eval_state`. -/
def evalState (env : Env K) : FsmM K Unit := do
  setStop env.sigint.before
  let s ← get
  let next ← stateFun env s.second
  let next := if next = .noChange then s.second else next
  modify ({ · with first := s.second, second := next })
  transition env s.second next

/-! ## Runs -/

omit [DataArith K] in
/-- `setup`. -/
def setup (state : State) (data : FsmData K) : Fsm K := ⟨state, state, data, false⟩

end Fsm

/-- One evaluation of a run. -/
structure Eval (K : Type) where
  before : Fsm K
  env : Env K
  after : Fsm K

variable {K : Type} [DataArith K]

/-- An evaluation of the loop in `run`, which ends on STOP. -/
def Evaluates (e : Eval K) (s t : Fsm K) : Prop :=
  e.before = s ∧ e.after = t ∧ s.second ≠ .stop ∧ (Fsm.evalState e.env).run s = .ok () t

/-- The evaluations of a run of the machine from `s` to `t`. -/
abbrev FsmRun (s : Fsm K) (es : List (Eval K)) (t : Fsm K) : Prop := Run Evaluates s es t

end Cncpp
