import Cncpp.Point

/-! The machine: its parameters, the quantiser of the control period, and the
exchange of a setpoint for a position with the simulator behind a MADS agent.
What the agent does is an input of the model. -/

namespace Cncpp

open DataArith Lib.ExceptState

/-- JSON values: configurations, and messages from the simulator.  The accessors below are those of
nlohmann::json, whose documented behaviour is assumed; an object has each key once. -/
inductive Json (K : Type) where
  | null
  | boolean (b : Bool)
  | number (v : K)
  | string (s : String)
  | array (a : List (Json K))
  | object (o : List (String × Json K))

namespace Json

variable {K : Type}

/-- `j[key]` on a mutable document: a missing member is created as null, also in a document that is
null, and anything that is neither null nor an object throws. -/
def field (key : String) : Json K → Option (Json K)
  | null => some null
  | object o => some ((o.lookup key).getD null)
  | _ => none

/-- `j.at(i)`, which throws behind the end of an array and on anything else. -/
def elem (i : ℕ) : Json K → Option (Json K)
  | array a => a[i]?
  | _ => none

/-- `j.get<data_t>()`, which converts every number to a double and throws on anything else, a
boolean included. -/
def getNumber : Json K → Option K
  | number v => some v
  | _ => none

end Json

/-- The message for the simulator driver. -/
structure Command (K : Type) where
  fmuInput : Option (K × K × K)
  fmuReset : Bool

/-- A MADS agent, with the commands handed to it for publishing, oldest first. -/
structure Agent (K : Type) where
  published : List (Command K)

/-- How one exchange with the broker ends. -/
inductive Reply (K : Type) where
  | publishFails
  | receiveFails
  | notJson
  | message (j : Json K)

structure Machine (K : Type) where
  /-- The configuration that was loaded last, as it is. -/
  data : Json K
  zero : Point K
  /-- Every operation that sets the reference point sets its three coordinates. -/
  zero_complete : zero.isComplete = true
  offset : Point K
  offset_complete : offset.isComplete = true
  tq : K
  tqMax : K
  A : K
  fmax : K
  maxError : K
  setpoint : Point K
  position : Point K
  error : K
  agent : Option (Agent K)
  command : Command K

/-- Machine operations keep their effects when they throw. -/
abbrev MachineM (K : Type) := EStateM (Exn K) (Machine K)

namespace Machine

variable {K : Type} [DataArith K]

/-- The default-constructed machine. -/
def default : Machine K where
  data := .null
  zero := .ofCoords (num 0) (num 0) (num 0)
  zero_complete := rfl
  offset := .ofCoords (num 0) (num 0) (num 0)
  offset_complete := rfl
  tq := num (1 / 1000)
  tqMax := num (1 / 100)
  A := num 5
  fmax := num 10000
  maxError := num (5 / 1000)
  setpoint := {}
  position := {}
  error := quietNaN
  agent := none
  command := ⟨none, false⟩

/-- The next tick after `t`, and its distance from `t`. -/
def quantize (m : Machine K) (t : K) : K × K :=
  let q := ofNat (toSize (t / m.tq + num 1)) * m.tq
  (q, q - t)

omit [DataArith K] in
/-- `_agent && _agent->is_connected()`; the state of the connection is an input. -/
def isConnected (m : Machine K) (connected : Bool) : Bool := m.agent.isSome && connected

omit [DataArith K] in
def clearCommand (m : Machine K) : Machine K := { m with command := ⟨none, false⟩ }

omit [DataArith K] in
/-- `state["output"]["position"].at(i).get<data_t>()`. -/
def coordinate (state : Json K) (i : ℕ) : Option K :=
  ((state.field "output").bind (·.field "position")).bind (·.elem i) |>.bind (·.getNumber)

omit [DataArith K] in
/-- The coordinates are stored one by one, up to the first that cannot be read. -/
def readPosition (state : Json K) (p : Point K) : Point K :=
  match coordinate state 0 with
  | none => p
  | some x =>
    match coordinate state 1 with
    | none => { p with x := some x }
    | some y =>
      match coordinate state 2 with
      | none => { p with x := some x, y := some y }
      | some z => ⟨some x, some y, some z⟩

omit [DataArith K] in
/-- The outer `try` of `sync`: publish, receive, parse, and read the position. -/
def exchange (reply : Reply K) (m : Machine K) : Machine K :=
  let m := { m with agent := m.agent.map fun a => ⟨a.published ++ [m.command]⟩ }
  match reply with
  | .message j => { m with position := readPosition j m.position }
  | _ => m

/-- The distance from the setpoint to the position, not-a-number when either is
incomplete. -/
def positioningError (m : Machine K) : K :=
  match m.setpoint.delta m.position with
  | .ok d => match d.length with
    | .ok l => l
    | .error _ => quietNaN
  | .error _ => quietNaN

def sync (reply : Reply K) (m : Machine K) : Machine K :=
  if m.agent.isSome then
    let m := exchange reply m
    clearCommand { m with error := positioningError m }
  else m

def setSetpoint (reply : Reply K) (p : Point K) : MachineM K Unit := do
  modify ({ · with setpoint := p })
  if (← get).agent.isSome then
    let x ← ofExcept p.getX
    let y ← ofExcept p.getY
    let z ← ofExcept p.getZ
    modify fun m => { m with command := { m.command with fmuInput := some (x, y, z) } }
    modify (sync reply)

def reset (reply : Reply K) : MachineM K Unit := do
  if (← get).agent.isSome then
    modify fun m => { m with command := { m.command with fmuReset := true } }
    modify (sync reply)

/-- The only parameters that `Block` reads of a machine that is not moving are
untouched by an exchange. -/
@[simp] theorem sync_tq (reply : Reply K) (m : Machine K) : (m.sync reply).tq = m.tq := by
  unfold sync exchange clearCommand
  split
  · cases reply <;> rfl
  · rfl

@[simp] theorem sync_setpoint (reply : Reply K) (m : Machine K) :
    (m.sync reply).setpoint = m.setpoint := by
  unfold sync exchange clearCommand
  split
  · cases reply <;> rfl
  · rfl

@[simp] theorem sync_zero (reply : Reply K) (m : Machine K) : (m.sync reply).zero = m.zero := by
  unfold sync exchange clearCommand
  split
  · cases reply <;> rfl
  · rfl

end Machine

end Cncpp
