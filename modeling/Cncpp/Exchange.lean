import Cncpp.Configuration

/-! The exchange of commands for positions with the simulator: what is stored of a message
that cannot be read to its end, and what the agent is given to publish. -/

namespace Cncpp

open DataArith Lib Lib.ExceptState

namespace Machine

variable {K : Type} [DataArith K]

/-! ## Positions -/

section Receive

variable {m : Machine K} {reply : Reply K} {j : Json K} {p : Point K}

theorem sync_position (ha : m.agent.isSome = true) (reply : Reply K) :
    (m.sync reply).position = match reply with
      | .message j => readPosition j m.position
      | _ => m.position := by
  rw [sync, if_pos ha]
  cases reply <;> rfl

/-- The error is that of the position that was stored. -/
theorem sync_error (ha : m.agent.isSome = true) (reply : Reply K) :
    (m.sync reply).error = positioningError (m.sync reply) := by
  rw [sync, if_pos ha]
  cases reply <;> rfl

theorem positioningError_complete {x y z u v w : K} (hs : m.setpoint = .ofCoords x y z)
    (hp : m.position = .ofCoords u v w) :
    positioningError m = hypot3 (x - u) (y - v) (z - w) := by
  rw [positioningError, hs, hp]
  rfl

theorem positioningError_incomplete
    (h : (m.setpoint.isComplete && m.position.isComplete) = false) :
    positioningError m = quietNaN := by
  obtain ⟨e, he⟩ : ∃ e, m.setpoint.delta m.position = .error e := by
    cases hd : m.setpoint.delta m.position with
    | error e => exact ⟨e, rfl⟩
    | ok d =>
      simp only [Point.delta] at hd
      split at hd
      · next hs hp =>
        rw [hs, hp] at h
        cases h
      · cases hd
  rw [positioningError, he]

/-- What is read of the message, up to the first coordinate that cannot be read, is already
stored, or it is the whole position. -/
def Untorn (state : Json K) (p : Point K) : Prop :=
  match coordinate state 0, coordinate state 1, coordinate state 2 with
  | none, _, _ => True
  | some x, none, _ => p.x = some x
  | some x, some y, none => p.x = some x ∧ p.y = some y
  | some _, some _, some _ => True

omit [DataArith K] in
theorem untorn_iff : Untorn j p ↔ readPosition j p = p ∨ ∃ x y z, coordinate j 0 = some x ∧
    coordinate j 1 = some y ∧ coordinate j 2 = some z ∧ readPosition j p = .ofCoords x y z := by
  obtain ⟨px, py, pz⟩ := p
  cases h0 : coordinate j 0 with
  | none => simp [Untorn, readPosition, h0]
  | some x =>
    cases h1 : coordinate j 1 with
    | none => simp [Untorn, readPosition, h0, h1, eq_comm]
    | some y =>
      cases h2 : coordinate j 2 with
      | none => simp [Untorn, readPosition, h0, h1, h2, eq_comm]
      | some z => simp [Untorn, readPosition, h0, h1, h2, Point.ofCoords]

/-- After an exchange the position is that of the message or the old one, and the error is
its distance from the setpoint. -/
structure Received (m : Machine K) (reply : Reply K) : Prop where
  position : (m.sync reply).position = m.position ∨ ∃ j x y z, reply = .message j ∧
    coordinate j 0 = some x ∧ coordinate j 1 = some y ∧ coordinate j 2 = some z ∧
    (m.sync reply).position = .ofCoords x y z
  distance : ∀ x y z u v w, m.setpoint = .ofCoords x y z →
    (m.sync reply).position = .ofCoords u v w →
    (m.sync reply).error = hypot3 (x - u) (y - v) (z - w)
  incomplete : (m.setpoint.isComplete && (m.sync reply).position.isComplete) = false →
    (m.sync reply).error = quietNaN

/-- The position is torn exactly by the messages with a readable coordinate that differs from
the stored one, in front of one that cannot be read. -/
theorem received_iff (ha : m.agent.isSome = true) :
    Received m reply ↔ ∀ j, reply = .message j → Untorn j m.position := by
  have hpos := sync_position ha reply
  constructor
  · rintro ⟨h, -, -⟩ j rfl
    rw [hpos] at h
    refine untorn_iff.mpr (h.imp_right ?_)
    rintro ⟨_, x, y, z, ⟨⟩, hx, hy, hz, hxyz⟩
    exact ⟨x, y, z, hx, hy, hz, hxyz⟩
  · intro h
    refine ⟨?_, fun x y z u v w hs hp => ?_, fun hinc => ?_⟩
    · cases reply with
      | message j =>
        rw [hpos]
        refine (untorn_iff.mp (h j rfl)).imp_right ?_
        rintro ⟨x, y, z, hx, hy, hz, hxyz⟩
        exact ⟨j, x, y, z, rfl, hx, hy, hz, hxyz⟩
      | _ => exact .inl hpos
    · rw [sync_error ha]
      exact positioningError_complete ((sync_setpoint reply m).trans hs) hp
    · rw [sync_error ha]
      refine positioningError_incomplete ?_
      rw [sync_setpoint]
      exact hinc

end Receive

/-- A message with the position `1, y, 3`. -/
noncomputable def positionMessage (y : Json XReal) : Json XReal :=
  .object [("output", .object [("position", .array [.number (.fin 1), y, .number (.fin 3)])])]

/-- A machine at the origin, with an agent. -/
noncomputable def listening : Machine XReal :=
  { (default : Machine XReal) with
    agent := some ⟨[]⟩
    position := .ofCoords (.fin 0) (.fin 0) (.fin 0) }

/-- The second coordinate is not a number, and the first one is stored. -/
theorem received_torn : ¬ Received listening (.message (positionMessage (.string "a"))) ∧
    (listening.sync (.message (positionMessage (.string "a")))).position =
      .ofCoords (.fin 1) (.fin 0) (.fin 0) := by
  have hpos : (listening.sync (.message (positionMessage (.string "a")))).position =
      .ofCoords (.fin 1) (.fin 0) (.fin 0) := rfl
  have hone : (XReal.fin 1) ≠ .fin 0 := fun h => one_ne_zero (XReal.fin.inj h)
  refine ⟨fun h => ?_, hpos⟩
  rcases h.position with hp | ⟨j, x, y, z, hj, -, hy, -, -⟩
  · rw [hpos] at hp
    exact hone (Option.some.inj (congrArg Point.x hp))
  · cases hj
    cases hy

theorem received_iff_sample : Received listening (.message (positionMessage (.number (.fin 2)))) :=
  (received_iff rfl).mpr fun j hj => by
    cases hj
    trivial

/-! ## Commands -/

section Connect

/-- `connect`.  What the broker answers when it is asked for the settings, and whether the
connection is opened, are inputs. -/
def connect (settings : Except (Exn K) (Json K)) (opened : Except (Exn K) Unit) :
    MachineM K Unit := do
  modify ({ · with agent := some ⟨[]⟩ })
  let j ← ofExcept settings
  loadJson j
  ofExcept opened
  modify clearCommand

/-- The machine has just been connected. -/
def Connected (m : Machine K) : Prop :=
  ∃ m₀ settings opened, (connect settings opened).run m₀ = .ok () m

end Connect

/-- The calls that hand a command to the agent, with the ends of their exchanges. -/
inductive Call (K : Type) where
  | setSetpoint (reply : Reply K) (p : Point K)
  | reset (reply : Reply K)
  | sync (reply : Reply K)

namespace Call

def run : Call K → MachineM K Unit
  | setSetpoint reply p => Machine.setSetpoint reply p
  | reset reply => Machine.reset reply
  | sync reply => modify (Machine.sync reply)

omit [DataArith K] in
/-- The command that a call is to hand over.  There is none where a coordinate is missing. -/
def command : Call K → Option (Command K)
  | setSetpoint _ ⟨some x, some y, some z⟩ => some ⟨some (x, y, z), false⟩
  | setSetpoint _ _ => none
  | reset _ => some ⟨none, true⟩
  | sync _ => some ⟨none, false⟩

omit [DataArith K] in
theorem command_incomplete {reply : Reply K} {p : Point K} (hp : p.isComplete = false) :
    (setSetpoint reply p).command = none := by
  obtain ⟨x, y, z⟩ := p
  cases x <;> cases y <;> cases z <;> first | rfl | cases hp

/-- A call, whether it returns or throws. -/
def Step (c : Call K) (m m' : Machine K) : Prop := m' = state (c.run.run m)

end Call

section Commands

variable {m m' : Machine K}

/-- The agent has been given the commands `sent`, and no command is pending. -/
structure Idle (sent : List (Command K)) (m : Machine K) : Prop where
  agent : m.agent = some ⟨sent⟩
  command : m.command = ⟨none, false⟩

omit [DataArith K] in
theorem Connected.idle (h : Connected m) : Idle [] m := by
  obtain ⟨m₀, settings, opened, h⟩ := h
  simp only [connect, bind_eq_ok] at h
  obtain ⟨_, m₁, hagent, j, m₂, hj, _, m₃, hload, _, m₄, hopen, hclear⟩ := h
  cases hagent
  cases hclear
  obtain ⟨-, rfl⟩ := ofExcept_eq_ok.mp hj
  obtain ⟨-, rfl⟩ := ofExcept_eq_ok.mp hopen
  obtain ⟨_, m₅, hdata, hstore⟩ := bind_eq_ok.mp hload
  cases hdata
  exact ⟨(storeAll_eq_ok hstore).2.2, rfl⟩

/-- An exchange hands over the pending command, however it ends. -/
theorem sync_idle {sent : List (Command K)} (ha : m.agent = some ⟨sent⟩) (reply : Reply K) :
    Idle (sent ++ [m.command]) (m.sync reply) := by
  have hsome : m.agent.isSome = true := by rw [ha]; rfl
  have hagent : (exchange reply m).agent = some ⟨sent ++ [m.command]⟩ := by
    cases reply <;> simp [exchange, ha]
  rw [sync, if_pos hsome]
  exact ⟨hagent, rfl⟩

theorem run_reset (ha : m.agent.isSome = true) (reply : Reply K) : (reset reply).run m =
    .ok () (sync reply { m with command := { m.command with fmuReset := true } }) := by
  simp [reset, EStateM.run_bind, ha]

theorem run_setSetpoint (ha : m.agent.isSome = true) (reply : Reply K) (x y z : K) :
    (setSetpoint reply (.ofCoords x y z)).run m = .ok () (sync reply { m with
      setpoint := .ofCoords x y z
      command := { m.command with fmuInput := some (x, y, z) } }) := by
  simp [setSetpoint, EStateM.run_bind, ha]

/-- A missing coordinate throws before anything is handed over. -/
theorem run_setSetpoint_incomplete (ha : m.agent.isSome = true) (reply : Reply K) {p : Point K}
    (hp : p.isComplete = false) :
    ∃ e, (setSetpoint reply p).run m = .error e { m with setpoint := p } := by
  obtain ⟨x, y, z⟩ := p
  cases x <;> cases y <;> cases z <;> cases hp <;>
    exact ⟨_, by simp [setSetpoint, EStateM.run_bind, ha, Point.getX, Point.getY, Point.getZ,
      Point.value]; rfl⟩

/-- What a call hands over, and that it leaves no command behind. -/
theorem idle_step {sent : List (Command K)} {c : Call K} (h : Idle sent m) (hc : c.Step m m') :
    Idle (sent ++ c.command.toList) m' := by
  obtain ⟨ha, hcmd⟩ := h
  have hsome : m.agent.isSome = true := by rw [ha]; rfl
  subst hc
  cases c with
  | sync reply =>
    have hs := sync_idle ha reply
    rw [hcmd] at hs
    exact hs
  | reset reply =>
    have hs := sync_idle (m := { m with command := { m.command with fmuReset := true } }) ha reply
    have hpend : { m.command with fmuReset := true } = (⟨none, true⟩ : Command K) := by rw [hcmd]
    rw [Call.run, run_reset hsome, hpend]
    rw [hpend] at hs
    exact hs
  | setSetpoint reply p =>
    by_cases hp : p.isComplete = true
    · obtain ⟨x, y, z, rfl⟩ := (Point.isComplete_iff p).mp hp
      have hs := sync_idle (m := { m with
        setpoint := .ofCoords x y z
        command := { m.command with fmuInput := some (x, y, z) } }) ha reply
      have hpend : { m.command with fmuInput := some (x, y, z) } =
          (⟨some (x, y, z), false⟩ : Command K) := by rw [hcmd]
      rw [Call.run, run_setSetpoint hsome, hpend]
      rw [hpend] at hs
      exact hs
    · rw [Bool.not_eq_true] at hp
      obtain ⟨e, he⟩ := run_setSetpoint_incomplete hsome reply hp
      rw [Call.run, he, Call.command_incomplete hp, Option.toList_none, List.append_nil]
      exact ⟨ha, hcmd⟩

theorem idle_run {sent : List (Command K)} {cs : List (Call K)} (hr : Run Call.Step m cs m')
    (h : Idle sent m) : Idle (sent ++ cs.filterMap Call.command) m' := by
  induction hr generalizing sent with
  | nil s => rwa [List.filterMap_nil, List.append_nil]
  | @cons c s t u cs hs _ ih =>
    have ht := ih (idle_step h hs)
    have hcons : (c :: cs).filterMap Call.command =
        c.command.toList ++ cs.filterMap Call.command := by
      cases hc : c.command with
      | none => rw [List.filterMap_cons_none hc, Option.toList_none, List.nil_append]
      | some v => rw [List.filterMap_cons_some hc]; rfl
    rw [hcons, ← List.append_assoc]
    exact ht

/-- No stale command is sent.  Whatever is called on a connected machine, and however the
exchanges end, the agent is given the commands of the calls and no other, and afterwards none
is pending. -/
theorem no_stale_command {cs : List (Call K)} (h : Connected m) (hr : Run Call.Step m cs m') :
    m'.agent = some ⟨cs.filterMap Call.command⟩ ∧ m'.command = ⟨none, false⟩ := by
  obtain ⟨hagent, hcmd⟩ := idle_run hr h.idle
  exact ⟨hagent, hcmd⟩

end Commands

/-- Every end of an exchange, and a setpoint with a missing coordinate. -/
noncomputable def sampleCalls : List (Call XReal) :=
  [.reset .publishFails, .setSetpoint .receiveFails (.ofCoords quietNaN infinity quietNaN),
    .setSetpoint .notJson ⟨some infinity, none, none⟩, .sync (.message .null)]

theorem no_stale_command_sample : ∃ m m' : Machine XReal, Connected m ∧
    Run Call.Step m sampleCalls m' ∧
    m'.agent = some ⟨sampleCalls.filterMap Call.command⟩ ∧ m'.command = ⟨none, false⟩ := by
  have hm : ∃ m, (connect (.ok .null) (.ok ())).run (default : Machine XReal) = .ok () m := ⟨_, rfl⟩
  obtain ⟨m, hm⟩ := hm
  have hc : Connected m := ⟨_, _, _, hm⟩
  have hr : ∃ m', Run Call.Step m sampleCalls m' :=
    ⟨_, .cons rfl (.cons rfl (.cons rfl (.cons rfl (.nil _))))⟩
  obtain ⟨m', hr⟩ := hr
  exact ⟨m, m', hc, hr, no_stale_command hc hr⟩

end Machine

end Cncpp
