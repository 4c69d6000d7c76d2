import Cncpp.Access
import Cncpp.Reparsing

/-! Where the blocks of a run come from.  The parameters of the machine stay as they are,
so every block that the machine holds was parsed with them, also after a reload. -/

namespace Cncpp

open DataArith Lib Lib.ExceptState Fsm

variable {K : Type} [DataArith K]

namespace Block

/-- The block was parsed by a machine with the parameters of `m`; it may have been linked
to the next one since. -/
def ParsedBy (m : Machine K) (b : Block K) : Prop :=
  ∃ m' prev b0 c next, SameSetup m m' ∧ (parse m' prev).run b0 = .ok () c ∧ b = { c with next := next }

variable {m : Machine K} {b : Block K}

theorem ParsedBy.link (h : ParsedBy m b) (next : Option Addr) :
    ParsedBy m { b with next := next } := by
  obtain ⟨m', prev, b0, c, _, hs, hp, rfl⟩ := h
  exact ⟨m', prev, b0, c, next, hs, hp, rfl⟩

end Block

namespace Program

/-- The parsed blocks come from machines with the parameters of `m`, and only the last
block can be one that is not parsed. -/
structure Sourced (m : Machine K) (p : Program K) : Prop where
  parsed : ∀ b ∈ p.blocks, b.parsed = true → b.ParsedBy m
  front : ∀ b ∈ p.blocks.dropLast, b.parsed = true

variable {m m' : Machine K} {p : Program K}

theorem Sourced.congr (h : p.Sourced m) (hs : Block.SameSetup m m') : p.Sourced m' := by
  refine ⟨fun b hb hp => ?_, h.front⟩
  obtain ⟨m₁, prev, b0, c, next, hs₁, hrun⟩ := h.parsed b hb hp
  exact ⟨m₁, prev, b0, c, next, ⟨hs₁.zero.trans hs.zero.symm, hs₁.A.trans hs.A.symm,
    hs₁.tq.trans hs.tq.symm⟩, hrun⟩

/-- A new block behind a parsed one. -/
theorem Sourced.snoc {c : Block K} (h : p.Sourced m)
    (hpar : ∀ o ∈ p.blocks.getLast?, o.parsed = true) (hc : c.parsed = true → c.ParsedBy m) :
    ({ p with blocks := p.front ++ [c], fresh := p.fresh + 1 } : Program K).Sourced m := by
  have hfront : ∀ b ∈ p.front, b.parsed = true ∧ (b.parsed = true → b.ParsedBy m) := by
    intro b hb
    simp only [Program.front, linked, List.mem_append, Option.mem_toList,
      Option.map_eq_some_iff] at hb
    rcases hb with hb | ⟨o, ho, rfl⟩
    · exact ⟨h.front b hb, h.parsed b (List.mem_of_mem_dropLast hb)⟩
    · exact ⟨hpar o ho, fun hp => (h.parsed o (List.mem_of_getLast? ho) hp).link _⟩
  constructor
  · intro b hb hp
    rcases List.mem_append.mp hb with hb | hb
    · exact (hfront b hb).2 hp
    · rw [List.mem_singleton] at hb
      subst hb
      exact hc hp
  · intro b hb
    rw [List.dropLast_concat] at hb
    exact (hfront b hb).1

theorem sourced_state_append (hm : Block.SameSetup m m') (line : Line) (h : p.Sourced m) :
    (state ((append m' line).run p)).Sourced m := by
  rcases state_append m' line p with hs | ⟨c, hc, hs⟩
  · rw [hs]
    exact h
  · rw [hs]
    exact h.snoc hc.last fun hp => ⟨m', p.linked, _, c, c.next, hm, hc.parsed hp, rfl⟩

theorem sourced_load (hm : Block.SameSetup m m') {file : String} {content : Option (List Line)}
    (h : p.Sourced m) : (state ((load m' file content false).run p)).Sourced m := by
  cases content with
  | none => exact ⟨h.parsed, h.front⟩
  | some lines =>
    have hnil : (reset { p with filename := file }).Sourced m :=
      ⟨fun _ hb => (nomatch hb), fun _ hb => nomatch hb⟩
    exact state_lines (·.Sourced m) (fun line q hq => sourced_state_append hm line hq) lines hnil

end Program

namespace Fsm

/-! ## The parameters -/

/-- The parameters of the machine that blocks read. -/
def params (s : Fsm K) : Point K × K × K :=
  (s.data.machine.zero, s.data.machine.A, s.data.machine.tq)

omit [DataArith K] in
theorem sameSetup_of_params {m : Machine K} {s : Fsm K} (h : s.params = (m.zero, m.A, m.tq)) :
    Block.SameSetup m s.data.machine := by
  simp only [params, Prod.mk.injEq] at h
  exact ⟨h.1, h.2.1, h.2.2⟩

section Keeps

variable {env : Env K}

omit [DataArith K] in
theorem keeps_getProgram : Keeps params (getProgram (K := K)) := by
  refine .bind .get fun s => ?_
  split
  · exact .pure _
  · exact .throw _

omit [DataArith K] in
theorem keeps_currentBlock : Keeps params (currentBlock (K := K)) := by
  refine .bind keeps_getProgram fun p => ?_
  split
  · exact .pure _
  · exact .throw _

omit [DataArith K] in
theorem keeps_prevBlock (b : Block K) : Keeps params (prevBlock b) := by
  unfold prevBlock
  split
  · exact .pure _
  · refine .bind keeps_getProgram fun p => ?_
    split
    · exact .pure _
    · exact .throw _

omit [DataArith K] in
theorem keeps_sendMetrics (ok : Bool) : Keeps params (sendMetrics (K := K) ok) := by
  refine .bind .get fun s => ?_
  split
  · exact .throw _
  · exact .pure _

theorem sync_A (reply : Reply K) (m : Machine K) : (m.sync reply).A = m.A := by
  unfold Machine.sync Machine.exchange Machine.clearCommand
  split
  · cases reply <;> rfl
  · rfl

theorem keeps_command (reply : Reply K) (p : Point K) :
    Keeps params (onMachine (Machine.setSetpoint reply p)) := by
  intro s
  have hm : Keeps (fun m : Machine K => (m.zero, m.A, m.tq)) (Machine.setSetpoint reply p) := by
    refine .bind (.modify fun _ => rfl) fun _ => .bind .get fun m => ?_
    split
    · refine .bind (.ofExcept _) fun x => .bind (.ofExcept _) fun y => .bind (.ofExcept _) fun z =>
        .bind (.modify fun _ => rfl) fun _ => .modify fun m => ?_
      simp only [Machine.sync_zero, Machine.sync_tq, sync_A]
    · exact .pure _
  rw [run_onMachine]
  split
  · next h => exact hm.ok h
  · next h => exact hm.error h

theorem keeps_init : Keeps params (doInit env) := by
  refine .bind .get fun s => ?_
  split
  · exact .pure _
  · refine .bind (.modify fun _ => rfl) fun _ => ?_
    split
    · exact .pure _
    · exact .pure _

theorem keeps_idle : Keeps params (doIdle env) := by
  unfold doIdle
  split
  · exact .pure _
  split
  · exact .bind keeps_getProgram fun _ => .bind .get fun _ => .bind (.modify fun _ => rfl) fun _ =>
      .pure _
  split
  · exact .pure _
  split
  · exact .pure _
  · exact .pure _

theorem keeps_loadBlock : Keeps params (doLoadBlock env) := by
  refine .bind keeps_getProgram fun p => .bind (.modify fun _ => rfl) fun _ => ?_
  split
  · exact .pure _
  · exact .bind keeps_currentBlock fun _ => .bind (keeps_sendMetrics _) fun _ => .bind .get fun _ =>
      .bind (.modify fun _ => rfl) fun _ => .pure _

theorem keeps_rapidMotion : Keeps params (doRapidMotion env) := by
  refine .bind keeps_currentBlock fun b => .bind (keeps_command _ _) fun _ => .bind .get fun _ =>
    .bind (.modify fun _ => rfl) fun _ => .bind (.modify fun _ => rfl) fun _ =>
    .bind (.modify fun _ => rfl) fun _ => .bind .get fun _ => ?_
  split
  · exact .bind (.modify fun _ => rfl) fun _ => .pure _
  · exact .pure _

theorem keeps_interpMotion : Keeps params (doInterpMotion env) :=
  .bind keeps_currentBlock fun b => .bind .get fun _ => .bind (keeps_prevBlock b) fun _ =>
    .bind (.ofExcept _) fun _ => .bind (keeps_command _ _) fun _ =>
    .bind (.modify fun _ => rfl) fun _ => .bind (.modify fun _ => rfl) fun _ => .pure _

theorem keeps_noMotion : Keeps params (doNoMotion (K := K)) :=
  .bind keeps_currentBlock fun _ => .bind (.ofExcept _) fun _ => .bind .get fun _ =>
    .bind (.modify fun _ => rfl) fun _ => .pure _

theorem keeps_goToZero : Keeps params (doGoToZero env) :=
  .bind .get fun _ => .bind (keeps_command _ _) fun _ => .bind .get fun _ => .pure _

omit [DataArith K] in
theorem keeps_wrapper {st : State} {valid : List State} {emergency : Bool} {f : FsmM K State}
    (hf : Keeps params f) : Keeps params (wrapper st valid emergency env f) := by
  refine .bind hf fun n => ?_
  split
  · exact .throw _
  · refine .bind (.modify fun _ => rfl) fun _ => .bind .get fun _ => ?_
    split
    · exact .pure _
    · exact .pure _

theorem keeps_stateFun (st : State) : Keeps params (stateFun env st) := by
  cases st with
  | init => exact keeps_wrapper keeps_init
  | idle => exact keeps_wrapper keeps_idle
  | loadBlock => exact keeps_wrapper keeps_loadBlock
  | rapidMotion => exact keeps_wrapper keeps_rapidMotion
  | interpMotion => exact keeps_wrapper keeps_interpMotion
  | noMotion => exact keeps_wrapper keeps_noMotion
  | goToZero => exact keeps_wrapper keeps_goToZero
  | stop => exact keeps_wrapper (.pure _)
  | numStates | noChange | unimplemented => exact .throw _

theorem keeps_transition (a b : State) : Keeps params (transition env a b) := by
  unfold transition
  split
  · exact .bind keeps_getProgram fun _ => .bind (.modify fun _ => rfl) fun _ => .modify fun _ => rfl
  · exact .bind (.modify fun _ => rfl) fun _ => keeps_sendMetrics _
  · exact keeps_sendMetrics _
  · exact .modify fun _ => rfl
  · exact .pure _

/-- No evaluation changes the parameters, whether it returns or throws. -/
theorem keeps_eval : Keeps params (evalState env) :=
  .bind (.modify fun _ => rfl) fun _ => .bind .get fun _ => .bind (keeps_stateFun _) fun _ =>
    .bind (.modify fun _ => rfl) fun _ => keeps_transition _ _

end Keeps

/-! ## The blocks of a run -/

variable {d : FsmData K} {es : List (Eval K)} {t : Fsm K}

theorem sameSetup_of_run (hr : FsmRun (setup .init d) es t) :
    Block.SameSetup d.machine t.data.machine := by
  refine sameSetup_of_params ?_
  refine hr.invariant (fun u => u.params = (d.machine.zero, d.machine.A, d.machine.tq)) ?_ rfl
  rintro e u v hu ⟨rfl, rfl, -, he⟩
  exact (keeps_eval.ok he).trans hu

theorem upheld_sourced (m : Machine K) : Upheld (Block.SameSetup m) (Program.Sourced m) where
  empty _ := ⟨fun _ hb => (nomatch hb), fun _ hb => nomatch hb⟩
  load _ _ _ _ hM h := Program.sourced_load hM h
  rewind _ h := ⟨h.parsed, h.front⟩
  next _ h := ⟨h.parsed, h.front⟩

theorem sourced_run (hr : FsmRun (setup .init d) es t) :
    Holds (Program.Sourced d.machine) t := by
  refine (upheld_sourced d.machine).run hr fun e he => ?_
  obtain ⟨pre, post, rfl⟩ := List.append_of_mem he
  obtain ⟨u, hpre, hrest⟩ := hr.append_split
  cases hrest with
  | cons hstep _ => exact hstep.1 ▸ sameSetup_of_run hpre

end Fsm

end Cncpp
