import Cncpp.Protocol

/-! The machine in a closed loop with a simulator that answers each command with a position: the
run that SPACE starts comes to its end, and carries out the program. -/

namespace Cncpp

open DataArith Lib Lib.ExceptState Fsm

noncomputable section

open XReal

/-! ## The machine together with a simulator -/

/-- A simulator: a command moves it, and it reports where the tool is. -/
structure Simulator (σ : Type) where
  step : σ → XReal × XReal × XReal → σ
  position : σ → XReal × XReal × XReal

/-- The message with a position. -/
def report (c : XReal × XReal × XReal) : Json XReal :=
  .object [("output", .object [("position", .array [.number c.1, .number c.2.1, .number c.2.2])])]

/-- The simulator reports the tool nearer than `ε` to a point. -/
def Simulator.Near {σ : Type} (S : Simulator σ) (ε : XReal) (x y z : ℝ) (a : σ) : Prop :=
  DataArith.lt (DataArith.hypot3 (.fin x - (S.position a).1) (.fin y - (S.position a).2.1)
    (.fin z - (S.position a).2.2)) ε = true

/-- Whatever point is commanded, and however the simulator stands, it gets near to it, if the
command is repeated often enough. -/
def Simulator.Settles {σ : Type} (S : Simulator σ) (ε : XReal) : Prop :=
  ∀ (x y z : ℝ) (a : σ), ∃ n, S.Near ε x y z ((S.step · (.fin x, .fin y, .fin z))^[n + 1] a)

/-- An evaluation of the machine in which the simulator answers the command, if there is one. -/
inductive Coupled {σ : Type} (S : Simulator σ) (e : Eval XReal) :
    Fsm XReal × σ → Fsm XReal × σ → Prop
  | answered {s t : Fsm XReal} {a : σ} (c : XReal × XReal × XReal) : Evaluates e s t →
      Quiet e.env → e.env.connected = true → commandOf e = some (pointOf c) →
      e.env.reply = .message (report (S.position (S.step a c))) → Coupled S e (s, a) (t, S.step a c)
  | silent {s t : Fsm XReal} {a : σ} : Evaluates e s t → Quiet e.env → commandOf e = none →
      Coupled S e (s, a) (t, a)

section Loop

variable {σ : Type} {S : Simulator σ} {a : σ} {env : Env XReal} {s t : Fsm XReal} {e : Eval XReal}
  {m m' : Machine XReal} {p q : Program XReal} {b : Block XReal} {P : Point XReal} {n : ℕ} {tq : ℝ}

/-- The environment in which the simulator answers the command `c`. -/
def answer (S : Simulator σ) (a : σ) (c : XReal × XReal × XReal) : Env XReal :=
  { connected := true, reply := .message (report (S.position (S.step a c))) }

theorem sync_maxError (reply : Reply XReal) (m : Machine XReal) :
    (m.sync reply).maxError = m.maxError := by
  unfold Machine.sync Machine.exchange Machine.clearCommand
  split
  · cases reply <;> rfl
  · rfl

theorem Commands.maxError (h : Commands env P m m') (ha : m.agent.isSome = true) :
    m'.maxError = m.maxError := by
  obtain ⟨x, y, z, rfl⟩ := (Point.isComplete_iff P).mp (h.complete ha)
  injection h.symm.trans (Machine.run_setSetpoint ha env.reply x y z) with _ hm'
  rw [hm', sync_maxError]

/-- The position that is reported is stored. -/
theorem Commands.position {c : XReal × XReal × XReal} (h : Commands env P m m')
    (ha : m.agent.isSome = true) (hr : env.reply = .message (report c)) :
    m'.position = pointOf c := by
  obtain ⟨x, y, z, rfl⟩ := (Point.isComplete_iff P).mp (h.complete ha)
  injection h.symm.trans (Machine.run_setSetpoint ha env.reply x y z) with _ hm'
  rw [hm', hr]
  exact Machine.sync_position (by exact ha) (.message (report c))

/-- A machine with an agent, and with the parameters of `m`. -/
structure Joined (m : Machine XReal) (s : Fsm XReal) : Prop extends Online s where
  zero : s.data.machine.zero = m.zero
  tick : s.data.machine.tq = m.tq
  maxError : s.data.machine.maxError = m.maxError

theorem Joined.eval (h : Joined m s) (he : Evaluates e s t) (hq : Quiet e.env) : Joined m t := by
  obtain ⟨hz, htq⟩ := params_of_eval he
  obtain ⟨rfl, rfl, hne, hrun⟩ := he
  have hflag := flag_of_quiet hq h.flag hne hrun
  rcases machine_of_eval hrun with ⟨-, P, hP⟩ | ⟨-, hm⟩
  · exact ⟨⟨hP.agent h.agent, hflag⟩, hz.trans h.zero, htq.trans h.tick,
      (hP.maxError h.agent).trans h.maxError⟩
  · exact ⟨⟨hm ▸ h.agent, hflag⟩, hz.trans h.zero, htq.trans h.tick, hm ▸ h.maxError⟩

/-- The machine carries out the block under the cursor of `q` until it is left for LOAD_BLOCK. -/
structure Leaves (S : Simulator σ) (m : Machine XReal) (q : Program XReal) (st : State)
    (s : Fsm XReal) (a : σ) (es : List (Eval XReal)) (t : Fsm XReal) (a' : σ) : Prop where
  run : Run (Coupled S) (s, a) es (t, a')
  inside : ∀ e ∈ es, e.before.second = st
  calm : Calm .loadBlock t
  linked : Joined m t
  program : t.data.program = some q

theorem Leaves.cons {st : State} {u : Fsm XReal} {c a' : σ} {es : List (Eval XReal)}
    (he : Coupled S e (s, a) (u, c)) (hst : e.before.second = st)
    (h : Leaves S m q st u c es t a') : Leaves S m q st s a (e :: es) t a' where
  run := .cons he h.run
  inside := List.forall_mem_cons.mpr ⟨hst, h.inside⟩
  calm := h.calm
  linked := h.linked
  program := h.program

/-- One evaluation of a rapid motion, which is the last one if the tool is near. -/
theorem rapid_step {x y z : ℝ} (hl : Joined m s) (hs : Calm .rapidMotion s)
    (hp : s.data.program = some q) (hb : q.deref = some b)
    (ht : b.target = .ofCoords (.fin x) (.fin y) (.fin z)) : ∃ e t,
      Coupled S e (s, a) (t, S.step a (.fin x, .fin y, .fin z)) ∧ e.before.second = .rapidMotion ∧
      Joined m t ∧ t.data.program = some q ∧ (t.second = .loadBlock ∨ t.second = .rapidMotion) ∧
      (S.Near m.maxError x y z (S.step a (.fin x, .fin y, .fin z)) → t.second = .loadBlock) := by
  have hquiet : Quiet (answer S a (.fin x, .fin y, .fin z)) := ⟨rfl, rfl, rfl⟩
  obtain ⟨e, t, he, henv⟩ := exists_rapid_eval hs hl.agent hp hb ht hquiet rfl
  have hq : Quiet e.env := henv ▸ hquiet
  have hcon : e.env.connected = true := by rw [henv]; rfl
  have hlt := hl.eval he hq
  obtain ⟨-, hwait⟩ := waits_eval he hl.toOnline hq fun _ => hcon
  obtain ⟨p', b', hmove, -, hnext⟩ := move_next he hq hl.flag (by rw [hs.second]; decide)
  obtain ⟨rfl, rfl, hne, hrun⟩ := he
  cases hp.symm.trans hmove.before
  cases hb.symm.trans hmove.block
  obtain ⟨p'', b'', hp'', hb'', hiff⟩ := hwait.rapid hs.second
  cases hp.symm.trans hp''
  cases hb.symm.trans hb''
  obtain ⟨p₃, b₃, hev⟩ := eval_rapidMotion hs.second hrun
  cases hp.symm.trans hev.before
  cases hb.symm.trans hev.block
  have hset := hev.commanded.setpoint
  have hcmd : commandOf e = some (pointOf (.fin x, .fin y, .fin z)) := by
    rw [commandOf, hs.second, hset, ht]
    rfl
  refine ⟨e, e.after, .answered _ ⟨rfl, rfl, hne, hrun⟩ hq hcon hcmd (by rw [henv]; rfl), hs.second,
    hlt, hmove.after, by rw [hs.second] at hnext; exact hnext, fun hnear => hiff.mpr ?_⟩
  rcases machine_of_eval hrun with ⟨-, P, hP⟩ | ⟨hout, -⟩
  · have hpos := hP.position hl.agent (by rw [henv]; rfl)
    exact ⟨hset, _, _, _, _, _, _, ht, hpos, by rw [hlt.maxError]; exact hnear⟩
  · rw [hs.second] at hout
    exact absurd (by decide) hout

/-- A rapid motion ends once the simulator has come near enough to the target. -/
theorem exists_rapid {x y z : ℝ} (hl : Joined m s) (hs : Calm .rapidMotion s)
    (hp : s.data.program = some q) (hb : q.deref = some b)
    (ht : b.target = .ofCoords (.fin x) (.fin y) (.fin z))
    (hn : S.Near m.maxError x y z ((S.step · (.fin x, .fin y, .fin z))^[n + 1] a)) :
    ∃ es t a', Leaves S m q .rapidMotion s a es t a' := by
  induction n generalizing s a with
  | zero =>
    obtain ⟨e, t, he, hst, hlt, hpt, -, hnear⟩ := rapid_step hl hs hp hb ht
    exact ⟨[e], t, _, .single he, List.forall_mem_singleton.mpr hst,
      ⟨hnear hn, hlt.flag⟩, hlt, hpt⟩
  | succ n ih =>
    obtain ⟨e, t, he, hst, hlt, hpt, hnext, -⟩ := rapid_step hl hs hp hb ht
    rcases hnext with hnext | hnext
    · exact ⟨[e], t, _, .single he, List.forall_mem_singleton.mpr hst,
        ⟨hnext, hlt.flag⟩, hlt, hpt⟩
    · rw [Function.iterate_succ_apply] at hn
      obtain ⟨es, u, a', h⟩ := ih hlt ⟨hnext, hlt.flag⟩ hpt hn
      exact ⟨e :: es, u, a', h.cons he hst⟩

/-- One tick, with the setpoint answered. -/
theorem tick_step {T : Trapezoid} {k j : ℕ} {prev : Option (Block XReal)} (hl : Joined m s)
    (hT : Ticks tq b T k) (hb : Underway m tq q b prev) (h : AtTick m tq q j s) :
    ∃ e t c, Coupled S e (s, a) (t, S.step a c) ∧ e.before.second = .interpMotion ∧ Joined m t ∧
      t.data.program = some q ∧ (k < j → t.second = .loadBlock) ∧ (¬ k < j → AtTick m tq q (j + 1) t) := by
  obtain ⟨x, y, z, hP⟩ := hb.interpolates (.fin (progress T (j * tq)))
  have hquiet : Quiet (answer S a (x, y, z)) := ⟨rfl, rfl, rfl⟩
  obtain ⟨m', P, hP', hcom, -, hrun⟩ := tick hT hb h hquiet
  cases hP.symm.trans hP'
  have hcmd : ∀ u : Fsm XReal, u.data.machine = m' →
      commandOf ⟨s, answer S a (x, y, z), u⟩ = some (pointOf (x, y, z)) := by
    intro u hu
    rw [commandOf, h.calm.second]
    dsimp only
    rw [hu, hcom.setpoint]
    rfl
  have he : Evaluates ⟨s, answer S a (x, y, z), _⟩ s _ :=
    ⟨rfl, rfl, by rw [h.calm.second]; decide, hrun⟩
  refine ⟨_, _, (x, y, z), .answered (x, y, z) he hquiet rfl (hcmd _ rfl) rfl, h.calm.second,
    hl.eval he hquiet, h.program, fun hk => if_pos hk, fun hk => ?_⟩
  rw [if_neg hk]
  exact h.next hcom _

/-- An interpolated block is left behind its last tick, wherever the simulator is. -/
theorem exists_interp {T : Trapezoid} {k j : ℕ} {prev : Option (Block XReal)} (hl : Joined m s)
    (hT : Ticks tq b T k) (hb : Underway m tq q b prev) (h : AtTick m tq q j s) (hn : j + n = k + 1) :
    ∃ es t a', Leaves S m q .interpMotion s a es t a' := by
  induction n generalizing j s a with
  | zero =>
    obtain ⟨e, t, c, he, hst, hlt, hp, hlast, -⟩ := tick_step hl hT hb h
    exact ⟨[e], t, _, .single he, List.forall_mem_singleton.mpr hst, ⟨hlast (by omega), hlt.flag⟩,
      hlt, hp⟩
  | succ n ih =>
    obtain ⟨e, t, c, he, hst, hlt, -, -, hnext⟩ := tick_step hl hT hb h
    obtain ⟨es, u, a', hleaves⟩ := ih hlt (hnext (by omega)) (by omega)
    exact ⟨e :: es, u, a', hleaves.cons he hst⟩

/-- A block without motion is left after one evaluation. -/
theorem exists_still (hl : Joined m s) (hs : Calm .noMotion s) (hp : s.data.program = some q)
    (hb : q.deref = some b) (hpar : b.parsed = true) :
    ∃ es t a', Leaves S m q .noMotion s a es t a' := by
  have hcmd : ∀ u : Fsm XReal, commandOf ⟨s, {}, u⟩ = none := fun u => by
    rw [commandOf, hs.second]
  have he : Evaluates ⟨s, {}, _⟩ s _ :=
    ⟨rfl, rfl, by rw [hs.second]; decide, eval_still quiet_default hs hp hb hpar⟩
  exact ⟨_, _, a, .single (.silent he quiet_default (hcmd _)),
    List.forall_mem_singleton.mpr hs.second, ⟨rfl, rfl⟩, hl.eval he quiet_default, hp⟩

/-- The block that was loaded is carried out together with the simulator. -/
theorem exists_turn (hl : Joined m s) (h : Loaded m p n b q s) (hS : S.Settles m.maxError)
    (htq : m.tq = .fin tq) (htq0 : 0 < tq) (hk : b.type.Known) (hpar : b.parsed = true)
    (hreal : b.type = .rapid → b.target.IsReal)
    (hwalk : b.type.Interpolated → Walkable m p tq b) :
    ∃ es t a', Run (Coupled S) (s, a) es (t, a') ∧
      (∀ e ∈ es, e.before.second = blockState b.type) ∧ Ready m p (n + 1) t ∧ Joined m t := by
  have hleaves : ∃ es t a', Leaves S m q (blockState b.type) s a es t a' := by
    have hcalm := h.calm
    by_cases hi : b.type.Interpolated
    · obtain ⟨prev, T, k, hp, hT, hint⟩ := hwalk hi
      rw [BlockType.blockState_of_interpolated hi]
      exact exists_interp hl hT (h.underway hp hint htq htq0) (h.atTick hi) (Nat.zero_add (k + 1))
    · have htype : b.type = .rapid ∨ b.type = .noMotion := by
        simp only [BlockType.Known, List.mem_cons, List.not_mem_nil, or_false] at hk
        simp only [BlockType.Interpolated, BlockType.IsArc] at hi
        tauto
      rcases htype with ht | ht
      · obtain ⟨x, y, z, hxyz⟩ := hreal ht
        obtain ⟨n, hn⟩ := hS x y z a
        rw [ht] at hcalm ⊢
        exact exists_rapid hl hcalm h.walk.program h.deref hxyz hn
      · rw [ht] at hcalm ⊢
        exact exists_still hl hcalm h.walk.program h.deref hpar
  obtain ⟨es, t, a', h'⟩ := hleaves
  exact ⟨es, t, a', h'.run, h'.inside, ⟨h'.calm, ⟨q, h'.program, h.walk.blocks, h.walk.cursor⟩,
    h'.linked.zero, h'.linked.tick⟩, h'.linked⟩

/-- What the machine needs to carry out a program together with the simulator. -/
structure Playable (S : Simulator σ) (m : Machine XReal) (p : Program XReal) (tq : ℝ) : Prop where
  settles : S.Settles m.maxError
  tick : m.tq = .fin tq
  tick_pos : 0 < tq
  wired : p.Wired
  known : ∀ b ∈ p.blocks, b.type.Known
  parsed : ∀ b ∈ p.blocks, b.parsed = true
  real : ∀ b ∈ p.blocks, b.type = .rapid → b.target.IsReal
  walkable : ∀ b ∈ p.blocks, b.type.Interpolated → Walkable m p tq b

/-- From the block at `n` on, the machine and the simulator come to the end of the program. -/
theorem exists_finish (hpl : Playable S m p tq) {r : ℕ} (hr : n + r = p.blocks.length)
    (hl : Joined m s) (h : Ready m p n s) : ∃ es t a', Run (Coupled S) (s, a) es (t, a') ∧
      (∀ e ∈ es, e.before.second ≠ .idle) ∧ t.second = .idle ∧ Joined m t := by
  obtain ⟨q, hw⟩ := h.walk
  have hc : Chain q.blocks := hw.blocks ▸ hpl.wired.chain
  induction r generalizing n s a q with
  | zero =>
    have hd : q.loadNext.done = true := by
      refine Program.loadNext_of_length hc ?_
      rw [hw.blocks, ← hr]
      exact hw.cursor
    have he : Evaluates ⟨s, {}, _⟩ s _ := ⟨rfl, rfl, by rw [h.calm.second]; decide,
      eval_load_end quiet_default h.calm hw.program hd⟩
    have hcmd : ∀ u : Fsm XReal, commandOf ⟨s, {}, u⟩ = none := fun u => by
      rw [commandOf, h.calm.second]
    refine ⟨_, _, a, .single (.silent he quiet_default (hcmd _)), ?_, rfl, hl.eval he quiet_default⟩
    rw [List.forall_mem_singleton]
    show s.second ≠ .idle
    rw [h.calm.second]
    decide
  | succ r ih =>
    obtain ⟨b, hb⟩ : ∃ b, p.blocks[n]? = some b :=
      ⟨_, List.getElem?_eq_getElem (by omega)⟩
    have hmem := List.mem_of_getElem? hb
    obtain ⟨hderef, hd, -⟩ := Program.loadNext_of_get hc hw.cursor (by rw [hw.blocks]; exact hb)
    obtain ⟨e, u, he, henv⟩ := exists_load_eval h.calm hw.program hd hderef
    have hq : Quiet e.env := henv ▸ quiet_default
    obtain ⟨q', hload⟩ := h.load hpl.wired.chain hb he hq
    have hlu := hl.eval he hq
    obtain ⟨es, v, a', hrun, hin, hready, hlv⟩ := exists_turn hlu hload hpl.settles hpl.tick
      hpl.tick_pos (hpl.known b hmem) (hpl.parsed b hmem) (hpl.real b hmem) (hpl.walkable b hmem)
    obtain ⟨q'', hw'⟩ := hready.walk
    obtain ⟨es', t, a'', hrun', hbusy, ht, hlt⟩ := ih (by omega) hlv hready q'' hw'
      (hw'.blocks ▸ hpl.wired.chain)
    have hst : e.before.second = .loadBlock := by rw [he.1, h.calm.second]
    have hcmd : commandOf e = none := by rw [commandOf, hst]
    refine ⟨e :: (es ++ es'), t, a'', .cons (.silent he hq hcmd) (hrun.append hrun'), ?_, ht, hlt⟩
    intro e' he'
    rcases List.mem_cons.mp he' with rfl | he'
    · rw [hst]
      decide
    · rcases List.mem_append.mp he' with he' | he'
      · rw [hin e' he']
        intro hidle
        have hmem' := BlockType.blockState_known (hpl.known b hmem)
        rw [hidle] at hmem'
        exact absurd hmem' (by decide)
      · exact hbusy e' he'

/-- The machine's side of a run together with the simulator. -/
theorem fsmRun_of_coupled {es : List (Eval XReal)} {x y : Fsm XReal × σ}
    (h : Run (Coupled S) x es y) : FsmRun x.1 es y.1 ∧ ∀ e ∈ es, Quiet e.env ∧
      (e.before.second = .rapidMotion → e.env.connected = true) := by
  induction h with
  | nil x => exact ⟨.nil _, fun _ he => nomatch he⟩
  | cons he _ ih =>
    cases he with
    | answered c he hq hc _ _ =>
      exact ⟨.cons he ih.1, List.forall_mem_cons.mpr ⟨⟨hq, fun _ => hc⟩, ih.2⟩⟩
    | silent he hq hcmd =>
      refine ⟨.cons he ih.1, List.forall_mem_cons.mpr ⟨⟨hq, fun hr => ?_⟩, ih.2⟩⟩
      rw [commandOf, hr] at hcmd
      cases hcmd

/-- SPACE starts a run together with the simulator, and it comes to its end. -/
theorem exists_played (hpl : Playable S s.data.machine p tq) (hs : Calm .idle s)
    (hp : s.data.program = some p) (ha : s.data.machine.agent.isSome = true) (a : σ) :
    ∃ e₀ es u t a', Coupled S e₀ (s, a) (u, a) ∧ e₀.env.key = ' ' ∧ Ready s.data.machine p 0 u ∧
      Run (Coupled S) (u, a) es (t, a') ∧ (∀ e ∈ es, e.before.second ≠ .idle) ∧
      t.second = .idle := by
  have hq : Quiet ({ key := ' ' } : Env XReal) := ⟨rfl, rfl, rfl⟩
  have he₀ : Evaluates ⟨s, { key := ' ' }, _⟩ s _ :=
    ⟨rfl, rfl, by rw [hs.second]; decide, eval_space hq hs rfl hp⟩
  have hcmd : ∀ u : Fsm XReal, commandOf ⟨s, { key := ' ' }, u⟩ = none := fun u => by
    rw [commandOf, hs.second]
  have hready : Ready s.data.machine p 0 ⟨.idle, .loadBlock,
      { s.data with program := some p.rewind, tTot := num 0, tBlk := num 0 }, false⟩ :=
    ⟨⟨rfl, rfl⟩, ⟨p.rewind, rfl, rfl, p.cursorAt_rewind⟩, rfl, rfl⟩
  have hlinked : Joined s.data.machine s := ⟨⟨ha, hs.flag⟩, rfl, rfl, rfl⟩
  obtain ⟨es, t, a', hrun, hbusy, ht, -⟩ :=
    exists_finish hpl (Nat.zero_add _) (a := a) (hlinked.eval he₀ hq) hready
  exact ⟨_, es, _, t, a', .silent he₀ hq (hcmd _), rfl, hready, hrun, hbusy, ht⟩

/-- A machine that waits in IDLE with a program that it can carry out. -/
theorem playable_of_run {d : FsmData XReal} {pre : List (Eval XReal)} {A : ℝ}
    (hr : FsmRun (setup .init d) pre s) (hs : s.second = .idle) (hp : s.data.program = some p)
    (hA : s.data.machine.A = .fin A) (hA0 : 0 < A) (htq : s.data.machine.tq = .fin tq)
    (htq0 : 0 < tq) (hknown : ∀ b ∈ p.blocks, b.type.Known) (hd : ∀ b ∈ p.blocks, b.Drivable)
    (hreal : ∀ b ∈ p.blocks, b.type = .rapid → b.target.IsReal)
    (hS : S.Settles s.data.machine.maxError) : Playable S s.data.machine p tq := by
  have hinit : s.second ≠ .init := by
    rw [hs]
    decide
  have hstop : s.second ≠ .stop := by
    rw [hs]
    decide
  obtain ⟨p', hp', hw⟩ := (safe_run hr).program hinit hstop
  obtain ⟨p'', hp'', hsrc⟩ := sourced_run hr hinit hstop
  cases hp.symm.trans hp'
  cases hp.symm.trans hp''
  exact ⟨hS, htq, htq0, hw.toWired, hknown, fun b hb => (hd b hb).parsed, hreal, fun b hb hi =>
    walkable_of_sourced (hsrc.congr (sameSetup_of_run hr)) hw.toWired hA hA0 htq htq0 hb (hd b hb) hi⟩

/-- The closed loop.  From every state in IDLE that the machine reaches behind an agent with a
program that it can carry out, and for every simulator that settles near a point if it is commanded
often enough, SPACE starts a run that comes back to IDLE, wherever the simulator is at first; and the
setpoints are those of the table of the program. -/
theorem closed_loop {d : FsmData XReal} {pre : List (Eval XReal)} {A : ℝ}
    (hr : FsmRun (setup .init d) pre s) (hs : s.second = .idle) (hcalm : s.stopRequested = false)
    (hp : s.data.program = some p) (ha : s.data.machine.agent.isSome = true)
    (hA : s.data.machine.A = .fin A) (hA0 : 0 < A) (htq : s.data.machine.tq = .fin tq)
    (htq0 : 0 < tq) (hknown : ∀ b ∈ p.blocks, b.type.Known) (hd : ∀ b ∈ p.blocks, b.Drivable)
    (hreal : ∀ b ∈ p.blocks, b.type = .rapid → b.target.IsReal)
    (hS : S.Settles s.data.machine.maxError) (a : σ) :
    ∃ e₀ es t a', Run (Coupled S) (s, a) (e₀ :: es) (t, a') ∧ e₀.env.key = ' ' ∧
      (∀ e ∈ es, e.before.second ≠ .idle) ∧ t.second = .idle ∧
      ∃ n rs, (∀ fuel, n < fuel →
        (Program.programWalk s.data.machine fuel p).run Program.noRows =
          .ok () ⟨.fin ((rs.length : ℕ) * tq), rs⟩) ∧
        Draws s.data.machine p tq p.blocks rs (es.filterMap commandOf) := by
  have hpl : Playable S s.data.machine p tq :=
    playable_of_run hr hs hp hA hA0 htq htq0 hknown hd hreal hS
  obtain ⟨e₀, es, u, t, a', he₀, hkey, hready, hrun, hbusy, ht⟩ := exists_played hpl ⟨hs, hcalm⟩ hp ha a
  obtain ⟨hfsm, henv⟩ := fsmRun_of_coupled hrun
  obtain ⟨n, rs, htab⟩ := exists_table htq htq0 hpl.walkable
  exact ⟨e₀, es, t, a', .cons he₀ hrun, hkey, hbusy, ht, n, rs, htab.run, draws_of_run hpl.wired.chain htq
    htq0 hknown hpl.walkable htab.sampled rfl hready hfsm ht (fun e he => (henv e he).1) hbusy⟩

end Loop

/-! ## A file of three blocks -/

section Sample

/-- A simulator that is at once where it is told to be. -/
def jumping : Simulator (XReal × XReal × XReal) := ⟨fun _ c => c, id⟩

/-- A point is near to itself. -/
theorem near_self {ε : ℝ} (h : 0 < ε) (x y z : ℝ) : DataArith.lt
    (DataArith.hypot3 (.fin x - .fin x) (.fin y - .fin y) (.fin z - .fin z)) (.fin ε : XReal) = true := by
  rw [sub_def, sub_def, sub_def, hypot3_def, lt_def]
  simpa using h

theorem jumping_settles {ε : ℝ} (h : 0 < ε) : jumping.Settles (.fin ε) :=
  fun x y z _ => ⟨0, near_self h x y z⟩

/-- The run that the machine and the simulator make of it. -/
theorem closed_loop_sample : ∃ (p : Program XReal) (b₀ b₁ b₂ : Block XReal) (pre es : List (Eval XReal))
    (s t : Fsm XReal) (e₀ : Eval XReal) (a' : XReal × XReal × XReal),
    FsmRun (setup .init linkedData) pre s ∧ p.blocks = [b₀, b₁, b₂] ∧ b₀.type = .rapid ∧
      b₁.type = .line ∧ b₂.type = .noMotion ∧
      Run (Coupled jumping) (s, (num 0, num 0, num 0)) (e₀ :: es) (t, a') ∧ e₀.env.key = ' ' ∧
      (∀ e ∈ es, e.before.second ≠ .idle) ∧ t.second = .idle ∧
      ∃ rs, Draws s.data.machine p (1 / 1000) p.blocks rs (es.filterMap commandOf) := by
  obtain ⟨p, b₀, b₁, b₂, e₁, s, hmix, hr, hs, hcalm, hp, hm, -⟩ := exists_linked
  obtain ⟨hA, htq⟩ := default_limits
  have hmax : s.data.machine.maxError = .fin ((5 / 1000 : ℚ) : ℝ) := by
    rw [hm]
    rfl
  obtain ⟨e₀, es, t, a', hrun, hkey, hbusy, hidle, -, rs, -, hdraws⟩ := closed_loop (S := jumping) hr hs
    hcalm hp (by rw [hm]; rfl) (A := 5) (by rw [hm]; exact hA) (by norm_num) (by rw [hm]; exact htq)
    (by norm_num) hmix.known hmix.drivable hmix.targets
    (by rw [hmax]; exact jumping_settles (by norm_num)) (num 0, num 0, num 0)
  exact ⟨p, b₀, b₁, b₂, [e₁], es, s, t, e₀, a', hr, hmix.blocks, hmix.rapid, hmix.line, hmix.still, hrun,
    hkey, hbusy, hidle, rs, hdraws⟩

end Sample

end

end Cncpp
