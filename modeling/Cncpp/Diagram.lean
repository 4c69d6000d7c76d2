import Cncpp.ClosedLoop

/-! The diagram `fsm.dot` and the machine.  The wrappers turn whatever a state function returns
into a state, so that more could happen than the diagram shows.  In a run without SIGINT exactly
that happens which is drawn; SIGINT adds one arrow for each state of motion. -/

namespace Cncpp

open DataArith Lib Lib.ExceptState Fsm

/-! ## The diagram -/

/-- The transition functions that label arrows. -/
inductive Label where
  | reset
  | beginRapid
  | endRapid
  | beginInterp
  | endInterp
  deriving DecidableEq

structure Arrow where
  source : State
  target : State
  label : Option Label := none
  deriving DecidableEq

/-- `fsm.dot`. -/
def diagram : List Arrow := [
  { source := .init, target := .idle },
  { source := .init, target := .stop },
  { source := .idle, target := .idle },
  { source := .idle, target := .loadBlock, label := some .reset },
  { source := .loadBlock, target := .noMotion },
  { source := .noMotion, target := .loadBlock },
  { source := .loadBlock, target := .rapidMotion, label := some .beginRapid },
  { source := .rapidMotion, target := .rapidMotion },
  { source := .rapidMotion, target := .loadBlock, label := some .endRapid },
  { source := .loadBlock, target := .interpMotion, label := some .beginInterp },
  { source := .interpMotion, target := .interpMotion },
  { source := .interpMotion, target := .loadBlock, label := some .endInterp },
  { source := .loadBlock, target := .idle },
  { source := .idle, target := .stop },
  { source := .idle, target := .goToZero },
  { source := .goToZero, target := .goToZero, label := some .beginRapid },
  { source := .goToZero, target := .idle, label := some .endRapid }]

/-- An arrow leads from `a` to `b`. -/
def HasArrow (a b : State) : Prop := (a, b) ∈ diagram.map fun r => (r.source, r.target)

instance (a b : State) : Decidable (HasArrow a b) := inferInstanceAs (Decidable (_ ∈ _))

/-- The states of motion have no arrow to STOP. -/
theorem not_hasArrow_stop {a : State} (h : a ∈ commanding) : ¬ HasArrow a .stop := by
  simp only [commanding, List.mem_cons, List.not_mem_nil, or_false] at h
  rcases h with rfl | rfl | rfl <;> decide

section Labels

variable {K : Type} [DataArith K] {env : Env K}

/-- The functions behind the labels. -/
def Label.function (env : Env K) : Label → FsmM K Unit
  | reset => resetRun
  | beginRapid => Fsm.beginRapid env
  | endRapid => Fsm.endRapid env
  | beginInterp => Fsm.beginInterp
  | endInterp => pure ()

/-- The function of an arrow is installed, but for the two labels at GO_TO_ZERO. -/
theorem transition_of_arrow {r : Arrow} (h : r ∈ diagram) : transition env r.source r.target =
    if r.source = .goToZero then pure () else (r.label.map (Label.function env)).getD (pure ()) := by
  simp only [diagram, List.mem_cons, List.not_mem_nil, or_false] at h
  rcases h with rfl | rfl | rfl | rfl | rfl | rfl | rfl | rfl | rfl | rfl | rfl | rfl | rfl | rfl |
    rfl | rfl | rfl
  all_goals rfl

end Labels

/-! ## What happens in a run -/

section Runs

variable {K : Type} [DataArith K] {P Q : Env K → Prop} {e : Eval K} {s t : Fsm K} {a b : State}

/-- A run from INIT under environments with `P` comes to `s`. -/
def Reached (P : Env K → Prop) (s : Fsm K) : Prop :=
  ∃ d es, FsmRun (setup .init d) es s ∧ ∀ e ∈ es, P e.env

/-- A run from INIT under environments with `P` goes from `a` to `b`. -/
def Happens (P : Env K → Prop) (a b : State) : Prop :=
  ∃ d es t, FsmRun (setup .init d) es t ∧ (∀ e ∈ es, P e.env) ∧
    ∃ e ∈ es, e.before.second = a ∧ e.after.second = b

theorem reached_setup (P : Env K → Prop) (d : FsmData K) : Reached P (setup .init d) :=
  ⟨d, [], .nil _, fun _ he => absurd he List.not_mem_nil⟩

theorem Reached.next (h : Reached P s) (he : Evaluates e s t) (hP : P e.env) : Reached P t := by
  obtain ⟨d, es, hr, hall⟩ := h
  refine ⟨d, es ++ [e], hr.append (.single he), fun e' he' => ?_⟩
  rcases List.mem_append.mp he' with hmem | hmem
  · exact hall e' hmem
  · rw [List.mem_singleton.mp hmem]
    exact hP

theorem Reached.happens (h : Reached P s) (he : Evaluates e s t) (hP : P e.env) :
    Happens P s.second t.second := by
  obtain ⟨d, es, hr, hall⟩ := h
  refine ⟨d, es ++ [e], t, hr.append (.single he), fun e' he' => ?_, e, by simp, by rw [he.1],
    by rw [he.2.1]⟩
  rcases List.mem_append.mp he' with hmem | hmem
  · exact hall e' hmem
  · rw [List.mem_singleton.mp hmem]
    exact hP

/-- What happens, happens in a state that is reached. -/
theorem happens_iff : Happens P a b ↔ ∃ e s t, Reached P s ∧ Evaluates e s t ∧ P e.env ∧
    s.second = a ∧ t.second = b := by
  constructor
  · rintro ⟨d, es, u, hr, hall, e, he, ha, hb⟩
    obtain ⟨pre, post, rfl⟩ := List.append_of_mem he
    obtain ⟨s, hpre, hr⟩ := hr.append_split
    cases hr with
    | @cons _ _ t _ _ hstep _ =>
      refine ⟨e, s, t, ⟨d, pre, hpre, fun e' he' => hall e' (by simp [he'])⟩, hstep, hall e he, ?_, ?_⟩
      · rw [← hstep.1, ha]
      · rw [← hstep.2.1, hb]
  · rintro ⟨e, s, t, h, he, hP, rfl, rfl⟩
    exact h.happens he hP

theorem Happens.mono (h : Happens P a b) (hPQ : ∀ env, P env → Q env) : Happens Q a b := by
  obtain ⟨d, es, t, hr, hall, hmem⟩ := h
  exact ⟨d, es, t, hr, fun e he => hPQ _ (hall e he), hmem⟩

theorem Reached.calm (h : Reached Quiet s) : s.stopRequested = false := by
  obtain ⟨d, es, hr, hall⟩ := h
  exact calm_of_quiet hr rfl hall

end Runs

/-! ## What happens is drawn -/

section Sound

variable {K : Type} [DataArith K] {env : Env K} {e : Eval K} {s t : Fsm K} {a b : State}

theorem zero_next (hs : s.second = .goToZero) (h : (evalState env).run s = .ok () t) :
    t.second = .stop ∧ t.stopRequested = true ∨ t.second = .idle ∨ t.second = .goToZero := by
  obtain ⟨n, s', hf, -, -, hnext, -⟩ := eval_of_wrapper (by rw [hs]; rfl) h
  obtain ⟨-, -, -, hn⟩ := doGoToZero_ok hf
  have hsec : t.second = if t.stopRequested then .stop
      else if n = .noChange then .goToZero else n := by
    rw [hnext, hs]
    exact settle_guarded _ (by rcases hn with rfl | rfl <;> decide)
  rw [hsec]
  split
  · next hstop => exact .inl ⟨rfl, hstop⟩
  · rcases hn with rfl | rfl
    · exact .inr (.inl rfl)
    · exact .inr (.inr rfl)

/-- An evaluation takes an arrow, or leaves a motion for STOP. -/
theorem arrow_of_eval (he : Evaluates e s t) : HasArrow s.second t.second ∨
    s.second ∈ commanding ∧ t.second = .stop ∧ t.stopRequested = true := by
  obtain ⟨-, -, hne, h⟩ := he
  have hst := eval_state h
  simp only [List.mem_cons, List.not_mem_nil, or_false] at hst
  rcases hst with hs | hs | hs | hs | hs | hs | hs | hs
  · -- INIT
    rcases (eval_init hs h).next with ⟨ht, -⟩ | ⟨ht, -⟩
    all_goals exact .inl (by rw [hs, ht]; decide)
  · -- IDLE
    rcases (eval_idle hs h).key with ⟨-, ht | ⟨ht, -⟩, -⟩ | ⟨-, ht, -⟩ | ⟨-, -, ht | ht | ht, -⟩
    all_goals exact .inl (by rw [hs, ht]; decide)
  · -- LOAD_BLOCK
    obtain ⟨p, hl⟩ := eval_loadBlock hs h
    rcases hl.next with ⟨-, ht⟩ | ⟨-, c, -, ht⟩
    · exact .inl (by rw [hs, ht]; decide)
    · have hmem := blockState_mem c.type
      rw [← ht] at hmem
      simp only [List.mem_cons, List.not_mem_nil, or_false] at hmem
      rcases hmem with ht | ht | ht | ht
      all_goals exact .inl (by rw [hs, ht]; decide)
  · -- RAPID_MOTION
    obtain ⟨p, c, hm⟩ := eval_rapidMotion hs h
    rcases hm.next with ⟨ht, hstop⟩ | ht | ht
    · exact .inr ⟨by rw [hs]; decide, ht, hstop⟩
    · exact .inl (by rw [hs, ht]; decide)
    · exact .inl (by rw [ht, hs]; decide)
  · -- INTERP_MOTION
    obtain ⟨p, c, prev, tgt, hm⟩ := eval_interpMotion hs h
    rcases hm.next with ⟨ht, hstop⟩ | ht | ht
    · exact .inr ⟨by rw [hs]; decide, ht, hstop⟩
    · exact .inl (by rw [hs, ht]; decide)
    · exact .inl (by rw [ht, hs]; decide)
  · -- NO_MOTION
    obtain ⟨p, c, hm⟩ := eval_noMotion hs h
    exact .inl (by rw [hs, hm.done]; decide)
  · -- GO_TO_ZERO
    rcases zero_next hs h with ⟨ht, hstop⟩ | ht | ht
    · exact .inr ⟨by rw [hs]; decide, ht, hstop⟩
    · exact .inl (by rw [hs, ht]; decide)
    · exact .inl (by rw [hs, ht]; decide)
  · exact absurd hs hne

theorem hasArrow_of_happens (h : Happens (Quiet (K := K)) a b) : HasArrow a b := by
  obtain ⟨e, s, t, hreach, he, hq, rfl, rfl⟩ := happens_iff.mp h
  rcases arrow_of_eval he with h | ⟨-, -, hstop⟩
  · exact h
  · rw [flag_of_quiet hq hreach.calm he.2.2.1 he.2.2.2] at hstop
    cases hstop

end Sound

/-! ## SIGINT -/

section Halt

variable {K : Type} [DataArith K] {env : Env K} {s t : Fsm K} {n : State}

/-- A signal that arrives behind the state function stops a motion that goes on without it. -/
theorem eval_halt (env : Env K) {st : State} {valid : List State} {f : FsmM K State} {s' : Fsm K}
    (hs : s.second = st) (hw : stateFun env st = wrapper st valid true env f)
    (hf : f.run (s.signalled env.sigint.before) = .ok n s') (hn : n ≠ .unimplemented)
    (ha : env.sigint.after = true) : ∃ t, (evalState env).run s = .ok () t ∧ t.second = .stop := by
  have hwr : (wrapper st valid true env f).run (s.signalled env.sigint.before) =
      .ok .stop { s' with stopRequested := true } := by
    refine bind_eq_ok.mpr ⟨n, s', hf, ?_⟩
    rw [if_neg hn, ha]
    refine bind_eq_ok.mpr ⟨(), _, rfl, bind_eq_ok.mpr ⟨_, _, rfl, ?_⟩⟩
    simp only [Bool.or_true, Bool.true_and, if_true]
    rfl
  have hstay : ∀ u : Fsm K, (transition env st .stop).run u = .ok () u := fun u => by
    cases st <;> rfl
  subst hs
  rw [← hw] at hwr
  refine ⟨⟨s.second, .stop, s'.data, true⟩, bind_eq_ok.mpr ⟨(), _, rfl, ?_⟩, rfl⟩
  refine bind_eq_ok.mpr ⟨_, _, rfl, bind_eq_ok.mpr ⟨_, _, hwr, ?_⟩⟩
  exact bind_eq_ok.mpr ⟨(), _, rfl, hstay _⟩

/-- The environment with a signal behind the state function. -/
def interrupted (env : Env K) : Env K := { env with sigint := { env.sigint with after := true } }

theorem exists_halt (hs : s.second ∈ commanding) (h : (evalState env).run s = .ok () t) :
    ∃ t, (evalState (interrupted env)).run s = .ok () t ∧ t.second = .stop := by
  simp only [commanding, List.mem_cons, List.not_mem_nil, or_false] at hs
  rcases hs with hs | hs | hs
  · obtain ⟨n, s', hf, -⟩ := eval_of_wrapper (by rw [hs]; rfl) h
    obtain ⟨p, b, hmove, -⟩ := doRapidMotion_ok hf
    refine eval_halt (interrupted env) hs rfl hf ?_ rfl
    rcases hmove.next with rfl | rfl <;> decide
  · obtain ⟨n, s', hf, -⟩ := eval_of_wrapper (by rw [hs]; rfl) h
    obtain ⟨p, b, prev, tgt, hmove⟩ := doInterpMotion_ok hf
    refine eval_halt (interrupted env) hs rfl hf ?_ rfl
    rcases hmove.next with rfl | rfl <;> decide
  · obtain ⟨n, s', hf, -⟩ := eval_of_wrapper (by rw [hs]; rfl) h
    obtain ⟨-, -, -, hn⟩ := doGoToZero_ok hf
    refine eval_halt (interrupted env) hs rfl hf ?_ rfl
    rcases hn with rfl | rfl <;> decide

end Halt

/-! ## What is drawn happens -/

noncomputable section

open XReal

section Complete

variable {env : Env XReal} {e : Eval XReal} {s t : Fsm XReal} {p : Program XReal} {b : Block XReal}

/-- The program file cannot be opened. -/
theorem happens_init_stop : Happens (Quiet (K := XReal)) .init .stop := by
  have hf : (doInit ({} : Env XReal)).run (setup .init partData) = .ok .stop (setup .init partData) :=
    rfl
  have hrun := eval_quiet quiet_default ⟨rfl, rfl⟩ rfl hf rfl (by decide) (by decide)
  exact (reached_setup Quiet partData).happens (e := ⟨_, {}, ⟨.init, .stop, partData, false⟩⟩)
    ⟨rfl, rfl, nofun, hrun⟩ quiet_default

/-- An empty program is loaded, on a machine without an agent. -/
theorem exists_waiting : ∃ (p : Program XReal) (s : Fsm XReal), Reached Quiet s ∧
    Standing .idle p s ∧ s.data.machine = .default ∧ p.blocks.length = 0 ∧ Chain p.blocks ∧
    Happens (Quiet (K := XReal)) .init .idle := by
  obtain ⟨p, hload⟩ := exists_load (K := XReal) Machine.default "part.g" []
    (fun _ h => absurd h List.not_mem_nil) (fun _ h => absurd h List.not_mem_nil)
  obtain ⟨e, s, he, henv, hs, hm⟩ := exists_init (d := partData) rfl hload
  have hq : Quiet e.env := by
    rw [henv]
    exact ⟨rfl, rfl, rfl⟩
  have hinit := reached_setup (K := XReal) Quiet partData
  have hhap := hinit.happens he hq
  rw [hs.second] at hhap
  exact ⟨p, s, hinit.next he hq, hs, hm, (blocks_of_load hload).1, chain_of_edits (.single hload), hhap⟩

/-- The other keys in IDLE. -/
theorem exists_key (hs : Standing .idle p s) {c : Char} (hc : c ≠ ' ') (hr : ¬ (c = 'r' ∨ c = 'R')) :
    ∃ e, Evaluates e s ⟨.idle, if c = 'z' ∨ c = 'Z' then .goToZero
      else if c = 'q' ∨ c = 'Q' then .stop else .idle, s.data, false⟩ ∧ Quiet e.env := by
  have hq : Quiet ({ key := c } : Env XReal) := ⟨rfl, rfl, rfl⟩
  exact ⟨⟨s, { key := c }, _⟩, ⟨rfl, rfl, by rw [hs.second]; decide, eval_key hq hs.toCalm hc hr⟩, hq⟩

theorem happens_waiting : Happens (Quiet (K := XReal)) .idle .idle ∧
    Happens (Quiet (K := XReal)) .idle .stop ∧ Happens (Quiet (K := XReal)) .idle .goToZero := by
  obtain ⟨p, s, hreach, hs, -⟩ := exists_waiting
  have hkey : ∀ c : Char, c ≠ ' ' → ¬ (c = 'r' ∨ c = 'R') → Happens (Quiet (K := XReal)) .idle
      (if c = 'z' ∨ c = 'Z' then .goToZero else if c = 'q' ∨ c = 'Q' then .stop else .idle) := by
    intro c hc hr
    obtain ⟨e, he, hq⟩ := exists_key hs hc hr
    have h := hreach.happens he hq
    rwa [hs.second] at h
  exact ⟨hkey 'x' (by decide) (by decide), hkey 'q' (by decide) (by decide),
    hkey 'z' (by decide) (by decide)⟩

/-- Without an agent the tool never gets to the reference point. -/
theorem happens_zero_zero : Happens (Quiet (K := XReal)) .goToZero .goToZero := by
  obtain ⟨p, s, hreach, hs, hm, -⟩ := exists_waiting
  obtain ⟨e, he, hq⟩ := exists_key hs (c := 'z') (by decide) (by decide)
  have hcalm : Calm .goToZero (⟨.idle, .goToZero, s.data, false⟩ : Fsm XReal) := ⟨rfl, rfl⟩
  have hrun := eval_zero quiet_default hcalm hs.agent
  have herr : DataArith.lt s.data.machine.error s.data.machine.maxError = false := by
    rw [hm]
    exact lt_nan _
  dsimp only at hrun
  rw [herr] at hrun
  exact (hreach.next he hq).happens (e := ⟨_, {}, _⟩) ⟨rfl, rfl, nofun, hrun⟩ quiet_default

/-- SPACE starts a run, which is over at once if the program is empty. -/
theorem happens_empty_run : Happens (Quiet (K := XReal)) .idle .loadBlock ∧
    Happens (Quiet (K := XReal)) .loadBlock .idle := by
  obtain ⟨p, s, hreach, hs, -, hlen, hc, -⟩ := exists_waiting
  obtain ⟨e, t, he, henv, ht, -⟩ := exists_space hs
  have hq : Quiet e.env := by
    rw [henv]
    exact ⟨rfl, rfl, rfl⟩
  have hend : p.rewind.CursorAt p.rewind.blocks.length := by
    change p.rewind.CursorAt p.blocks.length
    rw [hlen]
    exact p.cursorAt_rewind
  obtain ⟨e', u, he', henv', hu⟩ := exists_end ht (Program.loadNext_of_length hc hend)
  have h := hreach.happens he hq
  have h' := (hreach.next he hq).happens he' (henv' ▸ quiet_default)
  rw [hs.second, ht.second] at h
  rw [ht.second, hu.second] at h'
  exact ⟨h, h'⟩

/-- The first block of a file is loaded. -/
theorem Opening.happens {lines : List Line} {e₁ e₀ e₂ : Eval XReal}
    (h : Opening lines p b e₁ e₀ e₂ s) :
    Reached Quiet s ∧ Happens (Quiet (K := XReal)) .loadBlock (blockState b.type) := by
  have hq : ∀ e ∈ [e₁, e₀, e₂], Quiet e.env := by
    simp only [List.forall_mem_cons, h.file, h.space, h.first]
    exact ⟨⟨rfl, rfl, rfl⟩, ⟨rfl, rfl, rfl⟩, quiet_default, fun _ h => absurd h List.not_mem_nil⟩
  refine ⟨⟨_, _, h.run, hq⟩, _, _, _, h.run, hq, e₂, by simp, h.ready.second, ?_⟩
  have hrun : FsmRun (setup .init partData) ([e₁, e₀] ++ [e₂]) s := h.run
  obtain ⟨u, -, hr⟩ := hrun.append_split
  rw [hr.of_single.2.1, h.standing.second]

theorem Opening.parsed {lines : List Line} {e₁ e₀ e₂ : Eval XReal}
    (h : Opening lines p b e₁ e₀ e₂ s) : b.parsed = true :=
  parsed_of_load h.load b (List.mem_of_getElem? h.block)

theorem happens_noMotion : Happens (Quiet (K := XReal)) .loadBlock .noMotion ∧
    Happens (Quiet (K := XReal)) .noMotion .loadBlock := by
  obtain ⟨p, b, e₁, e₀, e₂, s, h, ht⟩ := exists_opening (K := XReal) ["F100".toList] "F100".toList
    (by decide +kernel) (by decide +kernel) (by decide +kernel)
  have htype : blockState b.type = .noMotion := by
    rw [ht]
    decide +kernel
  obtain ⟨hreach, hload⟩ := h.happens
  have hs := h.standing
  rw [htype] at hload hs
  obtain ⟨e, t, he, henv, htt, -⟩ := exists_noMotion hs h.deref h.parsed
  have hhap := hreach.happens he (henv ▸ quiet_default)
  rw [hs.second, htt.second] at hhap
  exact ⟨hload, hhap⟩

theorem happens_rapid : Happens (Quiet (K := XReal)) .loadBlock .rapidMotion ∧
    Happens (Quiet (K := XReal)) .rapidMotion .loadBlock := by
  obtain ⟨p, b, e₁, e₀, e₂, s, h, ht, hrapid⟩ := exists_rapid_opening (K := XReal)
  obtain ⟨hreach, hload⟩ := h.happens
  have hs := h.standing
  rw [ht] at hload hs
  obtain ⟨e, t, he, henv, htt, -⟩ := Fsm.exists_rapid hs h.deref {} rfl
  have hhap := hreach.happens he (henv ▸ quiet_default)
  rw [hs.second, htt.second] at hhap
  exact ⟨hload, hhap⟩

/-! A block that is interpolated is not left at its first tick, and it is left in the end. -/

section Turns

variable {m : Machine XReal} {q : Program XReal} {n : ℕ} {tq : ℝ} {u v : Fsm XReal}
  {es₁ es₂ : List (Eval XReal)}

theorem Turn.stays (h : Turn m p q n b u v es₁ es₂ t) (hi : b.type.Interpolated)
    (htq : m.tq = .fin tq) (htq0 : 0 < tq) (hw : Walkable m p tq b) (hq : ∀ e ∈ es₁, Quiet e.env) :
    ∃ e ∈ es₁, e.before.second = .interpMotion ∧ e.after.second = .interpMotion := by
  obtain ⟨e, l, rfl⟩ := List.exists_cons_of_ne_nil h.nonempty
  have hmem : e ∈ e :: l := List.mem_cons_self
  obtain ⟨prev, T, k, hp, hT, hint⟩ := hw
  cases h.carried with
  | cons he _ =>
    obtain ⟨rfl, rfl, hne, hrun⟩ := he
    have hat : AtTick m tq q 0 e.before := h.loaded.atTick hi
    obtain ⟨m', P, -, -, -, htick⟩ :=
      tick hT (h.loaded.underway hp hint htq htq0) hat (hq e hmem)
    refine ⟨e, hmem, hat.calm.second, ?_⟩
    rw [eval_unique hrun htick]
    dsimp only
    rw [if_neg (Nat.not_lt_zero k)]

theorem Turn.leaves (h : Turn m p q n b u v es₁ es₂ t) :
    ∃ e ∈ es₁, e.before.second = blockState b.type ∧ e.after.second = .loadBlock := by
  rcases List.eq_nil_or_concat es₁ with hnil | ⟨l, e, hl⟩
  · exact absurd hnil h.nonempty
  · have hmem : e ∈ es₁ := by simp [hl]
    have hrun := h.carried
    rw [hl, List.concat_eq_append] at hrun
    obtain ⟨w, -, hlast⟩ := hrun.append_split
    refine ⟨e, hmem, (h.steps e hmem).2.1, ?_⟩
    rw [hlast.of_single.2.1, h.ready.calm.second]

end Turns

theorem happens_line : Happens (Quiet (K := XReal)) .loadBlock .interpMotion := by
  obtain ⟨p, b, e₁, e₀, e₂, s, h, ht⟩ := exists_opening (K := XReal) [sampleLine] sampleLine
    (by decide +kernel) (by decide +kernel) (by decide +kernel)
  have hload := h.happens.2
  have htype : blockState b.type = .interpMotion := by
    rw [ht]
    decide +kernel
  rwa [htype] at hload

/-- A straight line is interpolated for some ticks, and then left. -/
theorem happens_interp : Happens (Quiet (K := XReal)) .interpMotion .interpMotion ∧
    Happens (Quiet (K := XReal)) .interpMotion .loadBlock := by
  obtain ⟨p, b, e₁, e₀, es, s, t, hp, hblocks, hline, hd, hrun, hbefore, ht⟩ := exists_line_run
  have hi : b.type.Interpolated := by
    rw [hline]
    decide
  have hb : p.blocks[0]? = some b := by
    rw [hblocks]
    rfl
  obtain ⟨hA, htq⟩ := default_limits
  obtain ⟨hr, hcalm, hsec, q₀, hphase⟩ := hrun.start
  obtain ⟨hzero, htick⟩ := hrun.params
  obtain ⟨hw, hsrc⟩ := hrun.sourced (by rw [hbefore]; exact hp)
  have hwalk := walkable_of_sourced hsrc hw hA (by norm_num) htq (by norm_num)
    (List.mem_of_getElem? hb) hd hi
  have hready : Ready partData.machine p 0 e₀.after :=
    ⟨⟨hsec, hcalm⟩, ⟨q₀, hphase.toWalk⟩, hzero, htick⟩
  have hquiet : ∀ e ∈ es, Quiet e.env := fun e he => hrun.quiet e (by simp [he])
  obtain ⟨e, q, u, v, es₁, es₂, rfl, -, hturn⟩ := hready.turn hw.chain hb (by rw [hline]; decide) hr
    ht hquiet
  have hhap : ∀ e' ∈ es₁, Happens (Quiet (K := XReal)) e'.before.second e'.after.second :=
    fun e' he => ⟨_, _, _, hrun.run, hrun.quiet, e', by simp [he], rfl, rfl⟩
  obtain ⟨e', he', hbefore', hafter'⟩ := hturn.stays hi htq (by norm_num) hwalk
    fun e he => hquiet e (by simp [he])
  obtain ⟨e'', he'', hbefore'', hafter''⟩ := hturn.leaves
  have hstay := hhap e' he'
  have hleave := hhap e'' he''
  rw [hbefore', hafter'] at hstay
  rw [hbefore'', hafter'', BlockType.blockState_of_interpolated hi] at hleave
  exact ⟨hstay, hleave⟩

/-! The tool is waited for, on a machine with an agent. -/

/-- A message that is not published leaves the position as it is. -/
theorem Commands.position_kept {P : Point XReal} {m m' : Machine XReal} (h : Commands env P m m')
    (ha : m.agent.isSome = true) (hr : env.reply = .publishFails) : m'.position = m.position := by
  obtain ⟨x, y, z, rfl⟩ := (Point.isComplete_iff P).mp (h.complete ha)
  injection h.symm.trans (Machine.run_setSetpoint ha env.reply x y z) with _ hm'
  rw [hm', hr]
  exact Machine.sync_position (by exact ha) .publishFails

/-- The machine is in a rapid motion, and has not heard of the tool. -/
theorem exists_rapid_state : ∃ (q : Program XReal) (b : Block XReal) (s : Fsm XReal),
    Reached Quiet s ∧ Calm .rapidMotion s ∧ s.data.program = some q ∧ q.deref = some b ∧
      s.data.machine = linkedMachine ∧ b.target.IsReal := by
  obtain ⟨q, b, es, s, hr, henv, hs⟩ := exists_linked_rapid
  exact ⟨q, b, s, ⟨_, es, hr, fun e he => (henv e he).1⟩, hs⟩

/-- The machine waits on for a tool that it has not heard of. -/
theorem happens_rapid_rapid : Happens (Quiet (K := XReal)) .rapidMotion .rapidMotion := by
  obtain ⟨q, b, s, hreach, hs, hp, hb, hm, x, y, z, ht⟩ := exists_rapid_state
  have hquiet : Quiet ({ connected := true } : Env XReal) := ⟨rfl, rfl, rfl⟩
  have ha : s.data.machine.agent.isSome = true := by
    rw [hm]
    rfl
  obtain ⟨e, t, he, henv⟩ := exists_rapid_eval hs ha hp hb ht hquiet rfl
  have hq : Quiet e.env := henv ▸ hquiet
  have hhap := hreach.happens he hq
  obtain ⟨-, hwait⟩ := waits_eval he ⟨ha, hs.flag⟩ hq fun _ => by rw [henv]
  obtain ⟨p', b', hmove, -, hnext⟩ := move_next he hq hs.flag (by rw [hs.second]; decide)
  rw [hs.second] at hhap hnext
  rcases hnext with hnext | hnext
  · obtain ⟨rfl, rfl, -, hrun⟩ := he
    obtain ⟨p'', b'', -, -, hiff⟩ := hwait.rapid hs.second
    obtain ⟨-, u, v, w, x', y', z', -, hpos, -⟩ := hiff.mp hnext
    rcases machine_of_eval hrun with ⟨-, P, hP⟩ | ⟨hout, -⟩
    · rw [hP.position_kept ha (by rw [henv]), hm] at hpos
      cases hpos
    · rw [hs.second] at hout
      exact absurd (by decide) hout
  · rwa [hnext] at hhap

/-- The simulator reports the tool at the reference point. -/
theorem happens_zero_idle : Happens (Quiet (K := XReal)) .goToZero .idle := by
  obtain ⟨p, _, _, _, e₁, s, -, hr, hs, hcalm, hp, hm, hq₁⟩ := exists_linked
  have hreach : Reached Quiet s := ⟨_, _, hr, List.forall_mem_singleton.mpr hq₁⟩
  have hqz : Quiet ({ key := 'z' } : Env XReal) := ⟨rfl, rfl, rfl⟩
  have h₂ := eval_key hqz ⟨hs, hcalm⟩ (by decide) (by decide)
  let env : Env XReal := { connected := true, reply := .message (report (num 0, num 0, num 0)) }
  have hq : Quiet env := ⟨rfl, rfl, rfl⟩
  have ha : s.data.machine.agent.isSome = true := by
    rw [hm]
    rfl
  have hat : Calm .goToZero (⟨.idle, .goToZero, s.data, false⟩ : Fsm XReal) := ⟨rfl, rfl⟩
  obtain ⟨e, t, he, henv, -⟩ := exists_zero_eval hat ha hq
  have hreach' := hreach.next (e := ⟨s, { key := 'z' }, _⟩) ⟨rfl, rfl, by rw [hs]; decide, h₂⟩ hqz
  have hqe : Quiet e.env := henv ▸ hq
  have hhap := hreach'.happens he hqe
  obtain ⟨-, hwait⟩ := waits_eval he ⟨ha, rfl⟩ hqe fun _ => by rw [henv]
  have hbefore := he.1
  obtain ⟨-, rfl, -, hrun⟩ := he
  have hidle : e.after.second = .idle := by
    refine (hwait.zero (by rw [hbefore])).mpr ?_
    have hz := eval_goToZero hat.second hrun
    rcases machine_of_eval hrun with ⟨-, P, hP⟩ | ⟨hout, -⟩
    · have hpos := hP.position ha (by rw [henv])
      refine ⟨by rw [hbefore]; exact hz.commanded.setpoint, num 0, num 0, num 0, _, _, _, ?_, hpos, ?_⟩
      · rw [hbefore]
        dsimp only
        rw [hm]
        rfl
      · rw [hP.maxError ha]
        dsimp only
        rw [hm]
        exact near_self (by norm_num) _ _ _
    · rw [hat.second] at hout
      exact absurd (by decide) hout
  rw [hidle] at hhap
  exact hhap

theorem happens_of_hasArrow {a c : State} (h : HasArrow a c) : Happens (Quiet (K := XReal)) a c := by
  obtain ⟨_, _, -, -, -, -, -, hinit⟩ := exists_waiting
  simp only [HasArrow, diagram, List.map_cons, List.map_nil, List.mem_cons, List.not_mem_nil,
    or_false, Prod.mk.injEq] at h
  rcases h with ⟨rfl, rfl⟩ | ⟨rfl, rfl⟩ | ⟨rfl, rfl⟩ | ⟨rfl, rfl⟩ | ⟨rfl, rfl⟩ | ⟨rfl, rfl⟩ |
    ⟨rfl, rfl⟩ | ⟨rfl, rfl⟩ | ⟨rfl, rfl⟩ | ⟨rfl, rfl⟩ | ⟨rfl, rfl⟩ | ⟨rfl, rfl⟩ | ⟨rfl, rfl⟩ |
    ⟨rfl, rfl⟩ | ⟨rfl, rfl⟩ | ⟨rfl, rfl⟩ | ⟨rfl, rfl⟩
  · exact hinit
  · exact happens_init_stop
  · exact happens_waiting.1
  · exact happens_empty_run.1
  · exact happens_noMotion.1
  · exact happens_noMotion.2
  · exact happens_rapid.1
  · exact happens_rapid_rapid
  · exact happens_rapid.2
  · exact happens_line
  · exact happens_interp.1
  · exact happens_interp.2
  · exact happens_empty_run.2
  · exact happens_waiting.2.1
  · exact happens_waiting.2.2
  · exact happens_zero_zero
  · exact happens_zero_idle

/-- SIGINT stops each motion. -/
theorem happens_halt {a : State} (ha : a ∈ commanding) :
    Happens (fun _ : Env XReal => True) a .stop := by
  have hself : HasArrow a a := by
    simp only [commanding, List.mem_cons, List.not_mem_nil, or_false] at ha
    rcases ha with rfl | rfl | rfl <;> decide
  obtain ⟨e, s, t, hreach, he, -, rfl, -⟩ :=
    happens_iff.mp ((happens_of_hasArrow hself).mono fun _ _ => trivial)
  obtain ⟨-, -, hne, hrun⟩ := he
  obtain ⟨u, hu, hstop⟩ := exists_halt ha hrun
  have h := hreach.happens (e := ⟨s, interrupted e.env, u⟩) ⟨rfl, rfl, hne, hu⟩ trivial
  rwa [hstop] at h

/-- The diagram is exact.  Over all runs from INIT, the machine goes from one state to another in
an evaluation, without SIGINT, exactly if an arrow is drawn; and with SIGINT it also goes from each
state of motion to STOP, where no arrow is, and nowhere else.  The function that labels an arrow is
installed for it, but for those at GO_TO_ZERO. -/
theorem diagram_exact (a c : State) :
    (Happens (Quiet (K := XReal)) a c ↔ HasArrow a c) ∧
      (Happens (fun _ : Env XReal => True) a c ↔ HasArrow a c ∨ a ∈ commanding ∧ c = .stop) ∧
      (a ∈ commanding → ¬ HasArrow a .stop) ∧
      ∀ r ∈ diagram, r.source = a → r.target = c → ∀ env : Env XReal, transition env a c =
        if a = .goToZero then pure () else (r.label.map (Label.function env)).getD (pure ()) := by
  refine ⟨⟨hasArrow_of_happens, happens_of_hasArrow⟩, ⟨fun h => ?_, ?_⟩, not_hasArrow_stop, ?_⟩
  · obtain ⟨e, s, t, -, he, -, rfl, rfl⟩ := happens_iff.mp h
    exact (arrow_of_eval he).imp id fun h => ⟨h.1, h.2.1⟩
  · rintro (h | ⟨ha, rfl⟩)
    · exact (happens_of_hasArrow h).mono fun _ _ => trivial
    · exact happens_halt ha
  · rintro r hr rfl rfl env
    exact transition_of_arrow hr

end Complete

end

end Cncpp
