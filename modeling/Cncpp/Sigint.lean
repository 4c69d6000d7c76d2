import Cncpp.Execution

/-! SIGINT: a request to stop, which arrives at any time, is kept in a flag that some
states check and others ignore, and that the rapid motion takes down. -/

namespace Cncpp

open DataArith Lib Lib.ExceptState Fsm

variable {K : Type}

/-! ## Requests -/

/-- The states from which SIGINT triggers an emergency transition to STOP. -/
def State.Emergency (s : State) : Prop := s ∈ [idle, rapidMotion, interpMotion, goToZero]

instance (s : State) : Decidable s.Emergency := inferInstanceAs (Decidable (s ∈ _))

/-- A stop has been requested before an evaluation, or is requested during it. -/
def requested (e : Eval K) : Bool :=
  flagSeen e.env e.before || (e.before.second = .rapidMotion && e.env.sigint.inside) ||
    e.env.sigint.after

/-- An evaluation obeys the requests to stop. -/
structure Obeys (e : Eval K) : Prop where
  halt : e.before.second.Emergency → flagSeen e.env e.before = true → e.after.second = .stop
  kept : requested e = true → e.after.second = .stop ∨ e.after.stopRequested = true

/-- A run obeys the requests to stop. -/
structure Obeyed (es : List (Eval K)) (t : Fsm K) : Prop where
  /-- An evaluation that starts with a request moves to STOP, and is the last one. -/
  halts : ∀ pre e post, es = pre ++ e :: post → e.before.second.Emergency →
    flagSeen e.env e.before = true → e.after.second = .stop ∧ post = []
  /-- No evaluation takes a request down. -/
  kept : ∀ e ∈ es, requested e = true → e.after.second = .stop ∨ e.after.stopRequested = true
  /-- A request stands until the end of the run. -/
  latched : ∀ e ∈ es, requested e = true → t.second = .stop ∨ t.stopRequested = true

/-- A request that finds the machine in a rapid motion is repeated, after the rapid motion
has taken it down. -/
def Repeated (e : Eval K) : Prop :=
  e.before.second = .rapidMotion → (flagSeen e.env e.before || e.env.sigint.inside) = true →
    e.env.sigint.after = true

/-! ## One evaluation -/

section Step

variable {s t : Fsm K} {e : Eval K}

theorem requested_of_ne (h : e.before.second ≠ .rapidMotion) :
    requested e = flagLeft e.env e.before := by
  simp [requested, flagLeft, h]

theorem obeys_of_ignored (hr : e.before.second ≠ .rapidMotion) (hem : ¬ e.before.second.Emergency)
    (h : e.after.stopRequested = flagLeft e.env e.before) : Obeys e where
  halt hc := absurd hc hem
  kept hreq := by
    rw [requested_of_ne hr] at hreq
    exact .inr (h.trans hreq)

theorem obeys_of_guarded (hr : e.before.second ≠ .rapidMotion) (hg : Guarded e.before e.after)
    (h : e.after.stopRequested = flagLeft e.env e.before) : Obeys e where
  halt _ hseen := hg.halt (by rw [h, flagLeft, hseen, Bool.true_or])
  kept hreq := by
    rw [requested_of_ne hr] at hreq
    exact .inr (h.trans hreq)

theorem repeated_of_ne (h : e.before.second ≠ .rapidMotion) : Repeated e := fun hr => absurd hr h

/-- In a rapid motion the flag is read and taken down before the check. -/
theorem obeys_rapid_iff {p : Program K} {b : Block K} (hs : e.before.second = .rapidMotion)
    (h : RapidEval e.env e.before e.after p b) : Obeys e ↔ Repeated e := by
  have hreq : requested e =
      (flagSeen e.env e.before || e.env.sigint.inside || e.env.sigint.after) := by
    simp [requested, hs]
  constructor
  · intro ho _ hseen
    rcases ho.kept (by rw [hreq, hseen, Bool.true_or]) with hstop | hflag
    · rcases h.next with ⟨-, hflag⟩ | hsec | hsec
      · exact h.stop ▸ hflag
      · rw [hstop] at hsec
        cases hsec
      · rw [hstop, hs] at hsec
        cases hsec
    · exact h.stop ▸ hflag
  · intro hrep
    have hafter : requested e = true → e.after.stopRequested = true := by
      intro hr
      rw [h.stop]
      rw [hreq, Bool.or_eq_true] at hr
      exact hr.elim (hrep hs) id
    refine ⟨fun _ hseen => h.halt (hafter ?_), fun hr => .inr (hafter hr)⟩
    rw [hreq, hseen, Bool.true_or, Bool.true_or]

theorem obeys_iff [DataArith K] (he : Evaluates e s t) : Obeys e ↔ Repeated e := by
  obtain ⟨rfl, rfl, hne, hev⟩ := he
  have hmem := eval_state hev
  by_cases hr : e.before.second = .rapidMotion
  · obtain ⟨p, b, h⟩ := eval_rapidMotion hr hev
    exact obeys_rapid_iff hr h
  · refine iff_of_true ?_ (repeated_of_ne hr)
    simp only [List.mem_cons, List.not_mem_nil, or_false] at hmem
    rcases hmem with hs | hs | hs | hs | hs | hs | hs | hs
    · exact obeys_of_ignored hr (by rw [hs]; decide) (eval_init hs hev).stop
    · exact obeys_of_guarded hr (eval_idle hs hev).toGuarded (eval_idle hs hev).stop
    · obtain ⟨p, h⟩ := eval_loadBlock hs hev
      exact obeys_of_ignored hr (by rw [hs]; decide) h.stop
    · exact absurd hs hr
    · obtain ⟨p, b, prev, tgt, h⟩ := eval_interpMotion hs hev
      exact obeys_of_guarded hr h.toGuarded h.stop
    · obtain ⟨p, b, h⟩ := eval_noMotion hs hev
      exact obeys_of_ignored hr (by rw [hs]; decide) h.stop
    · exact obeys_of_guarded hr (eval_goToZero hs hev).toGuarded (eval_goToZero hs hev).stop
    · exact absurd hs hne

end Step

/-! ## Runs -/

variable [DataArith K] {s t : Fsm K} {es : List (Eval K)}

/-- Nothing is evaluated after STOP. -/
theorem nil_of_stop (hr : FsmRun s es t) (hs : s.second = .stop) : es = [] ∧ t = s := by
  cases hr with
  | nil => exact ⟨rfl, rfl⟩
  | cons he _ => exact absurd hs he.2.2.1

/-- A standing request stands until the end of a run of evaluations that obey. -/
theorem latched_of_obeys (hr : FsmRun s es t) (ho : ∀ e ∈ es, Obeys e)
    (hs : s.second = .stop ∨ s.stopRequested = true) : t.second = .stop ∨ t.stopRequested = true := by
  refine hr.invariant_of Obeys (fun u => u.second = .stop ∨ u.stopRequested = true) ?_ ho hs
  rintro e u v hoe hu ⟨rfl, rfl, hne, -⟩
  refine hoe.kept ?_
  have hflag := hu.resolve_left hne
  simp [requested, flagSeen, hflag]

theorem obeyed_iff (hr : FsmRun s es t) : Obeyed es t ↔ ∀ e ∈ es, Obeys e := by
  constructor
  · intro h e he
    obtain ⟨pre, post, rfl⟩ := List.append_of_mem he
    exact ⟨fun hem hseen => (h.halts pre e post rfl hem hseen).1, h.kept e he⟩
  · intro h
    refine ⟨?_, fun e he => (h e he).kept, ?_⟩
    · rintro pre e post rfl hem hseen
      have hstop := (h e (by simp)).halt hem hseen
      obtain ⟨u, -, hr⟩ := hr.append_split
      cases hr with
      | cons he hr =>
        obtain ⟨-, rfl, -, -⟩ := he
        exact ⟨hstop, (nil_of_stop hr hstop).1⟩
    · intro e he hreq
      obtain ⟨pre, post, rfl⟩ := List.append_of_mem he
      obtain ⟨u, -, hr⟩ := hr.append_split
      cases hr with
      | cons hstep hr =>
        obtain ⟨-, rfl, -, -⟩ := hstep
        exact latched_of_obeys hr (fun e' he' => h e' (by simp [he'])) ((h e (by simp)).kept hreq)

/-- A run obeys the requests to stop exactly when no request has to reach STOP through
the rapid motion, which takes it down and goes on with the next block. -/
theorem obeyed_iff_repeated (hr : FsmRun s es t) : Obeyed es t ↔ ∀ e ∈ es, Repeated e := by
  rw [obeyed_iff hr]
  constructor
  · intro h e he
    obtain ⟨u, v, hstep⟩ := hr.step_of_mem he
    exact (obeys_iff hstep).mp (h e he)
  · intro h e he
    obtain ⟨u, v, hstep⟩ := hr.step_of_mem he
    exact (obeys_iff hstep).mpr (h e he)

/-- SIGINT arrives in a rapid motion, twice. -/
theorem obeyed_iff_repeated_sample : ∃ (es : List (Eval XReal)) (t : Fsm XReal),
    FsmRun (setup .init partData) es t ∧ (∃ e ∈ es, e.before.second = .rapidMotion ∧
      requested e = true) ∧ Obeyed es t := by
  obtain ⟨p, b, e₁, e₀, e₂, s, h, -, hrapid⟩ := exists_rapid_opening (K := XReal)
  have hs := h.standing
  obtain ⟨t, ht⟩ := rapidMotion_returns { sigint := { before := true, after := true } } hrapid
    hs.toAlive h.deref
  let e₃ : Eval XReal := ⟨s, { sigint := { before := true, after := true } }, t⟩
  have hstep : Evaluates e₃ s t := ⟨rfl, rfl, by rw [hrapid]; decide, ht⟩
  have hseen : requested e₃ = true := by simp [e₃, requested, flagSeen]
  have hr : FsmRun (setup .init partData) [e₁, e₀, e₂, e₃] t := h.run.append (.single hstep)
  have hinit : e₁.before.second = .init := by
    cases h.run with
    | cons h1 _ => rw [h1.1]; rfl
  refine ⟨[e₁, e₀, e₂, e₃], t, hr, ⟨e₃, by simp, hrapid, hseen⟩,
    (obeyed_iff_repeated hr).mpr ?_⟩
  simp only [List.mem_cons, List.not_mem_nil, or_false, forall_eq_or_imp, forall_eq]
  exact ⟨repeated_of_ne (by rw [hinit]; decide), repeated_of_ne (by rw [h.idle]; decide),
    repeated_of_ne (by rw [h.ready.second]; decide), fun _ _ => rfl⟩

/-- SIGINT arrives before a rapid motion is evaluated: the machine goes on, and moves to
the target of the next block. -/
theorem rapid_consumes : ∃ (p : Program XReal) (c : Block XReal) (es : List (Eval XReal))
    (t : Fsm XReal), FsmRun (setup .init partData) es t ∧
      (∃ e ∈ es, e.before.second = .rapidMotion ∧ flagSeen e.env e.before = true) ∧
      t.second = .loadBlock ∧ t.stopRequested = false ∧ t.data.program = some p ∧
      p.blocks[1]? = some c ∧ t.data.machine.setpoint = c.target ∧ ¬ Obeyed es t := by
  obtain ⟨p, b, e₁, e₀, e₂, s, h, ht⟩ := exists_opening (K := XReal)
    ["G0 X1".toList, "G0 X2".toList] "G0 X1".toList
    (by decide +kernel) (by decide +kernel) (by decide +kernel)
  obtain ⟨c, hc, hmade⟩ := (blocks_of_load h.load).2 1 "G0 X2".toList (by decide +kernel)
  have hrapid : blockState b.type = .rapidMotion := by
    rw [ht]
    decide +kernel
  have hrapid' : blockState c.type = .rapidMotion := by
    rw [hmade.type_eq]
    decide +kernel
  have hs := h.standing
  rw [hrapid] at hs
  have hchain : Chain p.blocks := chain_of_edits (.single h.load)
  obtain ⟨e₃, s₃, h3, henv3, hs3, -⟩ := exists_rapid hs h.deref { sigint := { before := true } } rfl
  obtain ⟨hd, hdone, -⟩ := Program.loadNext_of_get (p := p.rewind.loadNext) hchain h.cursor hc
  obtain ⟨e₄, s₄, h4, henv4, hs4, -⟩ := exists_next hs3 hd hdone
  rw [hrapid'] at hs4
  obtain ⟨e₅, t, h5, henv5, ht, hcom⟩ := exists_rapid hs4 hd {} rfl
  have hseen : flagSeen e₃.env e₃.before = true := by
    rw [henv3, flagSeen, Bool.or_true]
  have hsec : e₃.before.second = .rapidMotion := by
    rw [h3.1]
    exact hs.second
  refine ⟨_, c, [e₁, e₀, e₂, e₃, e₄, e₅], t, h.run.append (.cons h3 (.cons h4 (.single h5))),
    ⟨e₃, by simp, hsec, hseen⟩, ht.second, ht.calm, ht.program, hc, hcom.setpoint, fun ho => ?_⟩
  have hend := (ho.halts [e₁, e₀, e₂] e₃ [e₄, e₅] rfl (by rw [hsec]; decide) hseen).2
  cases hend

end Cncpp
