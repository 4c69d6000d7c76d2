import Cncpp.Timing

/-! Whether a machine without an agent can always come back to IDLE.  It can from every state
of a run but GO_TO_ZERO: that one waits for a positioning error that only an agent would
measure. -/

namespace Cncpp

open DataArith Lib Lib.ExceptState Fsm

noncomputable section

open XReal

/-- Without SIGINT the machine can come to IDLE, in one evaluation or more. -/
def CanReturn (s : Fsm XReal) : Prop :=
  ∃ es t, FsmRun s es t ∧ es ≠ [] ∧ (∀ e ∈ es, Quiet e.env) ∧ t.second = .idle

/-- Where a machine without an agent can be, when no SIGINT has arrived. -/
inductive Place (m : Machine XReal) (s : Fsm XReal) : Prop
  | init : Calm .init s → Offline m s → Place m s
  | idle : Calm .idle s → Offline m s → Place m s
  | busy (bs : List (Block XReal)) (r : ℕ) : Counted m bs (r + 1) s →
      (∀ b ∈ bs, b.Drivable) → Place m s
  | zero : Calm .goToZero s → Offline m s → Place m s
  | stop : s.second = .stop → Place m s

section Places

variable {m : Machine XReal} {d : FsmData XReal} {A tq : ℝ} {s t : Fsm XReal}
  {es pre : List (Eval XReal)} {env : Env XReal}

/-- One evaluation, to which there is a state to come back. -/
theorem canReturn_of_eval (hs : s.second ≠ .stop) (hq : Quiet env)
    (h : (evalState env).run s = .ok () t) (ht : t.second = .idle) : CanReturn s :=
  ⟨[⟨s, env, t⟩], t, .single ⟨rfl, rfl, hs, h⟩, by simp, by simpa using hq, ht⟩

/-! ## The way back -/

theorem canReturn_init (hs : Calm .init s) : CanReturn s := by
  have hload : initialLoad ({ file := some [] } : Env XReal) s =
      .ok () { Program.empty with filename := s.data.programFile } := rfl
  have hq : Quiet ({ file := some [] } : Env XReal) := ⟨rfl, rfl, rfl⟩
  have h := eval_start hq hs hload fun _ hb => nomatch hb
  exact canReturn_of_eval (by rw [hs.second]; decide) hq h rfl

/-- Any key that the prompt does not know. -/
theorem canReturn_idle (hs : Calm .idle s) : CanReturn s := by
  have hq : Quiet ({ key := 'x' } : Env XReal) := ⟨rfl, rfl, rfl⟩
  have h := eval_key hq hs (by decide) (by decide)
  exact canReturn_of_eval (by rw [hs.second]; decide) hq h rfl

/-- A program run comes to its end. -/
theorem canReturn_busy (hm : Geared m A tq) {bs : List (Block XReal)} {r : ℕ}
    (hc : Counted m bs (r + 1) s) (hd : ∀ b ∈ bs, b.Drivable) : CanReturn s := by
  have hstep : ∀ (j r : ℕ) (u : Fsm XReal) (env : Env XReal), Quiet env → Counted m bs (r + 1) u →
      ∃ e v, Evaluates e u v ∧ e.env = env ∧ Counted m bs r v := by
    intro j r u env hq hu
    obtain ⟨v, hv, hcv, -⟩ := hu.step hm hd hq
    exact ⟨⟨u, env, v⟩, v, ⟨rfl, rfl, hu.not_stop, hv⟩, rfl, hcv⟩
  have hquiet : ∀ env ∈ List.replicate (r + 1) ({} : Env XReal), Quiet env := fun env h => by
    rw [List.eq_of_mem_replicate h]
    exact quiet_default
  obtain ⟨es, t, hr, hmap, ht, -⟩ := Run.exists_countdown (R := Evaluates) (j := 0) (·.env) Quiet
    (fun _ => Counted m bs) hstep hquiet (by rwa [List.length_replicate])
  refine ⟨es, t, hr, ?_, fun e he => ?_, ht.back.1.second⟩
  · rintro rfl
    cases hmap
  · exact hquiet _ (hmap ▸ List.mem_map_of_mem he)

theorem canReturn_zero (hm : Geared m A tq) (hs : Calm .goToZero s) (ho : Offline m s)
    (herr : DataArith.lt m.error m.maxError = true) : CanReturn s := by
  have h := eval_zero quiet_default hs (ho.agent hm)
  refine canReturn_of_eval (by rw [hs.second]; decide) quiet_default h ?_
  obtain ⟨P, hP⟩ := ho
  rw [hP]
  exact if_pos herr

/-- Without a small error GO_TO_ZERO is never left. -/
theorem not_canReturn_zero (hm : Geared m A tq) (hs : Calm .goToZero s) (ho : Offline m s)
    (herr : DataArith.lt m.error m.maxError = false) : ¬ CanReturn s := by
  rintro ⟨es, t, hr, -, hq, hidle⟩
  have hinv : Calm .goToZero t ∧ Offline m t := by
    refine hr.invariant_of (fun e => Quiet e.env) (fun u => Calm .goToZero u ∧ Offline m u) ?_ hq
      ⟨hs, ho⟩
    rintro e u v hqe ⟨hu, hou⟩ ⟨rfl, rfl, -, hev⟩
    have hsame := eval_unique (eval_zero hqe hu (hou.agent hm)) hev
    refine ⟨?_, hou.command m.zero ?_⟩
    · obtain ⟨P, hP⟩ := hou
      rw [← hsame, hP]
      exact ⟨if_neg (by rw [herr]; decide), rfl⟩
    · rw [← hsame, hou.zero]
  rw [hinv.1.second] at hidle
  cases hidle

theorem Place.canReturn (hm : Geared m A tq) (h : Place m s) (hs : s.second ≠ .stop)
    (hz : s.second = .goToZero → DataArith.lt m.error m.maxError = true) : CanReturn s := by
  cases h with
  | init hc _ => exact canReturn_init hc
  | idle hc _ => exact canReturn_idle hc
  | busy bs r hc hd => exact canReturn_busy hm hc hd
  | zero hc ho => exact canReturn_zero hm hc ho (hz hc.second)
  | stop hst => exact absurd hst hs

/-! ## The states of a run -/

/-- IDLE, by key. -/
theorem place_of_idle (hw : Holds Program.Intact s) (hsrc : Holds (Program.Sourced m) s)
    (hs : Calm .idle s) (ho : Offline m s) (hq : Quiet env) (he : (evalState env).run s = .ok () t)
    (hacc : t.second ≠ .stop → ∀ p, t.data.program = some p → ∀ b ∈ p.blocks, b.Drivable) :
    Place m t ∧ (t.second = .goToZero ↔ env.key = 'z' ∨ env.key = 'Z') := by
  obtain ⟨p, hp, hin⟩ := hw (by rw [hs.second]; decide) (by rw [hs.second]; decide)
  obtain ⟨p', hp', hsrc⟩ := hsrc (by rw [hs.second]; decide) (by rw [hs.second]; decide)
  cases hp.symm.trans hp'
  by_cases hspace : env.key = ' '
  · obtain ⟨u, hu, hc, hprog, -, -⟩ := exists_start hs hp hin.toWired hsrc ho hspace hq
    obtain rfl := eval_unique hu he
    obtain ⟨r, hr⟩ := Nat.exists_eq_add_one.mpr (evalsLeft_pos m.tq p.blocks)
    rw [hr] at hc
    refine ⟨.busy _ _ hc (hacc hc.not_stop p.rewind hprog), ?_⟩
    exact iff_of_false hc.not_zero (by rw [hspace]; decide)
  by_cases hr : env.key = 'r' ∨ env.key = 'R'
  · obtain rfl := eval_unique (eval_reload hq hs hr hp) he
    refine ⟨.idle ⟨rfl, rfl⟩ ho, iff_of_false (fun h => nomatch h) ?_⟩
    rcases hr with hr | hr <;> rw [hr] <;> decide
  · obtain rfl := eval_unique (eval_key hq hs hspace hr) he
    dsimp only
    split
    · next hz => exact ⟨.zero ⟨rfl, rfl⟩ ho, iff_of_true rfl hz⟩
    · next hz =>
      split
      · exact ⟨.stop rfl, iff_of_false (by decide) hz⟩
      · exact ⟨.idle ⟨rfl, rfl⟩ ho, iff_of_false (by decide) hz⟩

theorem Place.step (hm : Geared m A tq) (hw : Holds Program.Intact s)
    (hsrc : Holds (Program.Sourced m) s) (h : Place m s) (hne : s.second ≠ .stop) (hq : Quiet env)
    (he : (evalState env).run s = .ok () t)
    (hacc : t.second ≠ .stop → ∀ p, t.data.program = some p → ∀ b ∈ p.blocks, b.Drivable) :
    Place m t ∧ (t.second = .goToZero → s.second = .goToZero ∨
      s.second = .idle ∧ (env.key = 'z' ∨ env.key = 'Z')) := by
  cases h with
  | init hs ho =>
    have hev := eval_init hs.second he
    have hcalm : t.stopRequested = false := by
      rw [hev.stop, flagLeft, flagSeen, hs.flag, hq.1, hq.2.2]
      rfl
    have ho : Offline m t := by rwa [Offline, hev.machine]
    rcases hev.next with ⟨hst, -⟩ | ⟨hst, -⟩
    · exact ⟨.stop hst, fun hz => by rw [hst] at hz; cases hz⟩
    · exact ⟨.idle ⟨hst, hcalm⟩ ho, fun hz => by rw [hst] at hz; cases hz⟩
  | idle hs ho =>
    obtain ⟨hp, hz⟩ := place_of_idle hw hsrc hs ho hq he hacc
    exact ⟨hp, fun h => .inr ⟨hs.second, hz.mp h⟩⟩
  | busy bs r hc hd =>
    obtain ⟨u, hu, hcu, -⟩ := hc.step hm hd hq
    obtain rfl := eval_unique hu he
    cases r with
    | zero =>
      obtain ⟨hs, ho⟩ := hcu.back
      exact ⟨.idle hs ho, fun hz => by rw [hs.second] at hz; cases hz⟩
    | succ r => exact ⟨.busy bs r hcu hd, fun hz => absurd hz hcu.not_zero⟩
  | zero hs ho =>
    have hsame := eval_unique (eval_zero hq hs (ho.agent hm)) he
    have hot : Offline m t := ho.command m.zero (by rw [← hsame, ho.zero])
    refine ⟨?_, fun _ => .inl hs.second⟩
    by_cases herr : DataArith.lt s.data.machine.error s.data.machine.maxError = true
    · exact .idle ⟨by rw [← hsame]; exact if_pos herr, by rw [← hsame]⟩ hot
    · exact .zero ⟨by rw [← hsame]; exact if_neg herr, by rw [← hsame]⟩ hot
  | stop hst => exact absurd hst hne

/-- No SIGINT arrives, and the program, if there is one, is one to carry out. -/
structure Smooth (e : Eval XReal) : Prop where
  quiet : Quiet e.env
  drivable : e.after.second ≠ .stop →
    ∀ p, e.after.data.program = some p → ∀ b ∈ p.blocks, b.Drivable

theorem place_of_run (hm : Geared d.machine A tq) (hr : FsmRun (setup .init d) es t)
    (he : ∀ e ∈ es, Smooth e) : Place d.machine t := by
  have hinv : (∃ l, FsmRun (setup .init d) l t) ∧ Place d.machine t := by
    refine hr.invariant_of Smooth (fun u => (∃ l, FsmRun (setup .init d) l u) ∧ Place d.machine u) ?_
      he ⟨⟨[], .nil _⟩, .init ⟨rfl, rfl⟩ ⟨_, rfl⟩⟩
    rintro e u v hse ⟨⟨l, hl⟩, hu⟩ hev
    refine ⟨⟨l ++ [e], hl.append (.single hev)⟩, ?_⟩
    obtain ⟨rfl, rfl, hne, hev⟩ := hev
    exact (hu.step hm (safe_run hl).program (sourced_run hl) hne hse.quiet hev hse.drivable).1
  exact hinv.2

/-- GO_TO_ZERO has been asked for. -/
theorem exists_key_of_zero (hm : Geared d.machine A tq) (hr : FsmRun (setup .init d) es t)
    (he : ∀ e ∈ es, Smooth e) (ht : t.second = .goToZero) :
    ∃ e ∈ es, e.before.second = .idle ∧ (e.env.key = 'z' ∨ e.env.key = 'Z') := by
  induction es using List.reverseRecOn generalizing t with
  | nil =>
    cases hr
    cases ht
  | append_singleton es e ih =>
    obtain ⟨u, hu, hlast⟩ := hr.append_split
    cases hlast with
    | cons hstep hnil =>
      cases hnil
      obtain ⟨rfl, rfl, hne, hev⟩ := hstep
      have hall : ∀ e' ∈ es, Smooth e' := fun e' h => he e' (List.mem_append_left _ h)
      have hlast := he e (by simp)
      have hplace := place_of_run hm hu hall
      rcases (hplace.step hm (safe_run hu).program (sourced_run hu) hne hlast.quiet hev
        hlast.drivable).2 ht with hz | hz
      · obtain ⟨e', he', h⟩ := ih hu hall hz
        exact ⟨e', List.mem_append_left _ he', h⟩
      · exact ⟨e, by simp, hz⟩

/-- A machine without an agent, in a run without SIGINT over programs that can be carried
out: it can come back to IDLE from every state that it reaches, other than STOP, exactly when
the error that it holds from the start lets it leave GO_TO_ZERO, or Z is never pressed. -/
theorem can_return_iff (ha : d.machine.agent = none) (hA : d.machine.A = .fin A) (hA0 : 0 < A)
    (htq : d.machine.tq = .fin tq) (htq0 : 0 < tq) (hr : FsmRun (setup .init d) es t)
    (he : ∀ e ∈ es, Smooth e) :
    (∀ pre post s, es = pre ++ post → FsmRun (setup .init d) pre s → s.second ≠ .stop →
      CanReturn s) ↔
    DataArith.lt d.machine.error d.machine.maxError = true ∨
      ∀ e ∈ es, e.before.second = .idle → ¬ (e.env.key = 'z' ∨ e.env.key = 'Z') := by
  have hm : Geared d.machine A tq := ⟨ha, hA, hA0, htq, htq0⟩
  constructor
  · intro hret
    cases herr : DataArith.lt d.machine.error d.machine.maxError with
    | true => exact .inl rfl
    | false =>
      -- where Z is pressed the machine is in GO_TO_ZERO for good
      refine .inr fun e hmem hidle hz => ?_
      obtain ⟨pre, post, rfl⟩ := List.append_of_mem hmem
      have hall : ∀ e' ∈ pre, Smooth e' := fun e' h => he e' (List.mem_append_left _ h)
      obtain ⟨u, hu, hrest⟩ := hr.append_split
      cases hrest with
      | cons hstep _ =>
        have hto := hu.append (.single hstep)
        obtain ⟨rfl, rfl, hne, hev⟩ := hstep
        have hsm := he e hmem
        have hplace := place_of_run hm hu hall
        have hgo : Calm .goToZero e.after ∧ Offline d.machine e.after := by
          cases hplace with
          | idle hs ho =>
            have hspace : e.env.key ≠ ' ' := by rcases hz with hz | hz <;> rw [hz] <;> decide
            have hr : ¬ (e.env.key = 'r' ∨ e.env.key = 'R') := by
              rcases hz with hz | hz <;> rw [hz] <;> decide
            have hkey := eval_key hsm.quiet hs hspace hr
            rw [← eval_unique hkey hev, if_pos hz]
            exact ⟨⟨rfl, rfl⟩, ho⟩
          | init hs _ | zero hs _ => exact nomatch hs.second.symm.trans hidle
          | busy bs r hc _ => exact absurd hidle hc.not_idle
          | stop hs => exact nomatch hs.symm.trans hidle
        have hstop : e.after.second ≠ .stop := by
          rw [hgo.1.second]
          decide
        exact not_canReturn_zero hm hgo.1 hgo.2 herr
          (hret (pre ++ [e]) post e.after (by simp) hto hstop)
  · rintro hcond pre post s rfl hpre hne
    have hall : ∀ e' ∈ pre, Smooth e' := fun e' h => he e' (List.mem_append_left _ h)
    refine (place_of_run hm hpre hall).canReturn hm hne fun hz => ?_
    rcases hcond with herr | hno
    · exact herr
    · obtain ⟨e, hmem, hidle, hk⟩ := exists_key_of_zero hm hpre hall hz
      exact absurd hk (hno e (List.mem_append_left _ hmem) hidle)

end Places

/-! ## A file of one rapid motion -/

theorem rapid_drivable {p : Program XReal} (hload : Edited Machine.default
    (.load "part.g" (some ["G0 X1".toList]) false) Program.empty p) :
    ∀ b ∈ p.blocks, b.Drivable := by
  have hpar := parsed_of_load hload
  obtain ⟨hlen, hmade⟩ := blocks_of_load hload
  obtain ⟨b, hb, hmade⟩ := hmade 0 "G0 X1".toList (by decide +kernel)
  intro c hc
  obtain ⟨i, hi⟩ := List.mem_iff_getElem?.mp hc
  have hlt := (List.getElem?_eq_some_iff.mp hi).1
  rw [hlen, show (["G0 X1".toList].filter Program.isCode).length = 1 by decide +kernel] at hlt
  obtain rfl : i = 0 := by omega
  cases hb.symm.trans hi
  refine ⟨hpar b hc, fun ht => ?_⟩
  rw [hmade.type_eq] at ht
  exact absurd ht (by decide +kernel)

/-- The program is started: there is a way back. -/
theorem can_return_iff_sample : ∃ (es : List (Eval XReal)) (t : Fsm XReal),
    FsmRun (setup .init partData) es t ∧ (∀ e ∈ es, Smooth e) ∧ t.second = .loadBlock ∧
      CanReturn t := by
  obtain ⟨p, hload⟩ := exists_load (K := XReal) Machine.default "part.g" ["G0 X1".toList]
    (by decide +kernel) (by decide +kernel)
  obtain ⟨e₁, s, h₁, henv₁, hs, -⟩ := exists_init (d := partData) rfl hload
  obtain ⟨e₂, t, h₂, henv₂, ht, -⟩ := exists_space hs
  have hd := rapid_drivable hload
  have hrun : FsmRun (setup .init partData) [e₁, e₂] t := .cons h₁ (.single h₂)
  have hsmooth : ∀ e ∈ [e₁, e₂], Smooth e := by
    simp only [List.mem_cons, List.not_mem_nil, or_false, forall_eq_or_imp, forall_eq]
    refine ⟨⟨by rw [henv₁]; exact ⟨rfl, rfl, rfl⟩, fun _ q hq => ?_⟩,
      ⟨by rw [henv₂]; exact ⟨rfl, rfl, rfl⟩, fun _ q hq => ?_⟩⟩
    · rw [h₁.2.1, hs.program] at hq
      cases hq
      exact hd
    · rw [h₂.2.1, ht.program] at hq
      cases hq
      exact hd
  obtain ⟨hA, htq⟩ := default_limits
  have hno : ∀ e ∈ [e₁, e₂], e.before.second = .idle → ¬ (e.env.key = 'z' ∨ e.env.key = 'Z') := by
    simp only [List.mem_cons, List.not_mem_nil, or_false, forall_eq_or_imp, forall_eq, henv₁, henv₂]
    exact ⟨fun _ => by decide, fun _ => by decide⟩
  refine ⟨[e₁, e₂], t, hrun, hsmooth, ht.second, (can_return_iff (d := partData) rfl hA (by norm_num)
    htq (by norm_num) hrun hsmooth).mpr (.inr hno) [e₁, e₂] [] t (by simp) hrun ?_⟩
  rw [ht.second]
  decide

/-- Z is pressed in IDLE, on the default machine: GO_TO_ZERO is never left. -/
theorem go_to_zero_traps : ∃ (es : List (Eval XReal)) (t : Fsm XReal),
    FsmRun (setup .init partData) es t ∧ (∀ e ∈ es, Smooth e) ∧ t.second = .goToZero ∧
      ¬ CanReturn t := by
  obtain ⟨p, hload⟩ := exists_load (K := XReal) Machine.default "part.g" ["G0 X1".toList]
    (by decide +kernel) (by decide +kernel)
  obtain ⟨e₁, s, h₁, henv₁, hs, hsm⟩ := exists_init (d := partData) rfl hload
  have hd := rapid_drivable hload
  have hq : Quiet ({ key := 'Z' } : Env XReal) := ⟨rfl, rfl, rfl⟩
  have h₂ := eval_key hq ⟨hs.second, hs.calm⟩ (by decide) (by decide)
  obtain ⟨hA, htq⟩ := default_limits
  have hm : Geared (Machine.default : Machine XReal) 5 (1 / 1000) :=
    ⟨rfl, hA, by norm_num, htq, by norm_num⟩
  refine ⟨[e₁, ⟨s, { key := 'Z' }, _⟩], _, .cons h₁ (.single ⟨rfl, rfl, ?_, h₂⟩), ?_, rfl,
    not_canReturn_zero hm ⟨rfl, rfl⟩ ⟨_, hsm⟩ rfl⟩
  · rw [hs.second]
    decide
  · have hprog : s.data.program = some p := hs.program
    simp only [List.mem_cons, List.not_mem_nil, or_false, forall_eq_or_imp, forall_eq]
    refine ⟨⟨by rw [henv₁]; exact ⟨rfl, rfl, rfl⟩, fun _ q hq => ?_⟩, ⟨hq, fun _ q hq => ?_⟩⟩
    · obtain ⟨-, rfl, -⟩ := h₁
      cases hprog.symm.trans hq
      exact hd
    · cases hprog.symm.trans hq
      exact hd

end

end Cncpp
