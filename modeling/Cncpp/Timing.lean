import Cncpp.Walking

/-! How long a program runs on a machine without an agent: the evaluations that each block
needs, and the clocks meanwhile. -/

namespace Cncpp

open DataArith Lib Lib.ExceptState Fsm

/-! ## Counting evaluations -/

section Counts

variable {K : Type} [DataArith K]

/-- The evaluations that carry out a block: one sample at each tick of its profile and two
behind it, or a single evaluation. -/
def evaluations (tq : K) (b : Block K) : ℕ :=
  if b.type.Interpolated then toSize (b.profile.dt / tq) + 2 else 1

/-- The evaluations from LOAD_BLOCK back to IDLE, when these blocks are left: a block of an
unknown type ends the run. -/
def evalsLeft (tq : K) : List (Block K) → ℕ
  | [] => 1
  | b :: bs => if b.type.Known then evaluations tq b + evalsLeft tq bs + 1 else 1

theorem evaluations_pos (tq : K) (b : Block K) : 0 < evaluations tq b := by
  unfold evaluations
  split <;> omega

theorem evalsLeft_pos (tq : K) (bs : List (Block K)) : 0 < evalsLeft tq bs := by
  cases bs with
  | nil => exact Nat.one_pos
  | cons b bs =>
    rw [evalsLeft]
    split <;> omega

theorem evalsLeft_known (tq : K) {bs : List (Block K)} (h : ∀ b ∈ bs, b.type.Known) :
    evalsLeft tq bs = bs.length + (bs.map (evaluations tq)).sum + 1 := by
  induction bs with
  | nil => rfl
  | cons b bs ih =>
    rw [evalsLeft, if_pos (h b (by simp)), ih fun c hc => h c (List.mem_cons_of_mem _ hc),
      List.length_cons, List.map_cons, List.sum_cons]
    omega

end Counts

noncomputable section

open XReal

/-- A parsed block that, where it is interpolated, has a way and a feedrate. -/
structure Block.Drivable (b : Block XReal) : Prop where
  parsed : b.parsed = true
  motion : b.type.Interpolated →
    ∃ l F, b.length = .fin l ∧ 0 < l ∧ b.feedrate = .fin F ∧ 0 < F

/-- A machine without an agent, with a positive acceleration and tick. -/
structure Geared (m : Machine XReal) (A tq : ℝ) : Prop where
  agent : m.agent = none
  A_eq : m.A = .fin A
  A_pos : 0 < A
  tq_eq : m.tq = .fin tq
  tq_pos : 0 < tq

section Counting

variable {m : Machine XReal} {A tq : ℝ} {T : Trapezoid} {k : ℕ} {b : Block XReal}

theorem Ticks.evaluations_eq (h : Ticks tq b T k) (ht : b.type.Interpolated) (htq0 : 0 < tq) :
    evaluations (.fin tq) b = k + 2 := by
  have hdt : b.profile.dt = .fin (k * tq) := by rw [h.profile]; rfl
  rw [evaluations, if_pos ht, hdt, div_of_ne htq0.ne', toSize_def, mul_div_cancel_right₀ _ htq0.ne',
    Nat.floor_natCast]

theorem Block.Drivable.exists_ticks (hd : b.Drivable) (hp : b.ParsedBy m) (hm : Geared m A tq)
    (ht : b.type.Interpolated) : ∃ T k, Ticks tq b T k := by
  obtain ⟨l, F, hl, hl0, hF, hF0⟩ := hd.motion ht
  exact Cncpp.exists_ticks hp ht hm.A_eq hm.A_pos hm.tq_eq hm.tq_pos hl hl0 hF hF0

end Counting

/-! ## Program runs without an agent -/

/-- The machine is `m`, as far as it does not move. -/
def Offline (m : Machine XReal) (s : Fsm XReal) : Prop :=
  ∃ P, s.data.machine = { m with setpoint := P }

/-- A program that the machine carries out, `n` of its blocks being loaded. -/
structure Carries (m : Machine XReal) (bs : List (Block XReal)) (s : Fsm XReal)
    (q : Program XReal) (n : ℕ) : Prop extends Walk bs s q n where
  wired : q.Wired
  sourced : q.Sourced m
  offline : Offline m s

/-- The evaluations that are left until the machine is back in IDLE. -/
inductive Counted (m : Machine XReal) (bs : List (Block XReal)) (r : ℕ) (s : Fsm XReal) : Prop
  | load (q : Program XReal) (n : ℕ) : Calm .loadBlock s → Carries m bs s q n →
      r = evalsLeft m.tq (bs.drop n) → Counted m bs r s
  | move (q : Program XReal) (n : ℕ) (b : Block XReal) (i : ℕ) : Calm (blockState b.type) s →
      Carries m bs s q (n + 1) → bs[n]? = some b → b.type.Known → i < evaluations m.tq b →
      r + i = evaluations m.tq b + evalsLeft m.tq (bs.drop (n + 1)) →
      (b.type.Interpolated → s.data.tBlk = ofNat i * m.tq) → Counted m bs r s
  | idle : Calm .idle s → Offline m s → r = 0 → Counted m bs r s

/-- What an evaluation does to the clocks, when `r` more are left behind it. -/
structure Clocks (tq : XReal) (bs : List (Block XReal)) (r : ℕ) (s t : Fsm XReal) : Prop where
  total : r ≠ 0 → t.data.tTot = s.data.tTot + tq
  last : r = 0 → (∀ b ∈ bs, b.type.Known) → t.data.tTot = s.data.tTot
  block : t.data.tBlk = num 0 ∨ t.data.tBlk = s.data.tBlk ∨ t.data.tBlk = s.data.tBlk + tq

section Steps

variable {m : Machine XReal} {A tq : ℝ} {bs : List (Block XReal)} {s : Fsm XReal}
  {q : Program XReal} {b : Block XReal} {n i r : ℕ} {env : Env XReal}

theorem Offline.tick (h : Offline m s) : s.data.machine.tq = m.tq := by
  obtain ⟨P, hP⟩ := h
  rw [hP]

theorem Offline.zero (h : Offline m s) : s.data.machine.zero = m.zero := by
  obtain ⟨P, hP⟩ := h
  rw [hP]

theorem Offline.agent (h : Offline m s) (hm : Geared m A tq) : s.data.machine.agent = none := by
  obtain ⟨P, hP⟩ := h
  rw [hP]
  exact hm.agent

theorem Offline.command (h : Offline m s) (P : Point XReal) {t : Fsm XReal}
    (ht : t.data.machine = { s.data.machine with setpoint := P }) : Offline m t := by
  obtain ⟨P', hP⟩ := h
  exact ⟨P, by rw [ht, hP]⟩

/-- The state and the clocks may change, and the setpoint of the machine. -/
theorem Carries.keep (h : Carries m bs s q n) {t : Fsm XReal} (hp : t.data.program = s.data.program)
    (ho : Offline m t) : Carries m bs t q n :=
  ⟨⟨hp.trans h.program, h.blocks, h.cursor⟩, h.wired, h.sourced, ho⟩

theorem Carries.deref (h : Carries m bs s q (n + 1)) (hb : bs[n]? = some b) :
    q.deref = some b := by
  rw [Program.deref_of_cursorAt h.wired.chain h.cursor, h.blocks, hb]

theorem step_load (hm : Geared m A tq) (h : Carries m bs s q n) (hs : Calm .loadBlock s)
    (hq : Quiet env) (hr : r + 1 = evalsLeft m.tq (bs.drop n)) :
    ∃ t, (evalState env).run s = .ok () t ∧ Counted m bs r t ∧ Clocks m.tq bs r s t := by
  cases hb : bs[n]? with
  | none =>
    have hn : bs.length ≤ n := List.getElem?_eq_none_iff.mp hb
    have hlen : n = q.blocks.length := Nat.le_antisymm h.cursor.le (h.blocks.symm ▸ hn)
    have hd : q.loadNext.done = true :=
      Program.loadNext_of_length h.wired.chain (hlen ▸ h.cursor)
    rw [List.drop_eq_nil_of_le hn] at hr
    obtain rfl : r = 0 := Nat.succ.inj hr
    exact ⟨_, eval_load_end hq hs h.program hd, .idle ⟨rfl, rfl⟩ h.offline rfl,
      fun h => absurd rfl h,
      fun _ _ => rfl, .inr (.inl rfl)⟩
  | some b =>
    obtain ⟨hderef, hd, hcur⟩ := Program.loadNext_of_get h.wired.chain h.cursor
      ((congrArg (·[n]?) h.blocks).trans hb)
    obtain ⟨hlt, hget⟩ := List.getElem?_eq_some_iff.mp hb
    rw [List.drop_eq_getElem_cons hlt, hget, evalsLeft] at hr
    refine ⟨_, eval_load_next hq hs h.program (h.offline.agent hm) hd hderef, ?_⟩
    by_cases hk : b.type.Known
    · rw [if_pos hk] at hr
      have hpos := evaluations_pos m.tq b
      refine ⟨.move q.loadNext n b 0 ⟨rfl, rfl⟩ ?_ hb hk hpos (by omega) fun ht => ?_, ?_⟩
      · exact ⟨⟨rfl, h.blocks, hcur⟩, ⟨h.wired.chain, h.wired.fresh⟩,
          ⟨h.sourced.parsed, h.sourced.front⟩, h.offline⟩
      · show (if blockState b.type ∈ _ then num 0 else s.data.tBlk) = _
        rw [if_pos (by rw [BlockType.blockState_of_interpolated ht]; decide)]
        rw [hm.tq_eq, ofNat_def, mul_def]
        simp
      · refine ⟨fun _ => by rw [← h.offline.tick], fun hr0 => by omega, ?_⟩
        dsimp only
        split
        · exact .inl rfl
        · exact .inr (.inl rfl)
    · rw [if_neg hk] at hr
      obtain rfl : r = 0 := Nat.succ.inj hr
      refine ⟨.idle ⟨BlockType.blockState_eq_idle.mpr hk, rfl⟩ h.offline rfl,
        fun h => absurd rfl h, fun _ hall => absurd (hall b (List.mem_of_getElem? hb)) hk, ?_⟩
      dsimp only
      split
      · exact .inl rfl
      · exact .inr (.inl rfl)

/-- Behind a block the next one is loaded. -/
theorem counted_of_left (h : Carries m bs s q n) (hs : Calm .loadBlock s) :
    Counted m bs (evalsLeft m.tq (bs.drop n)) s := .load q n hs h rfl

theorem step_single (hm : Geared m A tq) (h : Carries m bs s q (n + 1)) (hb : bs[n]? = some b)
    (hs : Calm (blockState b.type) s) (hd : b.Drivable) (hk : b.type.Known)
    (ht : ¬ b.type.Interpolated) (hq : Quiet env) :
    ∃ t, (evalState env).run s = .ok () t ∧
      Counted m bs (evalsLeft m.tq (bs.drop (n + 1))) t ∧
      Clocks m.tq bs (evalsLeft m.tq (bs.drop (n + 1))) s t := by
  have hleft : evalsLeft m.tq (bs.drop (n + 1)) ≠ 0 :=
    Nat.pos_iff_ne_zero.mp (evalsLeft_pos m.tq (bs.drop (n + 1)))
  have hderef := h.deref hb
  have htick := h.offline.tick
  have htype : b.type = .rapid ∨ b.type = .noMotion := by
    simp only [BlockType.Known, List.mem_cons, List.not_mem_nil, or_false] at hk
    simp only [BlockType.Interpolated, BlockType.IsArc] at ht
    tauto
  rcases htype with htype | htype
  · have hs : Calm .rapidMotion s := by rw [htype] at hs; exact hs
    refine ⟨_, eval_rapid hq hs h.program (h.offline.agent hm) hderef,
      counted_of_left (h.keep rfl (h.offline.command b.target rfl)) ⟨rfl, rfl⟩, fun _ => ?_,
      fun hr => absurd hr hleft, .inr (.inr ?_)⟩
    · rw [← htick]
    · rw [← htick]
  · have hs : Calm .noMotion s := by rw [htype] at hs; exact hs
    refine ⟨_, eval_still hq hs h.program hderef hd.parsed,
      counted_of_left (h.keep rfl h.offline) ⟨rfl, rfl⟩, fun _ => ?_, fun hr => absurd hr hleft,
      .inr (.inl rfl)⟩
    rw [← htick]

theorem step_sample (hm : Geared m A tq) (h : Carries m bs s q (n + 1)) (hb : bs[n]? = some b)
    (hs : Calm (blockState b.type) s) (hd : b.Drivable) (hk : b.type.Known)
    (ht : b.type.Interpolated) (hi : i < evaluations m.tq b)
    (hr : r + 1 + i = evaluations m.tq b + evalsLeft m.tq (bs.drop (n + 1)))
    (hclock : s.data.tBlk = ofNat i * m.tq) (hq : Quiet env) :
    ∃ t, (evalState env).run s = .ok () t ∧ Counted m bs r t ∧ Clocks m.tq bs r s t := by
  have hpos := evalsLeft_pos m.tq (bs.drop (n + 1))
  have hderef := h.deref hb
  have hmem := Program.mem_of_deref hderef
  obtain ⟨T, k, hT⟩ := hd.exists_ticks (h.sourced.parsed b hmem hd.parsed) hm ht
  obtain ⟨prev, hprev, hint⟩ := h.sourced.interpolates h.wired hmem hd.parsed ht
  have hU : Underway m tq q b prev := ⟨hderef, hprev, hint, hm.tq_eq, hm.tq_pos⟩
  have hk2 : evaluations m.tq b = k + 2 := by rw [hm.tq_eq, hT.evaluations_eq ht hm.tq_pos]
  have hblock := BlockType.blockState_of_interpolated ht
  rw [hblock] at hs
  have hat : AtTick m tq q i s := by
    refine ⟨hs, h.program, h.offline.zero, h.offline.tick, ?_⟩
    rw [hclock, hm.tq_eq, ofNat_def, mul_def]
  obtain ⟨m', P, -, -, hoff, hrun⟩ := tick hT hU hat hq
  have hnext : ofNat (i + 1) * m.tq = s.data.tBlk + m.tq := by
    rw [hclock, hm.tq_eq, ofNat_def, ofNat_def, mul_def, mul_def, tick_succ]
  have htick : (.fin ((i + 1 : ℕ) * tq) : XReal) = ofNat (i + 1) * m.tq := by
    rw [hm.tq_eq, ofNat_def, mul_def]
  have hkeep := h.keep (t := ⟨.interpMotion, if k < i then .loadBlock else .interpMotion, { s.data with
    machine := m'
    tTot := s.data.tTot + s.data.machine.tq
    tBlk := .fin ((i + 1 : ℕ) * tq) }, false⟩) rfl (h.offline.command P (hoff (h.offline.agent hm)))
  refine ⟨_, hrun, ?_, fun _ => by rw [← h.offline.tick], fun hr0 => by omega,
    .inr (.inr (htick.trans hnext))⟩
  by_cases hlast : k < i
  · obtain rfl : r = evalsLeft m.tq (bs.drop (n + 1)) := by omega
    exact counted_of_left hkeep ⟨if_pos hlast, rfl⟩
  · exact .move q n b (i + 1) ⟨(if_neg hlast).trans hblock.symm, rfl⟩ hkeep hb hk (by omega)
      (by omega) fun _ => htick

/-- One evaluation less is left, and the clocks go on. -/
theorem Counted.step (hm : Geared m A tq) (hd : ∀ b ∈ bs, b.Drivable)
    (h : Counted m bs (r + 1) s) (hq : Quiet env) :
    ∃ t, (evalState env).run s = .ok () t ∧ Counted m bs r t ∧ Clocks m.tq bs r s t := by
  cases h with
  | load q n hs hc hr => exact step_load hm hc hs hq hr
  | move q n b i hs hc hb hk hi hr hclock =>
    have hdb := hd b (List.mem_of_getElem? hb)
    by_cases ht : b.type.Interpolated
    · exact step_sample hm hc hb hs hdb hk ht hi hr (hclock ht) hq
    · have hone : evaluations m.tq b = 1 := if_neg ht
      obtain rfl : r = evalsLeft m.tq (bs.drop (n + 1)) := by omega
      exact step_single hm hc hb hs hdb hk ht hq
  | idle _ _ hr => exact absurd hr (Nat.succ_ne_zero r)

theorem Counted.busy (h : Counted m bs (r + 1) s) :
    s.second ∉ [State.idle, .stop, .goToZero] := by
  cases h with
  | load q n hs _ _ =>
    rw [hs.second]
    decide
  | move q n b i hs _ _ hk _ _ _ =>
    have hmem := BlockType.blockState_known hk
    rw [← hs.second] at hmem
    intro hout
    simp only [List.mem_cons, List.not_mem_nil, or_false] at hout
    rcases hout with he | he | he <;> rw [he] at hmem <;> exact absurd hmem (by decide)
  | idle _ _ hr => exact absurd hr (Nat.succ_ne_zero r)

theorem Counted.back (h : Counted m bs 0 s) : Calm .idle s ∧ Offline m s := by
  cases h with
  | load q n _ _ hr =>
    have := evalsLeft_pos m.tq (bs.drop n)
    omega
  | move q n b i _ _ _ _ hi hr _ =>
    have := evalsLeft_pos m.tq (bs.drop (n + 1))
    omega
  | idle hs ho _ => exact ⟨hs, ho⟩

theorem Counted.not_idle (h : Counted m bs (r + 1) s) : s.second ≠ .idle := fun he =>
  h.busy (by rw [he]; decide)

theorem Counted.not_stop (h : Counted m bs (r + 1) s) : s.second ≠ .stop := fun he =>
  h.busy (by rw [he]; decide)

theorem Counted.not_zero (h : Counted m bs (r + 1) s) : s.second ≠ .goToZero := fun he =>
  h.busy (by rw [he]; decide)

end Steps

/-! ## The run that SPACE starts -/

section Runs

variable {d : FsmData XReal} {pre : List (Eval XReal)} {s : Fsm XReal} {p : Program XReal}
  {m : Machine XReal} {bs : List (Block XReal)} {A tq : ℝ} {env : Env XReal}

/-- SPACE in IDLE, with the clocks at zero. -/
theorem exists_start (hs : Calm .idle s) (hp : s.data.program = some p) (hw : p.Wired)
    (hsrc : p.Sourced m) (ho : Offline m s) (hk : env.key = ' ') (hq : Quiet env) :
    ∃ t, (evalState env).run s = .ok () t ∧ Counted m p.blocks (evalsLeft m.tq p.blocks) t ∧
      t.data.program = some p.rewind ∧ t.data.tTot = num 0 ∧ t.data.tBlk = num 0 := by
  refine ⟨_, eval_space hq hs hk hp, .load p.rewind 0 ⟨rfl, rfl⟩ ?_ rfl, rfl, rfl, rfl⟩
  exact ⟨⟨rfl, rfl, p.cursorAt_rewind⟩, ⟨hw.chain, hw.fresh⟩, ⟨hsrc.parsed, hsrc.front⟩, ho⟩

/-- The clocks after `j` evaluations, when `r` are left. -/
structure Timed (m : Machine XReal) (tq : ℝ) (bs : List (Block XReal)) (j r : ℕ) (s : Fsm XReal) :
    Prop where
  counted : Counted m bs r s
  total : r ≠ 0 → s.data.tTot = .fin (tq * j)
  last : r = 0 → s.data.tTot = .fin (tq * (j - 1 : ℕ))
  block : r ≠ 0 → ∃ β, s.data.tBlk = .fin β ∧ 0 ≤ β ∧ β ≤ tq * j

theorem Timed.step (hm : Geared m A tq) (hd : ∀ b ∈ bs, b.Drivable)
    (hknown : ∀ b ∈ bs, b.type.Known) {j r : ℕ} (h : Timed m tq bs j (r + 1) s) (hq : Quiet env) :
    ∃ e t, Evaluates e s t ∧ e.env = env ∧ Timed m tq bs (j + 1) r t := by
  obtain ⟨t, ht, hc, hclock⟩ := h.counted.step hm hd hq
  have htot := h.total (Nat.succ_ne_zero r)
  obtain ⟨β, hβ, hβ0, hβj⟩ := h.block (Nat.succ_ne_zero r)
  have hj : tq * ((j + 1 : ℕ) : ℝ) = tq * j + tq := by
    push_cast
    ring
  have hpos := hm.tq_pos
  refine ⟨⟨s, env, t⟩, t, ⟨rfl, rfl, h.counted.not_stop, ht⟩, rfl, hc, fun hr => ?_, fun hr => ?_,
    fun hr => ?_⟩
  · rw [hclock.total hr, htot, hm.tq_eq, add_def, hj]
  · rw [hclock.last hr hknown, htot, Nat.add_sub_cancel]
  · rw [hj]
    have hj0 : 0 ≤ tq * (j : ℝ) := by positivity
    rcases hclock.block with hb | hb | hb
    · exact ⟨0, by rw [hb, num_def, Rat.cast_zero], le_rfl, by linarith⟩
    · exact ⟨β, hb.trans hβ, hβ0, by linarith⟩
    · exact ⟨β + tq, by rw [hb, hβ, hm.tq_eq, add_def], by linarith, by linarith⟩

/-- The length of a run without an agent.  SPACE in IDLE starts a run that is back in IDLE
after as many evaluations as its blocks need, whatever these read, unless it is SIGINT: one
that loads each block, those that carry it out, and one that finds the end.  All but the last
one take a tick, and the time in the block never exceeds the time in total. -/
theorem run_length (hr : FsmRun (setup .init d) pre s) (hs : s.second = .idle)
    (hcalm : s.stopRequested = false) (hp : s.data.program = some p)
    (ha : s.data.machine.agent = none) (hA : s.data.machine.A = .fin A) (hA0 : 0 < A)
    (htq : s.data.machine.tq = .fin tq) (htq0 : 0 < tq)
    (hknown : ∀ b ∈ p.blocks, b.type.Known) (hd : ∀ b ∈ p.blocks, b.Drivable)
    (hk : env.key = ' ') (hq : Quiet env) :
    (∀ b ∈ p.blocks, b.type.Interpolated →
      b.profile.dt / .fin tq + num 2 = ofNat (evaluations (.fin tq) b)) ∧
    ∀ envs, envs.length = p.blocks.length + (p.blocks.map (evaluations (.fin tq))).sum + 1 →
      (∀ env ∈ envs, Quiet env) → ∃ e₀ es t, FsmRun s (e₀ :: es) t ∧ e₀.env = env ∧
        es.map (·.env) = envs ∧ t.second = .idle ∧
        t.data.tTot = .fin (tq *
          (p.blocks.length + (p.blocks.map (evaluations (.fin tq))).sum : ℕ)) ∧
        ∀ before e after, es = before ++ e :: after → e.before.second ≠ .idle ∧
          e.before.data.tTot = .fin (tq * before.length) ∧
          ∃ β, e.before.data.tBlk = .fin β ∧ 0 ≤ β ∧ β ≤ tq * before.length := by
  have hm : Geared s.data.machine A tq := ⟨ha, hA, hA0, htq, htq0⟩
  obtain ⟨p', hp', hw⟩ := (safe_run hr).program (by rw [hs]; decide) (by rw [hs]; decide)
  obtain ⟨p'', hp'', hsrc⟩ := sourced_run hr (by rw [hs]; decide) (by rw [hs]; decide)
  cases hp.symm.trans hp'
  cases hp.symm.trans hp''
  have hsrc := hsrc.congr (sameSetup_of_run hr)
  refine ⟨fun b hb ht => ?_, fun envs hlen hquiet => ?_⟩
  · have hpar := hsrc.parsed b hb (hd b hb).parsed
    obtain ⟨T, k, hT⟩ := (hd b hb).exists_ticks hpar hm ht
    have hdt : b.profile.dt = .fin (k * tq) := by rw [hT.profile]; rfl
    rw [hT.evaluations_eq ht htq0, hdt, div_of_ne htq0.ne', mul_div_cancel_right₀ _ htq0.ne',
      num_def, add_def, ofNat_def]
    push_cast
    rfl
  · obtain ⟨u, hu, hc, -, htot, hblk⟩ := exists_start ⟨hs, hcalm⟩ hp hw.toWired hsrc ⟨_, rfl⟩ hk hq
    rw [htq, evalsLeft_known _ hknown, ← hlen] at hc
    have hne : envs.length ≠ 0 := by omega
    have hstart : Timed s.data.machine tq p.blocks 0 envs.length u := by
      refine ⟨hc, fun _ => ?_, fun h0 => absurd h0 hne, fun _ => ⟨0, ?_, le_rfl, by simp⟩⟩
      · rw [htot]
        simp
      · rw [hblk]
        simp
    obtain ⟨es, t, hes, hmap, ht, hall⟩ := Run.exists_countdown (R := Evaluates) (·.env) Quiet
      (Timed s.data.machine tq p.blocks) (fun j r v env hqe hv => hv.step hm hd hknown hqe) hquiet
      hstart
    refine ⟨⟨s, env, u⟩, es, t, .cons ⟨rfl, rfl, by rw [hs]; decide, hu⟩ hes, rfl, hmap,
      ht.counted.back.1.second, ?_, fun before e after he => ?_⟩
    · rw [ht.last rfl, Nat.zero_add, hlen, Nat.add_sub_cancel]
    · obtain ⟨r, v, w, hv, hev⟩ := hall before e after he
      rw [Nat.zero_add] at hv
      obtain ⟨rfl, -⟩ := hev
      exact ⟨hv.counted.not_idle, hv.total (Nat.succ_ne_zero r), hv.block (Nat.succ_ne_zero r)⟩

/-- A rapid motion, a straight line, and a block without motion. -/
def mixedLines : List Line := ["G0 X1".toList, "G1 X11 F100".toList, "F200".toList]

/-- Its blocks. -/
structure Mixed (p : Program XReal) (a b c : Block XReal) : Prop where
  blocks : p.blocks = [a, b, c]
  rapid : a.type = .rapid
  line : b.type = .line
  still : c.type = .noMotion
  drivable : ∀ o ∈ p.blocks, o.Drivable
  real : a.target.IsReal

theorem Mixed.known {a b c : Block XReal} (h : Mixed p a b c) : ∀ o ∈ p.blocks, o.type.Known := by
  simp only [h.blocks, List.mem_cons, List.not_mem_nil, or_false, forall_eq_or_imp, forall_eq, h.rapid,
    h.line, h.still]
  decide

theorem Mixed.targets {a b c : Block XReal} (h : Mixed p a b c) :
    ∀ o ∈ p.blocks, o.type = .rapid → o.target.IsReal := by
  intro o ho ht
  simp only [h.blocks, List.mem_cons, List.not_mem_nil, or_false] at ho
  rcases ho with rfl | rfl | rfl
  · exact h.real
  · cases h.line.symm.trans ht
  · cases h.still.symm.trans ht

theorem Mixed.evaluations_sum {a b c : Block XReal} (h : Mixed p a b c) :
    (p.blocks.map (evaluations (.fin tq))).sum = evaluations (.fin tq) b + 2 := by
  have hone : ∀ o : Block XReal, ¬ o.type.Interpolated → evaluations (.fin tq) o = 1 :=
    fun o ho => if_neg ho
  rw [h.blocks, List.map_cons, List.map_cons, List.map_singleton, List.sum_cons, List.sum_cons,
    List.sum_singleton, hone a (by rw [h.rapid]; decide), hone c (by rw [h.still]; decide)]
  omega

theorem exists_mixed : ∃ (p : Program XReal) (a b c : Block XReal),
    Edited Machine.default (.load "part.g" (some mixedLines) false) Program.empty p ∧
      Mixed p a b c := by
  obtain ⟨p, hload⟩ := exists_load (K := XReal) Machine.default "part.g" mixedLines
    (by decide +kernel) (by decide +kernel)
  have hpar := parsed_of_load hload
  obtain ⟨hlen, hmade⟩ := blocks_of_load hload
  obtain ⟨a, ha, hma⟩ := hmade 0 "G0 X1".toList (by decide +kernel)
  obtain ⟨b, hb, hmb⟩ := hmade 1 "G1 X11 F100".toList (by decide +kernel)
  obtain ⟨c, hc, hmc⟩ := hmade 2 "F200".toList (by decide +kernel)
  have hblocks : p.blocks = [a, b, c] := by
    obtain ⟨a', b', c', he⟩ := List.length_eq_three.mp (hlen.trans (by decide +kernel))
    rw [he] at ha hb hc ⊢
    cases ha
    cases hb
    cases hc
    rfl
  have hrapid : a.type = .rapid := hma.type_eq.trans (by decide +kernel)
  have hstill : c.type = .noMotion := hmc.type_eq.trans (by decide +kernel)
  have htarget : modalTarget (Machine.default : Machine XReal) ["G0 X1".toList] =
      .ofCoords (.fin 1) (.fin 0) (.fin 0) :=
    (modalTarget_along (x := 1) (by decide +kernel) (by decide +kernel)
      (by decide +kernel)).trans (by norm_num)
  obtain ⟨-, hl, hF⟩ := along_motion (x := 1) hmb (by decide +kernel) htarget
    ((modalTarget_along (x := 11) (by decide +kernel) (by decide +kernel)
      (by decide +kernel)).trans (by norm_num)) (by decide +kernel)
  refine ⟨p, a, b, c, hload, hblocks, hrapid, hmb.type_eq.trans (by decide +kernel), hstill, ?_,
    1, 0, 0, hma.modal.target.trans htarget⟩
  intro o ho
  refine ⟨hpar o ho, fun ht => ?_⟩
  simp only [hblocks, List.mem_cons, List.not_mem_nil, or_false] at ho
  rcases ho with rfl | rfl | rfl
  · rcases ht with ht | ht | ht <;> cases hrapid.symm.trans ht
  · exact ⟨_, _, hl, by norm_num, hF, by norm_num⟩
  · rcases ht with ht | ht | ht <;> cases hstill.symm.trans ht

/-- Three blocks on the default machine. -/
theorem run_length_sample : ∃ (pre : List (Eval XReal)) (s : Fsm XReal) (p : Program XReal)
    (a b c : Block XReal), FsmRun (setup .init partData) pre s ∧ s.data.program = some p ∧
      p.blocks = [a, b, c] ∧ a.type = .rapid ∧ b.type = .line ∧ c.type = .noMotion ∧
      ∀ envs, envs.length = evaluations (.fin (1 / 1000)) b + 6 →
        (∀ env ∈ envs, Quiet env) → ∃ e₀ es t, FsmRun s (e₀ :: es) t ∧ e₀.env.key = ' ' ∧
          es.map (·.env) = envs ∧ t.second = .idle ∧ t.data.tTot =
            .fin ((1 / 1000) * (evaluations (.fin (1 / 1000)) b + 5 : ℕ)) := by
  obtain ⟨p, a, b, c, hload, hmix⟩ := exists_mixed
  obtain ⟨e₁, s, h₁, -, hs, hsm⟩ := exists_init (d := partData) rfl hload
  obtain ⟨hA, htq⟩ := default_limits
  have hq : Quiet ({ key := ' ' } : Env XReal) := ⟨rfl, rfl, rfl⟩
  obtain ⟨-, hrun⟩ := run_length (.single h₁) hs.second hs.calm hs.program
    hs.agent (by rw [hsm]; exact hA) (by norm_num) (by rw [hsm]; exact htq) (by norm_num)
    hmix.known hmix.drivable rfl hq
  refine ⟨[e₁], s, p, a, b, c, .single h₁, hs.program, hmix.blocks, hmix.rapid, hmix.line, hmix.still,
    fun envs hlen hquiet => ?_⟩
  have hthree : p.blocks.length = 3 := by rw [hmix.blocks]; rfl
  rw [hmix.evaluations_sum, hthree] at hrun
  obtain ⟨e₀, es, t, hes, he₀, hmap, ht, htot, -⟩ := hrun envs (by omega) hquiet
  refine ⟨e₀, es, t, hes, by rw [he₀], hmap, ht, htot.trans ?_⟩
  rw [show 3 + (evaluations (.fin (1 / 1000)) b + 2) = evaluations (.fin (1 / 1000)) b + 5 by omega]

end Runs

end

end Cncpp
