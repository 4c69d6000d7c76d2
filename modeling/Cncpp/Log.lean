import Cncpp.Lib.Csv
import Cncpp.Messages

/-! The log that a run prints.  Every session begins with the header, and every sample is a row of
it; but a row has one field more than the header names. -/

namespace Cncpp

open DataArith Lib Lib.ExceptState Fsm

/-! ## Lines -/

/-- An integer in decimal. -/
def decimal : ℤ → List Char
  | .ofNat n => Nat.toDigits 10 n
  | .negSucc n => '-' :: Nat.toDigits 10 (n + 1)

/-- An integer behind zeros, in `width` places at least. -/
def padded (width : ℕ) (i : ℤ) : List Char := (decimal i).leftpad width '0'

section Rows

variable {K : Type} [DataArith K] (fixed : ℕ → K → List Char)

end Rows

/-! ## What a reader finds -/

section Reading

variable {K : Type} [DataArith K] {fixed : ℕ → K → List Char} {d : FsmData K} {b : Block K}
  {smp : Sample K} {tgt : K × K × K}

end Reading

/-! ## The time of a session -/

section Sessions

variable {K : Type} [DataArith K] {env : Env K} {s t : Fsm K} {e : Eval K} {n : State}
  {m : Machine K} {pre : List (Eval K)}

theorem tTot_of_load (h : (doLoadBlock env).run s = .ok n t) (hn : n ≠ .idle) :
    t.data.tTot = s.data.tTot + s.data.machine.tq := by
  simp only [doLoadBlock, bind_eq_ok, getProgram_ok] at h
  obtain ⟨p, _, ⟨hp, rfl⟩, _, _, hset, h⟩ := h
  cases hset
  split at h
  · cases h
    exact absurd rfl hn
  · simp only [bind_eq_ok, currentBlock_ok] at h
    obtain ⟨b, _, ⟨q, hq, hb, rfl⟩, _, _, hsend, _, _, hg, _, _, htot, h⟩ := h
    cases sendMetrics_ok hsend
    cases hg
    cases htot
    cases h
    rfl

theorem tTot_of_interp (h : (doInterpMotion env).run s = .ok n t) :
    t.data.tTot = s.data.tTot + s.data.machine.tq := by
  simp only [doInterpMotion, bind_eq_ok, currentBlock_ok, onMachine_ok, raise_ok] at h
  obtain ⟨b, _, ⟨p, hp, hb, rfl⟩, _, _, hg, prev, _, hprev, ⟨P, smp⟩, _, ⟨-, rfl⟩, _, _, ⟨m, hm, rfl⟩,
    _, _, htot, _, _, hblk, h⟩ := h
  cases hg
  obtain ⟨-, rfl⟩ := prevBlock_ok hp hprev
  cases htot
  cases hblk
  cases h
  rfl

theorem tTot_of_noMotion (h : (doNoMotion (K := K)).run s = .ok n t) :
    t.data.tTot = s.data.tTot + s.data.machine.tq := by
  simp only [doNoMotion, bind_eq_ok, currentBlock_ok, raise_ok] at h
  obtain ⟨b, _, ⟨p, hp, hb, rfl⟩, _, _, ⟨-, rfl⟩, _, _, hg, _, _, htot, h⟩ := h
  cases hg
  cases htot
  cases h
  rfl

/-- The states in which a program is carried out. -/
def busyStates : List State := [.loadBlock, .rapidMotion, .interpMotion, .noMotion]

/-- Every evaluation of a session takes a tick. -/
theorem tTot_of_busy (hs : s.second ∈ busyStates) (ht : t.second ∈ busyStates)
    (h : (evalState env).run s = .ok () t) :
    t.data.tTot = s.data.tTot + s.data.machine.tq := by
  have hne : ¬ (s.second = .idle ∧ t.second = .loadBlock) := by
    rintro ⟨hidle, -⟩
    rw [hidle] at hs
    exact absurd hs (by decide)
  simp only [busyStates, List.mem_cons, List.not_mem_nil, or_false] at hs
  rcases hs with hs | hs | hs | hs
  · obtain ⟨n, s', hf, -, -, hnext, -⟩ := eval_of_wrapper (by rw [hs]; rfl) h
    obtain ⟨n', s'', hf', htr⟩ := eval_transition (by rw [hs]; rfl) h
    cases hf.symm.trans hf'
    have hn : n ≠ .idle := by
      rintro rfl
      have hidle : t.second = .idle := by
        rw [hnext, hs]
        rfl
      rw [hidle] at ht
      exact absurd ht (by decide)
    have hleft := tTot_of_load hf hn
    exact (transition_tTot hne htr).trans hleft
  · obtain ⟨n, s', hf, htr⟩ := eval_transition (by rw [hs]; rfl) h
    have hleft := tTot_of_rapid hf
    exact (transition_tTot hne htr).trans hleft
  · obtain ⟨n, s', hf, htr⟩ := eval_transition (by rw [hs]; rfl) h
    have hleft := tTot_of_interp hf
    exact (transition_tTot hne htr).trans hleft
  · obtain ⟨n, s', hf, htr⟩ := eval_transition (by rw [hs]; rfl) h
    have hleft := tTot_of_noMotion hf
    exact (transition_tTot hne htr).trans hleft

/-- The time in total begins at zero with a session. -/
theorem tTot_of_start (hs : s.second = .idle) (ht : t.second = .loadBlock)
    (h : (evalState env).run s = .ok () t) : t.data.tTot = num 0 := by
  obtain ⟨n, s', -, htr⟩ := eval_transition (by rw [hs]; rfl) h
  rw [hs, ht] at htr
  simp only [transition, resetRun, bind_eq_ok, getProgram_ok] at htr
  obtain ⟨p, _, ⟨hp, rfl⟩, _, _, hset, hm⟩ := htr
  cases hset
  cases hm
  rfl

/-- A session that is under way: the evaluation that started it, and the ones behind it. -/
structure Session (m : Machine K) (pre : List (Eval K)) (s : Fsm K) (e₀ : Eval K)
    (mid : List (Eval K)) : Prop where
  split : ∃ before, pre = before ++ e₀ :: mid
  idle : e₀.before.second = .idle
  start : e₀.after.second = .loadBlock
  busy : ∀ e ∈ mid, e.before.second ∈ busyStates
  tTot : s.data.tTot = ticksAfter m.tq (num 0) mid.length

/-- The last block of a session: the evaluation that loaded it, and the samples behind it. -/
structure Sampling (m : Machine K) (s : Fsm K) (mid : List (Eval K)) (l : Eval K)
    (samples : List (Eval K)) : Prop where
  split : ∃ before, mid = before ++ l :: samples
  load : l.before.second = .loadBlock
  interp : ∀ e ∈ samples, e.before.second = .interpMotion
  tBlk : s.data.tBlk = ticksAfter m.tq (num 0) samples.length

/-- Every busy state is one of a session. -/
structure Dated (m : Machine K) (pre : List (Eval K)) (s : Fsm K) : Prop where
  tick : s.data.machine.tq = m.tq
  session : s.second ∈ busyStates → ∃ e₀ mid, Session m pre s e₀ mid ∧
    (s.second = .interpMotion → ∃ l samples, Sampling m s mid l samples)

theorem Session.step {e₀ : Eval K} {mid : List (Eval K)} (h : Session m pre s e₀ mid)
    (htq : s.data.machine.tq = m.tq) (hs : s.second ∈ busyStates) (ht : t.second ∈ busyStates)
    (he : Evaluates e s t) : Session m (pre ++ [e]) t e₀ (mid ++ [e]) := by
  obtain ⟨rfl, rfl, -, hrun⟩ := he
  obtain ⟨before, rfl⟩ := h.split
  refine ⟨⟨before, by simp⟩, h.idle, h.start, ?_, ?_⟩
  · exact List.forall_mem_append.mpr ⟨h.busy, List.forall_mem_singleton.mpr hs⟩
  · rw [tTot_of_busy hs ht hrun, h.tTot, htq, List.length_append, List.length_singleton,
      ticksAfter_succ]

/-- A sample follows the load of its block, or another sample. -/
theorem sampling_step {mid : List (Eval K)} (htq : s.data.machine.tq = m.tq)
    (hs : s.second ∈ busyStates) (ht : t.second = .interpMotion)
    (h : s.second = .interpMotion → ∃ l samples, Sampling m s mid l samples)
    (he : Evaluates e s t) : ∃ l samples, Sampling m t (mid ++ [e]) l samples := by
  obtain ⟨rfl, rfl, -, hrun⟩ := he
  simp only [busyStates, List.mem_cons, List.not_mem_nil, or_false] at hs
  rcases hs with hs | hs | hs | hs
  · obtain ⟨p, hload⟩ := eval_loadBlock hs hrun
    exact ⟨e, [], ⟨mid, rfl⟩, hs, by simp, hload.clock ht⟩
  · obtain ⟨p, b, hev⟩ := eval_rapidMotion hs hrun
    rcases hev.next with ⟨hn, -⟩ | hn | hn
    · rw [hn] at ht; cases ht
    · rw [hn] at ht; cases ht
    · rw [hn, hs] at ht; cases ht
  · obtain ⟨l, samples, hsam⟩ := h hs
    obtain ⟨before, rfl⟩ := hsam.split
    obtain ⟨n, s', hf, htr⟩ := eval_transition (by rw [hs]; rfl) hrun
    have hleft := tBlk_of_interp hf
    have hmove : e.after.data.tBlk = e.before.data.tBlk + e.before.data.machine.tq :=
      (transition_tBlk (by rw [hs]; nofun) (by rw [hs]; nofun) htr).trans hleft
    refine ⟨l, samples ++ [e], ⟨before, by simp⟩, hsam.load, ?_, ?_⟩
    · exact List.forall_mem_append.mpr ⟨hsam.interp, List.forall_mem_singleton.mpr hs⟩
    · rw [hmove, hsam.tBlk, htq, List.length_append, List.length_singleton, ticksAfter_succ]
  · obtain ⟨p, b, hev⟩ := eval_noMotion hs hrun
    rw [hev.done] at ht
    cases ht

/-- A busy state is reached from a busy one, or from IDLE. -/
theorem busy_of_eval (ht : t.second ∈ busyStates) (he : Evaluates e s t) :
    s.second ∈ busyStates ∨ s.second = .idle ∧ t.second = .loadBlock := by
  obtain ⟨rfl, rfl, hne, hrun⟩ := he
  have hmem := eval_state hrun
  simp only [List.mem_cons, List.not_mem_nil, or_false] at hmem
  rcases hmem with hs | hs | hs | hs | hs | hs | hs | hs
  · rcases (eval_init hs hrun).next with ⟨hn, -⟩ | ⟨hn, -⟩ <;> simp [busyStates, hn] at ht
  · rcases (eval_idle hs hrun).key with ⟨-, hn | ⟨hn, -⟩, -⟩ | ⟨-, hn, -⟩ | ⟨-, -, hn, -⟩
    · simp [busyStates, hn] at ht
    · simp [busyStates, hn] at ht
    · exact .inr ⟨hs, hn⟩
    · rcases hn with hn | hn | hn <;> simp [busyStates, hn] at ht
  · exact .inl (by rw [hs]; decide)
  · exact .inl (by rw [hs]; decide)
  · exact .inl (by rw [hs]; decide)
  · exact .inl (by rw [hs]; decide)
  · rcases (eval_goToZero hs hrun).next with hn | hn | hn <;> simp [busyStates, hn] at ht
  · exact absurd hs hne

theorem Dated.step (h : Dated m pre s) (he : Evaluates e s t) : Dated m (pre ++ [e]) t := by
  refine ⟨(params_of_eval he).2.trans h.tick, fun ht => ?_⟩
  rcases busy_of_eval ht he with hs | ⟨hs, hload⟩
  · obtain ⟨e₀, mid, hses, hsam⟩ := h.session hs
    exact ⟨e₀, mid ++ [e], hses.step h.tick hs ht he, fun hi => sampling_step h.tick hs hi hsam he⟩
  · obtain ⟨rfl, rfl, -, hrun⟩ := he
    refine ⟨e, [], ⟨⟨pre, rfl⟩, hs, hload, by simp, tTot_of_start hs hload hrun⟩, fun hi => ?_⟩
    rw [hload] at hi
    cases hi

end Sessions

/-! ## The first row of a line -/

noncomputable section

open XReal

end

end Cncpp
