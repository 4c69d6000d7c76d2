import Cncpp.Execution

/-! Reloading the program while the machine waits in IDLE.  A load clears the list
before it reads the file, so a file with a bad line leaves what it had put there. -/

namespace Cncpp

open DataArith Lib Lib.ExceptState Fsm

variable {K : Type} [DataArith K]

/-! ## Reloads -/

/-- Whether the reload of an evaluation was accepted, if there was one and it could
open the file. -/
def reloaded (e : Eval K) : Option Bool :=
  if e.before.second = .idle ∧ (e.env.key = 'r' ∨ e.env.key = 'R') then
    match e.env.file, e.before.data.program with
    | some lines, some p =>
      match (Program.load e.before.data.machine e.before.data.programFile (some lines) false).run p with
      | .ok _ _ => some true
      | .error _ _ => some false
    | _, _ => none
  else none

/-- No run is started from the list that a failed reload has left: at each SPACE in
IDLE the last reload that could open the file, if there was one, had been accepted. -/
def StartsLoaded (es : List (Eval K)) : Prop :=
  ∀ pre e post, es = pre ++ e :: post → e.before.second = .idle → e.env.key = ' ' →
    lastOf reloaded pre ≠ some false

/-- The block that the state is about to carry out has been parsed. -/
def BlockParsed (s : Fsm K) : Prop :=
  s.second ∈ [State.rapidMotion, .interpMotion, .noMotion] →
    ∃ p b, s.data.program = some p ∧ p.deref = some b ∧ b.parsed = true

/-! ## The list across reloads -/

/-- What holds of the list when `v` is the outcome of the last reload.  Only IDLE and
GO_TO_ZERO are reached with a list that a failed reload has left. -/
structure Sound (v : Option Bool) (s : Fsm K) : Prop where
  waiting : s.second = .idle ∨ s.second = .goToZero → v ≠ some false →
    ∀ p, s.data.program = some p → p.Parsed
  running : s.second ∈ [State.loadBlock, .rapidMotion, .interpMotion, .noMotion] →
    ∀ p, s.data.program = some p → p.Parsed
  moving : s.second ∈ [State.rapidMotion, .interpMotion, .noMotion] →
    ∃ p b, s.data.program = some p ∧ p.deref = some b

omit [DataArith K] in
theorem Sound.blockParsed {v : Option Bool} {s : Fsm K} (h : Sound v s) : BlockParsed s := by
  intro hs
  obtain ⟨p, b, hp, hb⟩ := h.moving hs
  obtain ⟨a, -, ha⟩ := Option.bind_eq_some_iff.mp hb
  refine ⟨p, b, hp, hb, h.running (List.mem_cons_of_mem _ hs) p hp b ?_⟩
  exact List.mem_of_find?_eq_some ha

section Step

variable {v : Option Bool} {s t : Fsm K} {e : Eval K}

theorem reloaded_eq_none (h : s.second ≠ .idle) (he : Evaluates e s t) : reloaded e = none := by
  rw [reloaded, if_neg]
  rintro ⟨hi, -⟩
  exact h (he.1 ▸ hi)

omit [DataArith K] in
/-- A state that does not move a block, with a parsed list. -/
theorem Sound.of_parsed (hs : t.second ∉ [State.rapidMotion, .interpMotion, .noMotion])
    (h : ∀ p, t.data.program = some p → p.Parsed) : Sound v t :=
  ⟨fun _ _ => h, fun _ => h, fun hm => absurd hm hs⟩

omit [DataArith K] in
theorem Sound.of_stop (hs : t.second = .stop) : Sound v t := by
  refine ⟨fun h => ?_, fun h => ?_, fun h => ?_⟩
  · rw [hs] at h
    exact absurd h (by decide)
  · rw [hs] at h
    exact absurd h (by decide)
  · rw [hs] at h
    exact absurd h (by decide)

theorem sound_init (hs : s.second = .init) (he : Evaluates e s t) : Sound v t := by
  obtain ⟨rfl, rfl, -, h⟩ := he
  rcases (eval_init hs h).next with ⟨hsec, -⟩ | ⟨hsec, p, hload, hprog⟩
  · exact .of_stop hsec
  · refine .of_parsed (by rw [hsec]; decide) fun q hq => ?_
    cases hprog.symm.trans hq
    exact Program.parsed_load hload

/-- Reloading: an accepted file gives a parsed list, a file that cannot be opened leaves
the list as it is. -/
theorem parsed_of_reload {p q : Program K} (hidle : e.before.second = .idle)
    (hk : e.env.key = 'r' ∨ e.env.key = 'R') (hp : e.before.data.program = some p)
    (hq : q = state ((Program.load e.before.data.machine e.before.data.programFile e.env.file
      false).run p)) (hv : (reloaded e).or v ≠ some false) (h : v ≠ some false → p.Parsed) :
    q.Parsed := by
  rw [reloaded, if_pos ⟨hidle, hk⟩, hp] at hv
  cases hf : e.env.file with
  | none =>
    rw [hf] at hq hv
    rw [hq]
    exact h hv
  | some lines =>
    rw [hf] at hq hv
    dsimp only at hv
    cases hl : (Program.load e.before.data.machine e.before.data.programFile (some lines)
      false).run p with
    | ok _ q' =>
      rw [hl] at hq
      rw [hq]
      exact Program.parsed_load hl
    | error _ _ =>
      rw [hl] at hv
      exact absurd rfl hv

theorem sound_idle (hs : s.second = .idle) (h : Sound v s) (he : Evaluates e s t)
    (hstart : e.env.key = ' ' → v ≠ some false) : Sound ((reloaded e).or v) t := by
  obtain ⟨rfl, rfl, -, hev⟩ := he
  have hidle := h.waiting (.inl hs)
  rcases (eval_idle hs hev).key with ⟨hk, hsec, p, hp, hq⟩ | ⟨hk, hsec, p, hp, hq⟩ | ⟨hnr, -, hsec, hq⟩
  · rcases hsec with hsec | ⟨hsec, -⟩
    · refine ⟨fun _ hv q hq' => ?_, fun hr => ?_, fun hm => ?_⟩
      · cases hq.symm.trans hq'
        exact parsed_of_reload hs hk hp rfl hv fun hv => hidle hv p hp
      · rw [hsec] at hr
        exact absurd hr (by decide)
      · rw [hsec] at hm
        exact absurd hm (by decide)
    · exact .of_stop hsec
  · refine .of_parsed (by rw [hsec]; decide) fun q hq' => ?_
    cases hq.symm.trans hq'
    exact hidle (hstart hk) p hp
  · have hnone : reloaded e = none := by
      rw [reloaded, if_neg]
      rintro ⟨-, hk⟩
      exact hnr hk
    rw [hnone, Option.none_or]
    have hout : e.after.second ∉ [State.loadBlock, .rapidMotion, .interpMotion, .noMotion] := by
      rcases hsec with hsec | hsec | hsec <;> rw [hsec] <;> decide
    exact ⟨fun _ hv p hp => hidle hv p (hq ▸ hp), fun hr => absurd hr hout,
      fun hm => absurd (List.mem_cons_of_mem _ hm) hout⟩

theorem sound_load (hs : s.second = .loadBlock) (h : Sound v s) (he : Evaluates e s t) :
    Sound v t := by
  obtain ⟨rfl, rfl, -, hev⟩ := he
  obtain ⟨p, hload⟩ := eval_loadBlock hs hev
  have hpar : p.Parsed := h.running (by rw [hs]; decide) p hload.before
  have hall : ∀ q, e.after.data.program = some q → q.Parsed := by
    intro q hq
    cases hload.after.symm.trans hq
    exact hpar
  rcases hload.next with ⟨-, hsec⟩ | ⟨-, b, hb, -⟩
  · exact .of_parsed (by rw [hsec]; decide) hall
  · exact ⟨fun _ _ => hall, fun _ => hall, fun _ => ⟨_, b, hload.after, hb⟩⟩

omit [DataArith K] in
theorem sound_move {p : Program K} {b : Block K}
    (hs : s.second ∈ [State.rapidMotion, .interpMotion, .noMotion]) (h : Sound v s)
    (hm : MoveEval s t p b) : Sound v t := by
  have hpar : p.Parsed := h.running (List.mem_cons_of_mem _ hs) p hm.before
  have hall : ∀ q, t.data.program = some q → q.Parsed := by
    intro q hq
    cases hm.after.symm.trans hq
    exact hpar
  exact ⟨fun _ _ => hall, fun _ => hall, fun _ => ⟨p, b, hm.after, hm.block⟩⟩

theorem sound_zero (hs : s.second = .goToZero) (h : Sound v s) (he : Evaluates e s t) :
    Sound v t := by
  obtain ⟨rfl, rfl, -, hev⟩ := he
  have hz := eval_goToZero hs hev
  have hout : e.after.second ∉ [State.loadBlock, .rapidMotion, .interpMotion, .noMotion] := by
    rcases hz.next with hsec | hsec | hsec <;> rw [hsec] <;> decide
  exact ⟨fun _ hv p hp => h.waiting (.inr hs) hv p (hz.program ▸ hp), fun hr => absurd hr hout,
    fun hm => absurd (List.mem_cons_of_mem _ hm) hout⟩

/-- One evaluation. -/
theorem sound_step (h : Sound v s) (he : Evaluates e s t)
    (hstart : s.second = .idle → e.env.key = ' ' → v ≠ some false) :
    Sound ((reloaded e).or v) t := by
  have hev := he.2.2.2
  by_cases hi : s.second = .idle
  · exact sound_idle hi h he (hstart hi)
  rw [reloaded_eq_none hi he, Option.none_or]
  have hmem := eval_state hev
  simp only [List.mem_cons, List.not_mem_nil, or_false] at hmem
  rcases hmem with hs | hs | hs | hs | hs | hs | hs | hs
  · exact sound_init hs he
  · exact absurd hs hi
  · exact sound_load hs h he
  · obtain ⟨p, b, hm⟩ := eval_rapidMotion hs hev
    exact sound_move (by rw [hs]; decide) h hm.toMoveEval
  · obtain ⟨p, b, prev, tgt, hm⟩ := eval_interpMotion hs hev
    exact sound_move (by rw [hs]; decide) h hm.toMoveEval
  · obtain ⟨p, b, hm⟩ := eval_noMotion hs hev
    exact sound_move (by rw [hs]; decide) h hm.toMoveEval
  · exact sound_zero hs h he
  · exact absurd hs he.2.2.1

end Step

/-! ## Runs -/

omit [DataArith K] in
theorem sound_setup (d : FsmData K) : Sound none (setup .init d) where
  waiting h := by rcases h with h | h <;> cases h
  running h := by
    simp only [setup, List.mem_cons, List.not_mem_nil, or_false] at h
    rcases h with h | h | h | h <;> cases h
  moving h := by
    simp only [setup, List.mem_cons, List.not_mem_nil, or_false] at h
    rcases h with h | h | h <;> cases h

theorem sound_run {v : Option Bool} {s t : Fsm K} {es : List (Eval K)} (hr : FsmRun s es t)
    (h : Sound v s)
    (hstart : ∀ pre e post, es = pre ++ e :: post → e.before.second = .idle → e.env.key = ' ' →
      (lastOf reloaded pre).or v ≠ some false) : Sound ((lastOf reloaded es).or v) t := by
  induction hr generalizing v with
  | nil s => exact h
  | @cons e s u t es he hr ih =>
    have hhead : s.second = .idle → e.env.key = ' ' → v ≠ some false := by
      intro hi hk
      exact hstart [] e es rfl (he.1 ▸ hi) hk
    rw [lastOf_cons, Option.or_assoc]
    refine ih (sound_step h he hhead) fun pre e' post hes hi hk => ?_
    rw [← Option.or_assoc, ← lastOf_cons]
    exact hstart (e :: pre) e' post (by rw [hes, List.cons_append]) hi hk

/-- In a run from INIT that never starts from the list of a failed reload, every block
that is carried out has been parsed. -/
theorem block_parsed_of_starts {d : FsmData K} {es : List (Eval K)} {t : Fsm K}
    (hr : FsmRun (setup .init d) es t) (hstart : StartsLoaded es) : BlockParsed t := by
  refine (sound_run hr (sound_setup d) fun pre e post hes hi hk => ?_).blockParsed
  rw [Option.or_none]
  exact hstart pre e post hes hi hk

/-- A file that is loaded and run. -/
theorem block_parsed_of_starts_sample : ∃ (es : List (Eval XReal)) (t : Fsm XReal),
    FsmRun (setup .init partData) es t ∧ StartsLoaded es ∧ t.second = .rapidMotion ∧
      BlockParsed t := by
  obtain ⟨p, b, e₁, e₀, e₂, t, h, -, hrapid⟩ := exists_rapid_opening (K := XReal)
  have hnone : ∀ e ∈ [e₁, e₀, e₂], reloaded e = none := by
    have hkey : ∀ e ∈ [e₁, e₀, e₂], ¬ (e.env.key = 'r' ∨ e.env.key = 'R') := by
      simp only [List.mem_cons, List.not_mem_nil, or_false, forall_eq_or_imp, forall_eq, h.file,
        h.space, h.first]
      decide
    intro e he
    rw [reloaded, if_neg fun hc => hkey e he hc.2]
  have hstart : StartsLoaded [e₁, e₀, e₂] := by
    intro pre e post hes _ _
    rw [lastOf_eq_none _ fun a ha => hnone a (by rw [hes]; exact List.mem_append_left _ ha)]
    nofun
  exact ⟨_, t, h.run, hstart, hrapid, block_parsed_of_starts h.run hstart⟩

/-- The block of the line "G1 F": its type has been read, and then parsing failed. -/
def unparsedBlock (addr : Addr) : Block K :=
  { Block.ofLine addr "G1 F".toList with hasMachine := true, type := .line }

/-- The list that a reload leaves which fails on the line "G1 F". -/
def leftBehind (file : String) (p : Program K) : Program K :=
  { p with
    blocks := [unparsedBlock p.fresh]
    filename := file
    current := none
    done := false
    fresh := p.fresh + 1 }

theorem load_bad_line (m : Machine K) (file : String) (p : Program K) :
    state ((Program.load m file (some ["G1 F".toList]) false).run p) = leftBehind file p := rfl

theorem leftBehind_deref (file : String) (p : Program K) :
    (leftBehind file p).rewind.loadNext.deref = some (unparsedBlock p.fresh) := by
  simp [leftBehind, Program.rewind, Program.loadNext, Program.deref, Program.find]

/-- The program is reloaded from a file with a bad line, and the machine started: it
turns to the block of that line, which has not been parsed. -/
theorem reaches_unparsed : ∃ (es : List (Eval XReal)) (t : Fsm XReal),
    FsmRun (setup .init partData) es t ∧
      es.map (·.env) = [{ file := some ["G0 X1".toList] },
        { key := 'r', file := some ["G1 F".toList] }, { key := ' ' }, {}] ∧
      t.second = .interpMotion ∧ ¬ BlockParsed t := by
  obtain ⟨p, hload⟩ := exists_load (K := XReal) Machine.default "part.g" ["G0 X1".toList]
    (by decide +kernel) (by decide +kernel)
  obtain ⟨e₁, s₁, h1, henv1, hs1, -⟩ := exists_init (d := partData) rfl hload
  obtain ⟨e₂, s₂, h2, henv2, hs2, -⟩ := exists_reload hs1 (some ["G1 F".toList])
  rw [load_bad_line] at hs2
  obtain ⟨e₃, s₃, h3, henv3, hs3, -⟩ := exists_space hs2
  have hd := leftBehind_deref s₁.data.programFile p
  obtain ⟨e₄, t, h4, henv4, ht, -⟩ := exists_next hs3 hd rfl
  have hsec : t.second = .interpMotion := ht.second
  refine ⟨[e₁, e₂, e₃, e₄], t, .cons h1 (.cons h2 (.cons h3 (.single h4))), ?_, hsec, ?_⟩
  · rw [List.map_cons, List.map_cons, List.map_cons, List.map_cons, henv1, henv2, henv3, henv4,
      List.map_nil]
  · intro hb
    obtain ⟨q, b, hq, hb, hpar⟩ := hb (by rw [hsec]; decide)
    cases ht.program.symm.trans hq
    cases hd.symm.trans hb
    cases hpar

end Cncpp
