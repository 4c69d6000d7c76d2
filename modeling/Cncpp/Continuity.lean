import Cncpp.Endpoints
import Cncpp.Execution

/-! The path that a program run commands.  An interpolated block starts at the target of
the block before it, whether that block was carried out there or not: a block without
motion moves the target and commands nothing. -/

namespace Cncpp

open DataArith Lib Lib.ExceptState Fsm

variable {K : Type}

/-! ## Commands -/

/-- The setpoint that an evaluation commands. -/
def commandOf (e : Eval K) : Option (Point K) :=
  match e.before.second with
  | .rapidMotion | .interpMotion | .goToZero => some e.after.data.machine.setpoint
  | _ => none

/-- The block `b`, at `j`, is the last of the first `n` that commands setpoints, and `P` is
the last of them: its target, if it ends there. -/
structure LeftBy (bs : List (Block K)) (Ends : ℕ → Prop) (n : ℕ) (P : Point K) (j : ℕ)
    (b : Block K) : Prop where
  lt : j < n
  block : bs[j]? = some b
  commands : b.type ≠ .noMotion
  last : ∀ i c, j < i → i < n → bs[i]? = some c → c.type = .noMotion
  ends : Ends j → P = b.target

/-- The last setpoint, once `n` blocks have been carried out. -/
def Drawn (bs : List (Block K)) (Ends : ℕ → Prop) (n : ℕ) (o : Option (Point K)) : Prop :=
  ∀ P ∈ o, ∃ j b, LeftBy bs Ends n P j b

section Drawn

variable {bs : List (Block K)} {Ends : ℕ → Prop} {n : ℕ} {o : Option (Point K)} {b : Block K}

/-- A block without motion commands nothing. -/
theorem Drawn.skip (h : Drawn bs Ends n o) (hb : bs[n]? = some b) (ht : b.type = .noMotion) :
    Drawn bs Ends (n + 1) o := by
  intro P hP
  obtain ⟨j, c, hj⟩ := h P hP
  refine ⟨j, c, Nat.lt_succ_of_lt hj.lt, hj.block, hj.commands, fun i d hji hin hd => ?_, hj.ends⟩
  rcases Nat.lt_succ_iff_lt_or_eq.mp hin with hin | rfl
  · exact hj.last i d hji hin hd
  · cases hb.symm.trans hd
    exact ht

theorem drawn_of_move {P : Point K} (hb : bs[n]? = some b) (ht : b.type ≠ .noMotion)
    (hP : Ends n → P = b.target) : Drawn bs Ends (n + 1) (some P) := by
  intro Q hQ
  cases hQ
  exact ⟨n, b, Nat.lt_succ_self n, hb, ht, fun i c hni hin _ => by omega, hP⟩

end Drawn

/-! ## Block states -/

section BlockState

variable {type : BlockType}

theorem rapid_of_blockState (h : blockState type = .rapidMotion) : type = .rapid := by
  unfold blockState at h
  split_ifs at h
  assumption

theorem interpolated_of_blockState (h : blockState type = .interpMotion) : type.Interpolated := by
  unfold blockState at h
  split_ifs at h with _ _ h'
  exact h'

theorem noMotion_of_blockState (h : blockState type = .noMotion) : type = .noMotion := by
  unfold blockState at h
  split_ifs at h
  assumption

end BlockState

variable [DataArith K]

/-! ## The parameters of the machine -/

/-- No evaluation changes the reference point or the tick. -/
theorem params_of_eval {e : Eval K} {s t : Fsm K} (he : Evaluates e s t) :
    t.data.machine.zero = s.data.machine.zero ∧ t.data.machine.tq = s.data.machine.tq := by
  obtain ⟨rfl, rfl, hne, hev⟩ := he
  have hsame : e.after.data.machine = e.before.data.machine →
      e.after.data.machine.zero = e.before.data.machine.zero ∧
        e.after.data.machine.tq = e.before.data.machine.tq := fun h => by rw [h]; exact ⟨rfl, rfl⟩
  have hmem := eval_state hev
  simp only [List.mem_cons, List.not_mem_nil, or_false] at hmem
  rcases hmem with hs | hs | hs | hs | hs | hs | hs | hs
  · exact hsame (eval_init hs hev).machine
  · exact hsame (eval_idle hs hev).machine
  · obtain ⟨p, h⟩ := eval_loadBlock hs hev
    exact hsame h.machine
  · obtain ⟨p, b, h⟩ := eval_rapidMotion hs hev
    exact ⟨h.commanded.zero, h.commanded.tq⟩
  · obtain ⟨p, b, prev, tgt, h⟩ := eval_interpMotion hs hev
    exact ⟨h.commanded.zero, h.commanded.tq⟩
  · obtain ⟨p, b, h⟩ := eval_noMotion hs hev
    exact hsame h.machine
  · have h := (eval_goToZero hs hev).commanded
    exact ⟨h.zero, h.tq⟩
  · exact absurd hs hne

theorem params_of_run {s t : Fsm K} {es : List (Eval K)} (hr : FsmRun s es t) :
    t.data.machine.zero = s.data.machine.zero ∧ t.data.machine.tq = s.data.machine.tq := by
  induction hr with
  | nil s => exact ⟨rfl, rfl⟩
  | cons he _ ih =>
    obtain ⟨hz, hq⟩ := params_of_eval he
    exact ⟨ih.1.trans hz, ih.2.trans hq⟩

theorem ProgramRun.params {d : FsmData K} {bs : List (Block K)} {pre es : List (Eval K)}
    {e₀ : Eval K} {t : Fsm K} (h : ProgramRun d bs pre e₀ es t) :
    e₀.after.data.machine.zero = d.machine.zero ∧ e₀.after.data.machine.tq = d.machine.tq := by
  obtain ⟨u, hpre, hr⟩ := h.run.append_split
  cases hr with
  | cons he _ =>
    obtain ⟨hz, hq⟩ := params_of_run hpre
    obtain ⟨hz', hq'⟩ := params_of_eval he
    rw [he.2.1]
    exact ⟨hz'.trans hz, hq'.trans hq⟩

/-! ## The machine along a program run -/

/-- A run over `bs` in which `o` is the last setpoint so far.  Until a loaded block is
evaluated, and after one without motion, it is what the blocks before have left. -/
inductive Traced (bs : List (Block K)) (Ends : ℕ → Prop) (o : Option (Point K)) (s : Fsm K) : Prop
  | ready {q : Program K} {n : ℕ} : s.second = .loadBlock → Walk bs s q n → Drawn bs Ends n o →
      Traced bs Ends o s
  | moving {q : Program K} {n : ℕ} {b : Block K} : s.second = blockState b.type →
      b.type.Known → bs[n]? = some b → Walk bs s q (n + 1) →
      (s.first = .loadBlock ∨ s.second = .noMotion → Drawn bs Ends n o) →
      (s.first = .loadBlock → s.second = .interpMotion → s.data.tBlk = num 0) →
      Traced bs Ends o s
  | finished : s.second = .idle ∨ s.second = .stop → Traced bs Ends o s

section Step

variable {bs : List (Block K)} {Ends : ℕ → Prop} {o : Option (Point K)} {s t : Fsm K} {e : Eval K}

theorem traced_load (hc : Chain bs) {q : Program K} {n : ℕ} (hs : s.second = .loadBlock)
    (hw : Walk bs s q n) (hd : Drawn bs Ends n o) (he : Evaluates e s t) :
    Traced bs Ends ((commandOf e).or o) t := by
  have hcmd : commandOf e = none := by rw [commandOf, he.1, hs]
  have hclock : t.second = .interpMotion → t.data.tBlk = num 0 := by
    obtain ⟨rfl, rfl, -, hev⟩ := he
    obtain ⟨q', hload⟩ := eval_loadBlock hs hev
    exact hload.clock
  rw [hcmd, Option.none_or]
  rcases walk_load hc hs hw he with ⟨b, hb, -, hsec, -, hw⟩ | ⟨-, hsec, -⟩
  · by_cases hk : b.type.Known
    · exact .moving hsec hk hb hw (fun _ => hd) fun _ => hclock
    · exact .finished (.inl (hsec.trans (BlockType.blockState_eq_idle.mpr hk)))
  · exact .finished (.inl hsec)

/-- A block that commands setpoints: on the way its last one is `P`, and when it is done
`P` is where it ends. -/
theorem traced_move {q q' : Program K} {n : ℕ} {b b' : Block K} {P : Point K}
    (hs : s.second = blockState b.type) (hk : b.type.Known) (hb : bs[n]? = some b)
    (hw : Walk bs s q (n + 1)) (hm : MoveEval s t q' b') (hfirst : t.first = s.second)
    (hne : s.second ≠ .loadBlock) (hnm : b.type ≠ .noMotion)
    (hP : t.second = .loadBlock → Ends n → P = b.target) : Traced bs Ends (some P) t := by
  cases hw.program.symm.trans hm.before
  have hw' : Walk bs t q (n + 1) := ⟨hm.after, hw.blocks, hw.cursor⟩
  rcases hm.next with ⟨h, -⟩ | h | h
  · exact .finished (.inr h)
  · exact .ready h hw' (drawn_of_move hb hnm (hP h))
  · refine .moving (h.trans hs) hk hb hw' (fun hor => ?_) fun hf => ?_
    · rcases hor with hf | hn
      · exact absurd (hfirst.symm.trans hf) hne
      · exact absurd (noMotion_of_blockState (hs.symm.trans (h.symm.trans hn))) hnm
    · exact absurd (hfirst.symm.trans hf) hne

end Step

/-! ## Programs -/

section Programs

variable {m : Machine XReal} {edits : List Edit} {p : Program XReal} {A tq : ℝ}
  {s t : Fsm XReal} {e : Eval XReal} {o : Option (Point XReal)}

/-- The block at `i` ends at its target. -/
def EndsAt (m : Machine XReal) (text : List Line) (bs : List (Block XReal)) (i : ℕ) : Prop :=
  ∀ line b, text[i]? = some line → bs[i]? = some b → EndsAtTarget m (text.take i) line b

/-- A block starts from the modal target of the lines before it. -/
theorem origin_of_prevIn (hp : Run (Edited m) Program.empty edits p) {q : Program XReal}
    (hq : q.blocks = p.blocks) {n : ℕ} {b : Block XReal} {prev : Option (Block XReal)}
    (hb : p.blocks[n]? = some b) (hprev : PrevIn q b prev) {m' : Machine XReal}
    (hz : m'.zero = m.zero) : Block.origin m' prev = modalTarget m ((textOf edits).take n) := by
  have hc := chain_of_edits hp
  have hpe := hc.prev_eq hb
  cases n with
  | zero =>
    rw [if_pos rfl] at hpe
    cases prev with
    | none =>
      have h0 : Block.origin m none = modalTarget m [] := Block.origin_of_carried rfl
      exact hz.trans h0
    | some r =>
      obtain ⟨a, ha, -⟩ := hprev
      rw [hpe] at ha
      cases ha
  | succ n =>
    have hn : n < p.blocks.length := by
      have := (List.getElem?_eq_some_iff.mp hb).1
      omega
    have ha := List.getElem?_eq_getElem hn
    rw [if_neg (Nat.succ_ne_zero n), Nat.add_sub_cancel, ha, Option.map_some] at hpe
    cases prev with
    | none =>
      rw [show b.prev = none from hprev] at hpe
      cases hpe
    | some r =>
      obtain ⟨a, ha', hr⟩ := hprev
      cases hpe.symm.trans ha'
      rw [Program.find, hq, find_of_get hc.nodup ha] at hr
      cases hr
      rw [length_of_edits hp] at hn
      exact (modal_of_edits hp (List.getElem?_eq_getElem hn) ha).target

theorem exists_line (hp : Run (Edited m) Program.empty edits p) {n : ℕ} {b : Block XReal}
    (hb : p.blocks[n]? = some b) :
    ∃ line, (textOf edits)[n]? = some line ∧ MadeFrom m ((textOf edits).take n) line b := by
  have hn := (List.getElem?_eq_some_iff.mp hb).1
  rw [length_of_edits hp] at hn
  have hl := List.getElem?_eq_getElem hn
  exact ⟨_, hl, madeFrom_of_edits hp hl hb⟩

/-- One evaluation of a program run. -/
theorem traced_step (hp : Run (Edited m) Program.empty edits p)
    (hA : m.A = .fin A) (hA0 : 0 < A) (htq : m.tq = .fin tq) (htq0 : 0 < tq)
    (hz : s.data.machine.zero = m.zero) (hq : s.data.machine.tq = m.tq)
    (hT : Traced p.blocks (EndsAt m (textOf edits) p.blocks) o s) (he : Evaluates e s t)
    (hidle : s.second ≠ .idle) :
    Traced p.blocks (EndsAt m (textOf edits) p.blocks) ((commandOf e).or o) t := by
  have hc := chain_of_edits hp
  cases hT with
  | ready hs hw hd => exact traced_load hc hs hw hd he
  | finished hs => exact absurd (hs.resolve_left hidle) he.2.2.1
  | @moving q n b hs hk hb hw hd hclock =>
    have hderef := hw.deref hc hb
    obtain ⟨rfl, rfl, hne, hev⟩ := he
    have hmem := BlockType.blockState_known hk
    rw [← hs] at hmem
    simp only [List.mem_cons, List.not_mem_nil, or_false] at hmem
    rcases hmem with hm | hm | hm
    · obtain ⟨q', b', h⟩ := eval_rapidMotion hm hev
      have hcmd : commandOf e = some e.after.data.machine.setpoint := by rw [commandOf, hm]
      have htype := rapid_of_blockState (hs.symm.trans hm)
      have hb' : b' = b := by
        have hbq := h.block
        cases hw.program.symm.trans h.before
        cases hderef.symm.trans hbq
        rfl
      rw [hcmd, Option.some_or, h.commanded.setpoint, hb']
      exact traced_move hs hk hb hw h.toMoveEval h.first (by rw [hm]; decide)
        (by rw [htype]; decide) fun _ _ => rfl
    · obtain ⟨q', b', prev, tgt, h⟩ := eval_interpMotion hm hev
      have hcmd : commandOf e = some e.after.data.machine.setpoint := by rw [commandOf, hm]
      have htype := interpolated_of_blockState (hs.symm.trans hm)
      cases hw.program.symm.trans h.before
      cases hderef.symm.trans h.block
      rw [hcmd, Option.some_or, h.commanded.setpoint]
      refine traced_move hs hk hb hw h.toMoveEval h.first (by rw [hm]; decide) ?_ fun hl hend => ?_
      · rintro hno
        rw [hno] at htype
        exact absurd htype (by decide)
      · obtain ⟨line, hl', hmade⟩ := exists_line hp hb
        obtain ⟨smp, hint⟩ := h.setpoint
        have ho := origin_of_prevIn hp hw.blocks hb h.prev_eq hz
        obtain ⟨smp', hint'⟩ := last_setpoint hmade htype hA hA0 htq htq0 (hend line b hl' hb) ho hq
          (h.last hl)
        cases hint.symm.trans hint'
        rfl
    · obtain ⟨q', b', h⟩ := eval_noMotion hm hev
      have hcmd : commandOf e = none := by rw [commandOf, hm]
      cases hw.program.symm.trans h.before
      rw [hcmd, Option.none_or]
      exact .ready h.done ⟨h.after, hw.blocks, hw.cursor⟩
        ((hd (.inr hm)).skip hb (noMotion_of_blockState (hs.symm.trans hm)))

theorem traced_run (hp : Run (Edited m) Program.empty edits p)
    (hA : m.A = .fin A) (hA0 : 0 < A) (htq : m.tq = .fin tq) (htq0 : 0 < tq)
    {es : List (Eval XReal)} (hr : FsmRun s es t)
    (hz : s.data.machine.zero = m.zero) (hq : s.data.machine.tq = m.tq)
    (hT : Traced p.blocks (EndsAt m (textOf edits) p.blocks) o s)
    (hbusy : ∀ e ∈ es, e.before.second ≠ .idle) :
    Traced p.blocks (EndsAt m (textOf edits) p.blocks) ((lastOf commandOf es).or o) t := by
  induction hr generalizing o with
  | nil s => exact hT
  | @cons e s u t es he hr ih =>
    obtain ⟨hz', hq'⟩ := params_of_eval he
    have hidle : s.second ≠ .idle := he.1 ▸ hbusy e (by simp)
    rw [lastOf_cons, Option.or_assoc]
    exact ih (hz'.trans hz) (hq'.trans hq) (traced_step hp hA hA0 htq htq0 hz hq hT he hidle)
      fun e' he' => hbusy e' (by simp [he'])

/-- Entering INTERP_MOTION for a block with a well-defined profile, the machine starts
from the modal target of the lines before.  That is where the last block that commanded
setpoints has left it, as long as this block ends at its target and no block without
motion has moved the target since. -/
theorem path_continues (hp : Run (Edited m) Program.empty edits p)
    (hA : m.A = .fin A) (hA0 : 0 < A) (htq : m.tq = .fin tq) (htq0 : 0 < tq)
    {d : FsmData XReal} {pre es post : List (Eval XReal)} {e₀ : Eval XReal}
    (h : ProgramRun d p.blocks pre e₀ (es ++ e :: post) t)
    (hz : d.machine.zero = m.zero) (hq : d.machine.tq = m.tq)
    (hin : e.before.second = .interpMotion) (hentry : e.before.first = .loadBlock) :
    ∃ k line c, (textOf edits)[k]? = some line ∧ p.blocks[k]? = some c ∧
      e.before.cursor = some c.addr ∧ c.type.Interpolated ∧
      (Drawable m ((textOf edits).take k) line c →
        e.after.data.machine.setpoint = modalTarget m ((textOf edits).take k)) ∧
      ∀ P, lastOf commandOf es = some P →
        ∃ j b, LeftBy p.blocks (EndsAt m (textOf edits) p.blocks) k P j b ∧
          (Drawable m ((textOf edits).take k) line c → EndsAt m (textOf edits) p.blocks j →
            modalTarget m ((textOf edits).take k) = b.target →
            e.after.data.machine.setpoint = P) := by
  obtain ⟨hr, -, hsec, q₀, hphase⟩ := h.start
  obtain ⟨hz₀, hq₀⟩ := h.params
  have hT₀ : Traced p.blocks (EndsAt m (textOf edits) p.blocks) none e₀.after :=
    .ready hsec hphase.toWalk nofun
  obtain ⟨u, hes, hr⟩ := hr.append_split
  cases hr with
  | cons he _ =>
    obtain ⟨rfl, rfl, -, hev⟩ := he
    have hT := traced_run hp hA hA0 htq htq0 hes (hz₀.trans hz) (hq₀.trans hq) hT₀
      fun e' he' => h.busy e' (List.mem_append_left _ he')
    rw [Option.or_none] at hT
    obtain ⟨hzu, -⟩ := params_of_run hes
    have hzu := hzu.trans (hz₀.trans hz)
    cases hT with
    | ready hs _ _ =>
      rw [hin] at hs
      cases hs
    | finished hs => rcases hs with hs | hs <;> rw [hin] at hs <;> cases hs
    | @moving q n b hs hk hb hw hd hclock =>
      obtain ⟨line, hl, hmade⟩ := exists_line hp hb
      have htype := interpolated_of_blockState (hs.symm.trans hin)
      have hfirst : Drawable m ((textOf edits).take n) line b →
          e.after.data.machine.setpoint = modalTarget m ((textOf edits).take n) := by
        intro hdraw
        obtain ⟨q', b', prev, tgt, hi⟩ := eval_interpMotion hin hev
        have hderef := hw.deref (chain_of_edits hp) hb
        cases hw.program.symm.trans hi.before
        cases hderef.symm.trans hi.block
        have ho := origin_of_prevIn hp hw.blocks hb hi.prev_eq hzu
        obtain ⟨smp, hint⟩ := hi.setpoint
        rw [hclock hentry hin] at hint
        obtain ⟨smp', hint'⟩ := first_setpoint hmade htype hA hA0 htq htq0 hdraw ho
        cases hint.symm.trans hint'
        exact hi.commanded.setpoint
      refine ⟨n, line, b, hl, hb, hw.cursor_eq hb, htype, hfirst, fun P hP => ?_⟩
      obtain ⟨j, c, hj⟩ := hd (.inl hentry) P hP
      exact ⟨j, c, hj, fun hdraw hends htgt =>
        (hfirst hdraw).trans (htgt.trans (hj.ends hends).symm)⟩

end Programs

/-! ## Entering a line -/

section Entry

variable {edits : List Edit} {p q : Program XReal} {s : Fsm XReal} {n : ℕ} {c : Block XReal}
  {line : Line}

/-- The default machine loads a block with a well-defined profile, and commands its first
setpoint. -/
theorem exists_entry (hp : Run (Edited Machine.default) Program.empty edits p)
    (hs : Standing .loadBlock q s) (hq : q.blocks = p.blocks) (hcur : q.CursorAt (n + 1))
    (hc : p.blocks[n + 1]? = some c) (hl : (textOf edits)[n + 1]? = some line)
    (ht : c.type.Interpolated)
    (hd : Drawable Machine.default ((textOf edits).take (n + 1)) line c)
    (hz : s.data.machine.zero = (Machine.default : Machine XReal).zero) :
    ∃ e₁ e₂ u t, Evaluates e₁ s u ∧ e₁.env = {} ∧ Evaluates e₂ u t ∧ e₂.env = {} ∧
      u.second = .interpMotion ∧ u.first = .loadBlock ∧ u.cursor = some c.addr ∧
      t.data.machine.setpoint = modalTarget Machine.default ((textOf edits).take (n + 1)) := by
  have hchain : Chain q.blocks := hq ▸ chain_of_edits hp
  rw [← hq] at hc
  obtain ⟨hderef, hdone, hcur'⟩ := Program.loadNext_of_get hchain hcur hc
  obtain ⟨e₁, u, h1, henv1, hu, hm, hclock⟩ := exists_next hs hderef hdone
  rw [BlockType.blockState_of_interpolated ht] at hu
  have hn : n < q.blocks.length := by
    have := (List.getElem?_eq_some_iff.mp hc).1
    omega
  have hbl : q.loadNext.blocks = p.blocks := hq
  have hprev : PrevIn q.loadNext c (some q.blocks[n]) :=
    prevIn_of_get hchain hc (List.getElem?_eq_getElem hn)
  have hzu : u.data.machine.zero = (Machine.default : Machine XReal).zero := by rw [hm, hz]
  obtain ⟨hA, htq⟩ := default_limits
  have hmade := madeFrom_of_edits hp hl (hq ▸ hc)
  obtain ⟨smp, hint⟩ := first_setpoint hmade ht hA (by norm_num) htq (by norm_num) hd
    (origin_of_prevIn hp hbl (hq ▸ hc) hprev hzu)
  rw [← hclock hu.second] at hint
  have h2 := eval_interp quiet_default hu.toCalm hu.program hderef hprev hint
    (setSetpoint_run hu.agent _)
  have hfirst : u.first = .loadBlock := by
    obtain ⟨q', hev⟩ := eval_loadBlock hs.second h1.2.2.2
    exact hev.first.trans hs.second
  have hw : Walk p.blocks u q.loadNext (n + 1 + 1) := ⟨hu.program, hq, hcur'⟩
  exact ⟨e₁, ⟨u, {}, _⟩, u, _, h1, henv1, ⟨rfl, rfl, by rw [hu.second]; decide, h2⟩, rfl, hu.second,
    hfirst, hw.cursor_eq (hq ▸ hc), rfl⟩

/-- The last words of a text put its target on the first axis. -/
structure Along (text : List Line) (x : ℚ) : Prop where
  x : lastOf (numeralWord 'X') (wordsOf text) = some (.finite x)
  y : lastOf (numeralWord 'Y') (wordsOf text) = none
  z : lastOf (numeralWord 'Z') (wordsOf text) = none

theorem Along.target {text : List Line} {x : ℚ} (h : Along text x) {v : ℝ} (hv : (x : ℝ) = v) :
    modalTarget (Machine.default : Machine XReal) text = .ofCoords (.fin v) (.fin 0) (.fin 0) :=
  hv ▸ modalTarget_along h.x h.y h.z

/-- A line of ten millimetres along the first axis is drawn. -/
theorem exists_drawable (hp : Run (Edited Machine.default) Program.empty edits p)
    (hl : (textOf edits)[n]? = some line) (ht : typeCode line = .line) {x : ℚ}
    (h0 : Along ((textOf edits).take n) x) (h1 : Along ((textOf edits).take n ++ [line]) (x + 10))
    (hF : lastOf (numeralWord 'F') (wordsOf ((textOf edits).take n ++ [line])) =
      some (.finite 100)) :
    ∃ c, p.blocks[n]? = some c ∧ c.type = .line ∧
      Drawable Machine.default ((textOf edits).take n) line c := by
  have hn : n < p.blocks.length := by
    rw [length_of_edits hp]
    exact (List.getElem?_eq_some_iff.mp hl).1
  have hc := List.getElem?_eq_getElem hn
  have hmade := madeFrom_of_edits hp hl hc
  have htype := hmade.type_eq.trans ht
  have h0 := h0.target rfl
  have h1 := h1.target (Rat.cast_add x 10)
  have hlen : (x : ℝ) + (10 : ℚ) - x = 10 := by
    rw [add_sub_cancel_left]
    norm_num
  have hleg := legAt_along (by rw [hlen]; norm_num) ht h0 h1 hF
  refine ⟨_, hc, htype, profileDefined_of_fits hmade (.inl htype) hleg (.inl ?_), ⟨_, _, _, h0⟩,
    ⟨_, _, _, h1⟩⟩
  simp only [hlen]
  exact ⟨100 / 60, by norm_num, by norm_num, by norm_num, by norm_num⟩

/-- A rapid motion, and a line behind it. -/
def partLines : List Line := ["G0 X1".toList, "G1 X11 F100".toList]

/-- The same with a block between them that moves the target, and is not a motion. -/
def brokenLines : List Line := ["G0 X1".toList, "X5".toList, "G1 X15 F100".toList]

/-- The run of a file that starts with a rapid motion to the point 1, up to the end of
this motion. -/
theorem exists_first_rapid (lines : List Line)
    (hw : ∀ line ∈ lines.filter Program.isCode, ∀ t ∈ commands line, IsWord t ∧ letter t ≠ 'N')
    (ht : ∀ line ∈ lines.filter Program.isCode,
      (lastOf typeWord (commands line)).getD .noMotion ∉ [BlockType.cwa, .ccwa])
    (hl : (lines.filter Program.isCode)[0]? = some "G0 X1".toList) :
    ∃ (p : Program XReal) (b : Block XReal) (e₁ e₀ e₂ e₃ : Eval XReal) (s t : Fsm XReal),
      Opening lines p b e₁ e₀ e₂ s ∧ b.type = .rapid ∧
      b.target = .ofCoords (.fin 1) (.fin 0) (.fin 0) ∧ FsmRun s [e₃] t ∧ Quiet e₃.env ∧
      e₃.before.second = .rapidMotion ∧ Standing .loadBlock p.rewind.loadNext t ∧
      t.data.machine.zero = (Machine.default : Machine XReal).zero ∧
      lastOf commandOf [e₂, e₃] = some (.ofCoords (.fin 1) (.fin 0) (.fin 0)) := by
  obtain ⟨p, b, e₁, e₀, e₂, s, h, hb⟩ := exists_opening (K := XReal) lines "G0 X1".toList hw ht hl
  have hrapid : blockState b.type = .rapidMotion := by
    rw [hb]
    decide +kernel
  have hs := h.standing
  rw [hrapid] at hs
  obtain ⟨e₃, t, h3, henv3, ht3, hcom⟩ := exists_rapid hs h.deref {} rfl
  obtain ⟨hlen, hget⟩ := blocks_of_load h.load
  obtain ⟨b', hb', hmade⟩ := hget 0 _ hl
  cases h.block.symm.trans hb'
  have htgt : b.target = .ofCoords (.fin 1) (.fin 0) (.fin 0) := by
    have hx : lastOf (numeralWord 'X') (wordsOf ([] ++ ["G0 X1".toList])) = some (.finite 1) := by
      decide +kernel
    have h1 := modalTarget_along hx (by decide +kernel) (by decide +kernel)
    rw [Rat.cast_one] at h1
    exact hmade.modal.target.trans h1
  have hsec : e₃.before.second = .rapidMotion := by
    rw [h3.1]
    exact hs.second
  have hcmd : lastOf commandOf [e₂, e₃] = some (.ofCoords (.fin 1) (.fin 0) (.fin 0)) := by
    have hc : commandOf e₃ = some t.data.machine.setpoint := by rw [commandOf, hsec, h3.2.1]
    rw [lastOf_cons, lastOf_cons, lastOf_nil, Option.none_or, hc, Option.some_or, hcom.setpoint, htgt]
  refine ⟨p, b, e₁, e₀, e₂, e₃, s, t, h, hb.trans (by decide +kernel), htgt, .single h3, ?_, hsec, ht3,
    ?_, hcmd⟩
  · rw [henv3]
    exact ⟨rfl, rfl, rfl⟩
  · rw [hcom.zero, h.machine]

theorem path_continues_sample : ∃ (p : Program XReal) (pre es : List (Eval XReal))
    (e₀ e : Eval XReal) (t : Fsm XReal),
    Edited Machine.default (.load "part.g" (some partLines) false) Program.empty p ∧
      ProgramRun partData p.blocks pre e₀ (es ++ [e]) t ∧ e.before.second = .interpMotion ∧
      e.before.first = .loadBlock ∧
      lastOf commandOf es = some (.ofCoords (.fin 1) (.fin 0) (.fin 0)) ∧
      e.after.data.machine.setpoint = .ofCoords (.fin 1) (.fin 0) (.fin 0) := by
  obtain ⟨p, b, e₁, e₀, e₂, e₃, s, u, h, hrapid, htgt, hr3, hq3, hsec3, hu, hz, hcmd⟩ :=
    exists_first_rapid partLines (by decide +kernel) (by decide +kernel) (by decide +kernel)
  have hp : Run (Edited Machine.default) Program.empty [.load "part.g" (some partLines) false] p :=
    .single h.load
  have hchain := chain_of_edits hp
  have htext : textOf [.load "part.g" (some partLines) false] = partLines := by decide +kernel
  have hl : (textOf [.load "part.g" (some partLines) false])[1]? = some "G1 X11 F100".toList := by
    rw [htext]
    rfl
  have hbefore : Along ((textOf [.load "part.g" (some partLines) false]).take 1) 1 := by
    constructor <;> decide +kernel
  obtain ⟨c, hc, htype, hd⟩ := exists_drawable hp hl (by decide +kernel) hbefore
    (by constructor <;> decide +kernel) (by decide +kernel)
  obtain ⟨e₄, e₅, v, t, h4, henv4, h5, henv5, hin, hentry, hcur, hset⟩ :=
    exists_entry hp hu rfl h.cursor hc hl (.inl htype) hd hz
  have hrest : FsmRun s [e₃, e₄, e₅] t := hr3.append (.cons h4 (.single h5))
  have hrun : ProgramRun partData p.blocks [e₁] e₀ [e₂, e₃, e₄, e₅] t := by
    refine h.programRun hrest ?_ ?_
    · simp only [List.mem_cons, List.not_mem_nil, or_false,
        forall_eq_or_imp, forall_eq, henv4, henv5]
      exact ⟨hq3, ⟨rfl, rfl, rfl⟩, rfl, rfl, rfl⟩
    · simp only [List.mem_cons, List.not_mem_nil, or_false, forall_eq_or_imp, forall_eq, hsec3, h4.1,
        hu.second, h5.1, hin]
      decide
  have hcmd4 : lastOf commandOf [e₂, e₃, e₄] = some (.ofCoords (.fin 1) (.fin 0) (.fin 0)) := by
    have hnone : commandOf e₄ = none := by rw [commandOf, h4.1, hu.second]
    rw [show [e₂, e₃, e₄] = [e₂, e₃] ++ [e₄] from rfl, lastOf_append, lastOf_cons, lastOf_nil,
      Option.none_or, hnone, Option.none_or, hcmd]
  obtain ⟨k, line, c', hl', hc', hcur', -, -, hlast⟩ := path_continues hp default_limits.1
    (by norm_num) default_limits.2 (by norm_num)
    (show ProgramRun partData p.blocks [e₁] e₀ ([e₂, e₃, e₄] ++ e₅ :: []) t from hrun) rfl rfl
    (h5.1 ▸ hin) (h5.1 ▸ hentry)
  rw [h5.1, hcur, Option.some_inj] at hcur'
  obtain rfl : 1 = k := hchain.index_eq hc hc' hcur'
  cases hc.symm.trans hc'
  cases hl.symm.trans hl'
  obtain ⟨j, b', hj, hjump⟩ := hlast _ hcmd4
  obtain rfl : j = 0 := by
    have := hj.lt
    omega
  cases h.block.symm.trans hj.block
  have hends : EndsAt Machine.default (textOf [.load "part.g" (some partLines) false]) p.blocks 0 := by
    intro line' b' _ hb'
    cases h.block.symm.trans hb'
    exact .inl hrapid
  exact ⟨p, [e₁], [e₂, e₃, e₄], e₀, e₅, t, h.load, hrun, h5.1 ▸ hin, h5.1 ▸ hentry, hcmd4,
    h5.2.1 ▸ hjump hd hends ((hbefore.target Rat.cast_one).trans htgt.symm)⟩

/-- The line starts five millimetres off the point where the rapid motion has left the
machine: at the target of the block between, which moves nothing. -/
theorem path_jumps : ∃ (p : Program XReal) (pre es : List (Eval XReal)) (e₀ e : Eval XReal)
    (t : Fsm XReal) (c : Block XReal),
    Edited Machine.default (.load "part.g" (some brokenLines) false) Program.empty p ∧
      ProgramRun partData p.blocks pre e₀ (es ++ [e]) t ∧ e.before.second = .interpMotion ∧
      e.before.first = .loadBlock ∧ p.blocks[2]? = some c ∧ e.before.cursor = some c.addr ∧
      c.type = .line ∧ Drawable Machine.default (brokenLines.take 2) "G1 X15 F100".toList c ∧
      lastOf commandOf es = some (.ofCoords (.fin 1) (.fin 0) (.fin 0)) ∧
      e.after.data.machine.setpoint = .ofCoords (.fin 5) (.fin 0) (.fin 0) ∧
      lastOf commandOf es ≠ some e.after.data.machine.setpoint := by
  obtain ⟨p, b, e₁, e₀, e₂, e₃, s, u, h, -, -, hr3, hq3, hsec3, hu, hz, hcmd⟩ :=
    exists_first_rapid brokenLines (by decide +kernel) (by decide +kernel) (by decide +kernel)
  have hp : Run (Edited Machine.default) Program.empty [.load "part.g" (some brokenLines) false] p :=
    .single h.load
  have hchain := chain_of_edits hp
  have htext : textOf [.load "part.g" (some brokenLines) false] = brokenLines := by decide +kernel
  obtain ⟨a, ha, hmadea⟩ := (blocks_of_load h.load).2 1 "X5".toList (by decide +kernel)
  have hl : (textOf [.load "part.g" (some brokenLines) false])[2]? = some "G1 X15 F100".toList := by
    rw [htext]
    rfl
  have hbefore : Along ((textOf [.load "part.g" (some brokenLines) false]).take 2) 5 := by
    constructor <;> decide +kernel
  obtain ⟨c, hc, hline, hd⟩ := exists_drawable hp hl (by decide +kernel) hbefore
    (by constructor <;> decide +kernel) (by decide +kernel)
  have hpar := parsed_of_load h.load
  have hstill : blockState a.type = .noMotion := by
    rw [hmadea.type_eq]
    decide +kernel
  have hchain' : Chain p.rewind.loadNext.blocks := hchain
  obtain ⟨hderef, hdone, hcur2⟩ := Program.loadNext_of_get hchain' h.cursor ha
  obtain ⟨e₄, v, h4, henv4, hv, hm4, -⟩ := exists_next hu hderef hdone
  rw [hstill] at hv
  obtain ⟨e₅, w, h5, henv5, hw, hm5⟩ := exists_noMotion hv hderef (hpar a (List.mem_of_getElem? ha))
  have hzw : w.data.machine.zero = (Machine.default : Machine XReal).zero := by rw [hm5, hm4, hz]
  obtain ⟨e₆, e₇, x, t, h6, henv6, h7, henv7, hin, hentry, hcur, hset⟩ :=
    exists_entry hp hw rfl hcur2 hc hl (.inl hline) hd hzw
  have hrest : FsmRun s [e₃, e₄, e₅, e₆, e₇] t :=
    hr3.append (.cons h4 (.cons h5 (.cons h6 (.single h7))))
  have hrun : ProgramRun partData p.blocks [e₁] e₀ [e₂, e₃, e₄, e₅, e₆, e₇] t := by
    refine h.programRun hrest ?_ ?_
    · simp only [List.mem_cons, List.not_mem_nil, or_false, forall_eq_or_imp, forall_eq, henv4, henv5,
        henv6, henv7]
      exact ⟨hq3, ⟨rfl, rfl, rfl⟩, ⟨rfl, rfl, rfl⟩, ⟨rfl, rfl, rfl⟩, rfl, rfl, rfl⟩
    · simp only [List.mem_cons, List.not_mem_nil, or_false, forall_eq_or_imp, forall_eq, hsec3, h4.1,
        hu.second, h5.1, hv.second, h6.1, hw.second, h7.1, hin]
      decide
  have hcmd' : lastOf commandOf [e₂, e₃, e₄, e₅, e₆] =
      some (.ofCoords (.fin 1) (.fin 0) (.fin 0)) := by
    have hnone : ∀ e ∈ [e₄, e₅, e₆], commandOf e = none := by
      simp only [List.mem_cons, List.not_mem_nil, or_false, forall_eq_or_imp, forall_eq, commandOf,
        h4.1, hu.second, h5.1, hv.second, h6.1, hw.second, and_self]
    rw [show [e₂, e₃, e₄, e₅, e₆] = [e₂, e₃] ++ [e₄, e₅, e₆] from rfl, lastOf_append,
      lastOf_eq_none _ hnone, Option.none_or, hcmd]
  have hset' : e₇.after.data.machine.setpoint = .ofCoords (.fin 5) (.fin 0) (.fin 0) := by
    rw [h7.2.1, hset]
    exact hbefore.target (by norm_num)
  rw [htext] at hd
  refine ⟨p, [e₁], [e₂, e₃, e₄, e₅, e₆], e₀, e₇, t, c, h.load, hrun, h7.1 ▸ hin, h7.1 ▸ hentry, hc,
    h7.1 ▸ hcur, hline, hd, hcmd', hset', ?_⟩
  rw [hcmd', hset']
  simp [Point.ofCoords]

end Entry

end Cncpp
