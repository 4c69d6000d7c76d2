import Cncpp.Export

/-! A program run against the table of its program: the machine commands the positions of the
rows, block by block, and between them the targets of the rapid motions. -/

namespace Cncpp

open DataArith Lib Lib.ExceptState Fsm

/-! ## A block, from its first evaluation to its last -/

section Blocks

variable {K : Type} [DataArith K] {s t : Fsm K} {q : Program K} {b : Block K} {st : State}
  {es : List (Eval K)}

omit [DataArith K] in
/-- A pointer is followed in the list of blocks. -/
theorem Fsm.PrevIn.congr {p : Program K} {prev : Option (Block K)} (h : PrevIn p b prev)
    (hb : q.blocks = p.blocks) : PrevIn q b prev := by
  cases prev with
  | none => exact h
  | some c =>
    obtain ⟨a, ha, hfind⟩ := h
    refine ⟨a, ha, ?_⟩
    rw [Program.find, hb]
    exact hfind

/-- Without SIGINT, a block that is carried out goes on, or is left for the next one. -/
theorem move_next {e : Eval K} (he : Evaluates e s t) (hq : Quiet e.env)
    (hs : s.stopRequested = false)
    (hst : s.second ∈ [State.rapidMotion, .interpMotion, .noMotion]) :
    ∃ p b, MoveEval s t p b ∧ t.stopRequested = false ∧
      (t.second = .loadBlock ∨ t.second = s.second) := by
  obtain ⟨rfl, rfl, hstop, hrun⟩ := he
  have hflag := flag_of_quiet hq hs hstop hrun
  have hmove : ∃ p b, MoveEval e.before e.after p b := by
    simp only [List.mem_cons, List.not_mem_nil, or_false] at hst
    rcases hst with hst | hst | hst
    · obtain ⟨p, b, h⟩ := eval_rapidMotion hst hrun
      exact ⟨p, b, h.toMoveEval⟩
    · obtain ⟨p, b, _, _, h⟩ := eval_interpMotion hst hrun
      exact ⟨p, b, h.toMoveEval⟩
    · obtain ⟨p, b, h⟩ := eval_noMotion hst hrun
      exact ⟨p, b, h.toMoveEval⟩
  obtain ⟨p, b, h⟩ := hmove
  refine ⟨p, b, h, hflag, h.next.resolve_left ?_⟩
  rintro ⟨-, hset⟩
  rw [hflag] at hset
  cases hset

/-- A run that comes back to IDLE leaves the block that it carries out, for LOAD_BLOCK. -/
theorem exists_left (hr : FsmRun s es t) (ht : t.second = .idle) (hq : ∀ e ∈ es, Quiet e.env)
    (hs : Calm st s) (hst : st ∈ [State.rapidMotion, .interpMotion, .noMotion])
    (hp : s.data.program = some q) : ∃ es₁ u es₂, es = es₁ ++ es₂ ∧ es₁ ≠ [] ∧ FsmRun s es₁ u ∧
      FsmRun u es₂ t ∧ Calm .loadBlock u ∧ u.data.program = some q ∧
      ∀ e ∈ es₁, Evaluates e e.before e.after ∧ e.before.second = st ∧
        e.before.data.program = some q := by
  have hout : t.second ≠ st := by
    rintro rfl
    rw [ht] at hst
    exact absurd hst (by decide)
  obtain ⟨es₁, u, es₂, rfl, hne, h₁, hu, h₂⟩ :=
    hr.exists_exit (fun v => v.second = st) hs.second hout
  have hquiet : ∀ e ∈ es₁, Quiet e.env := fun e he => hq e (List.mem_append_left _ he)
  have hstep : ∀ (e : Eval K) (v w : Fsm K), Quiet e.env →
      (v.stopRequested = false ∧ v.data.program = some q ∧ (v.second = .loadBlock ∨ v.second = st)) →
      v.second = st ∧ Evaluates e v w →
      w.stopRequested = false ∧ w.data.program = some q ∧ (w.second = .loadBlock ∨ w.second = st) := by
    rintro e v w hqe ⟨hflag, hprog, -⟩ ⟨rfl, hev⟩
    obtain ⟨p, b, hmove, hflag', hnext⟩ := move_next hev hqe hflag hst
    cases hprog.symm.trans hmove.before
    exact ⟨hflag', hmove.after, hnext⟩
  obtain ⟨hflag, hprog, hnext⟩ := h₁.invariant_of (fun e => Quiet e.env) _ hstep hquiet
    ⟨hs.flag, hp, .inr hs.second⟩
  refine ⟨es₁, u, es₂, rfl, hne, h₁.mono fun _ _ _ h => h.2, h₂,
    ⟨hnext.resolve_right hu, hflag⟩, hprog, fun e he => ?_⟩
  obtain ⟨v, w, ⟨-, hv, -⟩, hst', hev⟩ := h₁.invariant_at (fun e => Quiet e.env) _ hstep hquiet
    ⟨hs.flag, hp, .inr hs.second⟩ he
  obtain ⟨rfl, rfl, hne', hrun⟩ := hev
  exact ⟨⟨rfl, rfl, hne', hrun⟩, hst', hv⟩

theorem filterMap_eq_map_of {α β : Type} {f : α → Option β} {g : α → β} {l : List α}
    (h : ∀ a ∈ l, f a = some (g a)) : l.filterMap f = l.map g := by
  induction l with
  | nil => rfl
  | cons a l ih =>
    rw [List.filterMap_cons_some (h a (by simp)), List.map_cons,
      ih fun b hb => h b (List.mem_cons_of_mem a hb)]

/-- Every evaluation of a rapid motion commands its target. -/
theorem commands_of_rapid (hd : q.deref = some b) (h : ∀ e ∈ es, Evaluates e e.before e.after ∧
    e.before.second = .rapidMotion ∧ e.before.data.program = some q) :
    es.filterMap commandOf = List.replicate es.length b.target := by
  have hcmd : ∀ e ∈ es, commandOf e = some b.target := by
    intro e he
    obtain ⟨⟨-, -, -, hrun⟩, hst, hprog⟩ := h e he
    obtain ⟨p, c, hev⟩ := eval_rapidMotion hst hrun
    cases hprog.symm.trans hev.before
    cases hd.symm.trans hev.block
    rw [commandOf, hst, hev.commanded.setpoint]
  rw [filterMap_eq_map_of hcmd, List.map_const']

omit [DataArith K] in
/-- A block without motion commands nothing. -/
theorem commands_of_still (h : ∀ e ∈ es, e.before.second = .noMotion) :
    es.filterMap commandOf = [] := by
  refine List.filterMap_eq_nil_iff.mpr fun e he => ?_
  rw [commandOf, h e he]

omit [DataArith K] in
theorem commands_of_interp (h : ∀ e ∈ es, e.before.second = .interpMotion) :
    es.filterMap commandOf = es.map (·.after.data.machine.setpoint) := by
  refine filterMap_eq_map_of fun e he => ?_
  rw [commandOf, h e he]

end Blocks

noncomputable section

open XReal

/-! ## Rows and setpoints -/

section Rows

variable {m : Machine XReal} {b : Block XReal} {prev : Option (Block XReal)} {tq : ℝ}
  {T : Trapezoid} {k : ℕ} {is : List ℕ} {rs : List (Row XReal)} {ps : List (Point XReal)}

theorem RowAt.interpolate (hT : Ticks tq b T k) {j : ℕ} {r : Row XReal}
    (h : RowAt m prev b tq j r) :
    b.interpolate m prev (.fin (progress T (j * tq))) = .ok r.position := by
  rw [← (hT.lambda (j * tq)).2, ← h.lambda]
  exact h.position

/-- The setpoints at the ticks are the positions of the rows. -/
theorem positions_eq (hT : Ticks tq b T k) (hr : List.Forall₂ (RowAt m prev b tq) is rs)
    (hp : List.Forall₂ (fun i P => b.interpolate m prev (.fin (progress T ((i : ℕ) * tq))) = .ok P)
      is ps) : ps = rs.map (·.position) := by
  induction hr generalizing ps with
  | nil =>
    cases hp
    rfl
  | cons hr _ ih =>
    cases hp with
    | cons hP hps =>
      cases (hr.interpolate hT).symm.trans hP
      rw [List.map_cons, ih hps]

/-- The last row of a block is at its end. -/
theorem exists_last_row (hT : Ticks tq b T k)
    (hr : List.Forall₂ (RowAt m prev b tq) (List.range' 0 (k + 1)) rs) :
    ∃ r, rs.getLast? = some r ∧ b.interpolate m prev (.fin 1) = .ok r.position := by
  have hrev := List.forall₂_reverse_iff.mpr hr
  rw [List.range'_1_concat, List.reverse_concat] at hrev
  obtain ⟨r, rest, hlast, -, hrs⟩ := List.forall₂_cons_left_iff.mp hrev
  refine ⟨r, by rw [← List.head?_reverse, hrs]; rfl, ?_⟩
  have hend : progress T ((0 + k : ℕ) * tq) = 1 := by
    refine progress_after ?_
    rw [hT.duration, Nat.zero_add]
  rw [← hend]
  exact hlast.interpolate hT

end Rows

/-! ## Block by block -/

/-- The setpoints of a run over some blocks of the program, whose rows are `rs`: nothing for a
block without motion, a rapid motion's target, once or more, and of an interpolated block the
positions of its rows, the last one twice. -/
inductive Draws (m : Machine XReal) (p : Program XReal) (tq : ℝ) :
    List (Block XReal) → List (Row XReal) → List (Point XReal) → Prop
  | nil : Draws m p tq [] [] []
  | still {b : Block XReal} {bs : List (Block XReal)} {rs : List (Row XReal)}
      {ps : List (Point XReal)} : b.type = .noMotion → Draws m p tq bs rs ps →
      Draws m p tq (b :: bs) rs ps
  | rapid {b : Block XReal} {bs : List (Block XReal)} {rs : List (Row XReal)}
      {ps : List (Point XReal)} (n : ℕ) : b.type = .rapid → Draws m p tq bs rs ps →
      Draws m p tq (b :: bs) rs (List.replicate (n + 1) b.target ++ ps)
  | block {b : Block XReal} {bs : List (Block XReal)} {rs rs' : List (Row XReal)}
      {ps : List (Point XReal)} {prev : Option (Block XReal)} {T : Trapezoid} {k : ℕ}
      {r : Row XReal} : b.type.Interpolated → PrevIn p b prev → Ticks tq b T k →
      List.Forall₂ (RowAt m prev b tq) (List.range' 0 (k + 1)) rs → rs.getLast? = some r →
      Draws m p tq bs rs' ps →
      Draws m p tq (b :: bs) (rs ++ rs') (rs.map (·.position) ++ r.position :: ps)

section Runs

variable {m : Machine XReal} {p q : Program XReal} {b : Block XReal} {bs : List (Block XReal)}
  {rs : List (Row XReal)} {tq : ℝ} {n : ℕ} {s t u : Fsm XReal} {e : Eval XReal}
  {es : List (Eval XReal)}

/-- The machine is about to load the block at `n` of the program. -/
structure Ready (m : Machine XReal) (p : Program XReal) (n : ℕ) (s : Fsm XReal) : Prop where
  calm : Calm .loadBlock s
  walk : ∃ q, Walk p.blocks s q n
  zero : s.data.machine.zero = m.zero
  tick : s.data.machine.tq = m.tq

/-- Behind the last block the run is over. -/
theorem Ready.finish (hc : Chain p.blocks) (h : Ready m p n s) (hn : p.blocks.drop n = [])
    (hr : FsmRun s es t) (ht : t.second = .idle) (hbusy : ∀ e ∈ es, e.before.second ≠ .idle) :
    es.filterMap commandOf = [] := by
  obtain ⟨q, hw⟩ := h.walk
  cases hr with
  | nil =>
    rw [h.calm.second] at ht
    cases ht
  | @cons e _ u _ es he hr =>
    have hidle : u.second = .idle := by
      rcases walk_load hc h.calm.second hw he with ⟨b, hb, -⟩ | ⟨-, hu, -⟩
      · rw [List.drop_eq_nil_iff] at hn
        rw [List.getElem?_eq_none hn] at hb
        cases hb
      · exact hu
    have hnil : es = [] := by
      cases hr with
      | nil => rfl
      | cons he' _ =>
        refine absurd ?_ (hbusy _ (List.mem_cons_of_mem _ List.mem_cons_self))
        rw [he'.1]
        exact hidle
    rw [hnil, List.filterMap_cons_none (by rw [commandOf, he.1, h.calm.second]), List.filterMap_nil]

/-- What LOAD_BLOCK leaves for the block at `n`. -/
structure Loaded (m : Machine XReal) (p : Program XReal) (n : ℕ) (b : Block XReal)
    (q : Program XReal) (u : Fsm XReal) : Prop where
  calm : Calm (blockState b.type) u
  walk : Walk p.blocks u q (n + 1)
  deref : q.deref = some b
  zero : u.data.machine.zero = m.zero
  tick : u.data.machine.tq = m.tq
  clock : b.type.Interpolated → u.data.tBlk = num 0

theorem Loaded.underway {prev : Option (Block XReal)} (h : Loaded m p n b q u) (hp : PrevIn p b prev)
    (hint : ∀ lam, ∃ x y z, b.interpolate m prev lam = .ok (.ofCoords x y z))
    (htq : m.tq = .fin tq) (htq0 : 0 < tq) : Underway m tq q b prev :=
  ⟨h.deref, hp.congr h.walk.blocks, hint, htq, htq0⟩

/-- An interpolated block is loaded at its first tick. -/
theorem Loaded.atTick (h : Loaded m p n b q u) (ht : b.type.Interpolated) :
    AtTick m tq q 0 u where
  calm := BlockType.blockState_of_interpolated ht ▸ h.calm
  program := h.walk.program
  zero := h.zero
  tick := h.tick
  clock := by
    rw [h.clock ht]
    simp

theorem Ready.load (hc : Chain p.blocks) (h : Ready m p n s) (hb : p.blocks[n]? = some b)
    (he : Evaluates e s u) (hq : Quiet e.env) : ∃ q, Loaded m p n b q u := by
  obtain ⟨q, hw⟩ := h.walk
  rcases walk_load hc h.calm.second hw he with ⟨c, hc', hderef, hu, -, hwu⟩ | ⟨rfl, -⟩
  · cases hb.symm.trans hc'
    obtain ⟨rfl, rfl, hne, hrun⟩ := he
    obtain ⟨p', hload⟩ := eval_loadBlock h.calm.second hrun
    refine ⟨q.loadNext, ⟨hu, flag_of_quiet hq h.calm.flag hne hrun⟩, hwu, hderef, ?_, ?_, fun ht => ?_⟩
    · rw [hload.machine, h.zero]
    · rw [hload.machine, h.tick]
    · exact hload.clock (by rw [hu, BlockType.blockState_of_interpolated ht])
  · rw [List.getElem?_eq_none le_rfl] at hb
    cases hb

/-- The evaluations of a run that carry out the block `b`, and those behind them. -/
structure Turn (m : Machine XReal) (p q : Program XReal) (n : ℕ) (b : Block XReal) (u v : Fsm XReal)
    (es₁ es₂ : List (Eval XReal)) (t : Fsm XReal) : Prop where
  loaded : Loaded m p n b q u
  nonempty : es₁ ≠ []
  carried : FsmRun u es₁ v
  steps : ∀ e ∈ es₁, Evaluates e e.before e.after ∧ e.before.second = blockState b.type ∧
    e.before.data.program = some q
  ready : Ready m p (n + 1) v
  rest : FsmRun v es₂ t

/-- A run loads a block, carries it out, and goes on with the next one. -/
theorem Ready.turn (hc : Chain p.blocks) (h : Ready m p n s) (hb : p.blocks[n]? = some b)
    (hk : b.type.Known) (hr : FsmRun s es t) (ht : t.second = .idle) (hq : ∀ e ∈ es, Quiet e.env) :
    ∃ e q u v es₁ es₂, es = e :: (es₁ ++ es₂) ∧ commandOf e = none ∧
      Turn m p q n b u v es₁ es₂ t := by
  cases hr with
  | nil =>
    rw [h.calm.second] at ht
    cases ht
  | @cons e _ u _ es he hr =>
    obtain ⟨q, hl⟩ := h.load hc hb he (hq e List.mem_cons_self)
    obtain ⟨es₁, v, es₂, rfl, hne, h₁, h₂, hcalm, hprog, hall⟩ := exists_left hr ht
      (fun e he => hq e (List.mem_cons_of_mem _ he)) hl.calm (BlockType.blockState_known hk)
      hl.walk.program
    obtain ⟨hzero, htick⟩ := params_of_run h₁
    exact ⟨e, q, u, v, es₁, es₂, rfl, by rw [commandOf, he.1, h.calm.second], hl, hne, h₁, hall,
      ⟨hcalm, ⟨q, hprog, hl.walk.blocks, hl.walk.cursor⟩, hzero.trans hl.zero, htick.trans hl.tick⟩,
      h₂⟩

/-- An interpolated block commands the positions of its rows, and the last one again. -/
theorem Turn.commands_interp {v : Fsm XReal} {es₁ es₂ : List (Eval XReal)} {T : Trapezoid} {k : ℕ}
    {prev : Option (Block XReal)} {r : Row XReal} (h : Turn m p q n b u v es₁ es₂ t)
    (htq : m.tq = .fin tq) (htq0 : 0 < tq) (ht : b.type.Interpolated) (hp : PrevIn p b prev)
    (hT : Ticks tq b T k) (hint : ∀ lam, ∃ x y z, b.interpolate m prev lam = .ok (.ofCoords x y z))
    (hrs : List.Forall₂ (RowAt m prev b tq) (List.range' 0 (k + 1)) rs) (hlast : rs.getLast? = some r)
    (hq : ∀ e ∈ es₁, Quiet e.env) :
    es₁.filterMap commandOf = rs.map (·.position) ++ [r.position] := by
  have hst := BlockType.blockState_of_interpolated ht
  have hin : ∀ e ∈ es₁, e.before.second = .interpMotion := fun e he =>
    (h.steps e he).2.1.trans hst
  have hU := h.loaded.underway hp hint htq htq0
  obtain ⟨ps, P, hmap, hps, hP⟩ := setpoints_of_run hT hU h.carried (h.loaded.atTick ht)
    (Nat.zero_le _) hq hin (by rw [h.ready.calm.second]; decide)
  obtain ⟨r', hr', hend⟩ := exists_last_row hT hrs
  cases hlast.symm.trans hr'
  cases hend.symm.trans hP
  rw [commands_of_interp hin, hmap, positions_eq hT hrs hps]

/-- The setpoints of a run from the block at `n` on. -/
theorem draws_of_run (hc : Chain p.blocks) (htq : m.tq = .fin tq) (htq0 : 0 < tq)
    (hknown : ∀ b ∈ p.blocks, b.type.Known)
    (hwalk : ∀ b ∈ p.blocks, b.type.Interpolated → Walkable m p tq b)
    (hsam : Sampled m p tq bs rs) (hbs : p.blocks.drop n = bs) (h : Ready m p n s)
    (hr : FsmRun s es t) (ht : t.second = .idle) (hq : ∀ e ∈ es, Quiet e.env)
    (hbusy : ∀ e ∈ es, e.before.second ≠ .idle) :
    Draws m p tq bs rs (es.filterMap commandOf) := by
  induction hsam generalizing n s es with
  | nil =>
    rw [h.finish hc hbs hr ht hbusy]
    exact .nil
  | @skip b bs rs hni _ ih =>
    have hb : p.blocks[n]? = some b := by
      rw [← List.head?_drop, hbs]
      rfl
    have hk := hknown b (List.mem_of_getElem? hb)
    obtain ⟨e, q, u, v, es₁, es₂, rfl, hcmd, hturn⟩ := h.turn hc hb hk hr ht hq
    have hrest := ih (by rw [← List.drop_drop, hbs]; rfl) hturn.ready hturn.rest
      (fun e he => hq e (by simp [he])) fun e he => hbusy e (by simp [he])
    rw [List.filterMap_cons_none hcmd, List.filterMap_append]
    have htype : b.type = .rapid ∨ b.type = .noMotion := by
      simp only [BlockType.Known, List.mem_cons, List.not_mem_nil, or_false] at hk
      simp only [BlockType.Interpolated, BlockType.IsArc] at hni
      tauto
    rcases htype with htype | htype
    · have hsteps := hturn.steps
      rw [htype] at hsteps
      obtain ⟨j, hj⟩ := Nat.exists_eq_succ_of_ne_zero
        (List.length_eq_zero_iff.not.mpr hturn.nonempty)
      rw [commands_of_rapid hturn.loaded.deref hsteps, hj]
      exact .rapid j htype hrest
    · rw [commands_of_still fun e he => by rw [(hturn.steps e he).2.1, htype]; rfl, List.nil_append]
      exact .still htype hrest
  | @block b bs rs rs' prev T k hi hp hT hrs _ ih =>
    have hb : p.blocks[n]? = some b := by
      rw [← List.head?_drop, hbs]
      rfl
    obtain ⟨e, q, u, v, es₁, es₂, rfl, hcmd, hturn⟩ :=
      h.turn hc hb (hknown b (List.mem_of_getElem? hb)) hr ht hq
    have hrest := ih (by rw [← List.drop_drop, hbs]; rfl) hturn.ready hturn.rest
      (fun e he => hq e (by simp [he])) fun e he => hbusy e (by simp [he])
    obtain ⟨prev', _, _, hp', -, hint⟩ := hwalk b (List.mem_of_getElem? hb) hi
    cases hp.unique hp'
    obtain ⟨r, hlast, -⟩ := exists_last_row hT hrs
    have hcmds := hturn.commands_interp htq htq0 hi hp hT hint hrs hlast
      fun e he => hq e (by simp [he])
    rw [List.filterMap_cons_none hcmd, List.filterMap_append, hcmds, List.append_assoc]
    exact .block hi hp hT hrs hlast hrest

/-- The program that a run carries out is linked, and was parsed by this machine. -/
theorem ProgramRun.sourced {d : FsmData XReal} {pre : List (Eval XReal)} {e₀ : Eval XReal}
    (h : ProgramRun d bs pre e₀ es t) (hp : e₀.before.data.program = some p) :
    p.Wired ∧ p.Sourced d.machine := by
  obtain ⟨u, hpre, hr⟩ := h.run.append_split
  cases hr with
  | cons hstep _ =>
    obtain ⟨rfl, -⟩ := hstep
    have hinit : e₀.before.second ≠ .init := by
      rw [h.idle]
      decide
    have hstop : e₀.before.second ≠ .stop := by
      rw [h.idle]
      decide
    obtain ⟨p', hp', hw⟩ := (safe_run hpre).program hinit hstop
    obtain ⟨p'', hp'', hsrc⟩ := sourced_run hpre hinit hstop
    cases hp.symm.trans hp'
    cases hp.symm.trans hp''
    exact ⟨hw.toWired, hsrc⟩

/-- A program run refines the table of its program.  In a run without SIGINT from SPACE to the
next IDLE, over blocks of known types of which the interpolated ones have a length and a feedrate,
on a machine with an agent or without one, the setpoints are those that the table of the bindings
lists, block by block, and the last one of each block again; a rapid motion adds its target, and a
block without motion nothing. -/
theorem run_refines_table {d : FsmData XReal} {pre : List (Eval XReal)} {e₀ : Eval XReal} {A : ℝ}
    (h : ProgramRun d p.blocks pre e₀ es t) (hp : e₀.before.data.program = some p)
    (hA : d.machine.A = .fin A) (hA0 : 0 < A) (htq : d.machine.tq = .fin tq) (htq0 : 0 < tq)
    (hknown : ∀ b ∈ p.blocks, b.type.Known) (hd : ∀ b ∈ p.blocks, b.type.Interpolated → b.Drivable)
    (ht : t.second = .idle) : ∃ n rs, (∀ fuel, n < fuel →
      (Program.programWalk d.machine fuel p).run Program.noRows =
        .ok () ⟨.fin ((rs.length : ℕ) * tq), rs⟩) ∧
      Draws d.machine p tq p.blocks rs (es.filterMap commandOf) := by
  obtain ⟨hr, hcalm, hsec, q, hphase⟩ := h.start
  obtain ⟨hzero, htick⟩ := h.params
  obtain ⟨hw, hsrc⟩ := h.sourced hp
  have hwalk : ∀ b ∈ p.blocks, b.type.Interpolated → Walkable d.machine p tq b := fun b hb hi =>
    walkable_of_sourced hsrc hw hA hA0 htq htq0 hb (hd b hb hi) hi
  obtain ⟨n, rs, htab⟩ := exists_table htq htq0 hwalk
  have hready : Ready d.machine p 0 e₀.after := ⟨⟨hsec, hcalm⟩, ⟨q, hphase.toWalk⟩, hzero, htick⟩
  exact ⟨n, rs, htab.run, draws_of_run hw.chain htq htq0 hknown hwalk htab.sampled rfl hready hr ht
    (fun e he => h.quiet e (by simp [he])) h.busy⟩

/-- A program that a machine without an agent can carry out, is carried out. -/
theorem exists_programRun {d : FsmData XReal} {pre : List (Eval XReal)} {A : ℝ}
    (hr : FsmRun (setup .init d) pre s) (hquiet : ∀ e ∈ pre, Quiet e.env) (hs : Calm .idle s)
    (hp : s.data.program = some p) (hm : Geared s.data.machine A tq)
    (hd : ∀ b ∈ p.blocks, b.Drivable) :
    ∃ e₀ es t, ProgramRun d p.blocks pre e₀ es t ∧ e₀.before = s ∧ t.second = .idle := by
  have hinit : s.second ≠ .init := by
    rw [hs.second]
    decide
  have hstop : s.second ≠ .stop := by
    rw [hs.second]
    decide
  obtain ⟨p', hp', hw⟩ := (safe_run hr).program hinit hstop
  obtain ⟨p'', hp'', hsrc⟩ := sourced_run hr hinit hstop
  cases hp.symm.trans hp'
  cases hp.symm.trans hp''
  have hq : Quiet ({ key := ' ' } : Env XReal) := ⟨rfl, rfl, rfl⟩
  obtain ⟨u, hu, hc, -, -, -⟩ := exists_start hs hp hw.toWired (hsrc.congr (sameSetup_of_run hr))
    ⟨_, rfl⟩ rfl hq
  have henvs : ∀ env ∈ List.replicate (evalsLeft s.data.machine.tq p.blocks) ({} : Env XReal),
      Quiet env := fun env he => by
    rw [List.eq_of_mem_replicate he]
    exact quiet_default
  obtain ⟨es, t, hes, hmap, ht, hall⟩ := Run.exists_countdown (R := Evaluates) (j := 0) (·.env) Quiet
    (fun _ r v => Counted s.data.machine p.blocks r v) (fun j r v env hqe hv => by
      obtain ⟨w, hw, hcw, -⟩ := hv.step hm hd hqe
      exact ⟨⟨v, env, w⟩, w, ⟨rfl, rfl, hv.not_stop, hw⟩, rfl, hcw⟩) henvs
    (by rw [List.length_replicate]; exact hc)
  refine ⟨⟨s, { key := ' ' }, u⟩, es, t, ⟨hr.append (.cons ⟨rfl, rfl, hstop, hu⟩ hes), ?_, hs.second,
    rfl, ⟨p, hp, rfl⟩, fun e he => ?_⟩, rfl, ht.back.1.second⟩
  · intro e he
    rcases List.mem_append.mp he with he | he
    · exact hquiet e he
    · rcases List.mem_cons.mp he with rfl | he
      · exact hq
      · refine henvs e.env ?_
        rw [← hmap]
        exact List.mem_map_of_mem he
  · obtain ⟨before, after, rfl⟩ := List.append_of_mem he
    obtain ⟨r, v, w, hv, hev⟩ := hall before e after rfl
    rw [hev.1]
    exact hv.not_idle

/-- A file that the default machine can carry out is loaded and carried out. -/
theorem exists_part_run {lines : List Line}
    (hload : Edited Machine.default (.load "part.g" (some lines) false) Program.empty p)
    (hd : ∀ b ∈ p.blocks, b.Drivable) :
    ∃ (e₁ e₀ : Eval XReal) (es : List (Eval XReal)) (s t : Fsm XReal),
      Evaluates e₁ (setup .init partData) s ∧ Calm .idle s ∧ s.data.program = some p ∧
        Geared s.data.machine 5 (1 / 1000) ∧ ProgramRun partData p.blocks [e₁] e₀ es t ∧
        e₀.before = s ∧ t.second = .idle := by
  obtain ⟨e₁, s, h₁, he₁, hs, hsm⟩ := exists_init (d := partData) rfl hload
  obtain ⟨hA, htq⟩ := default_limits
  have hm : Geared s.data.machine 5 (1 / 1000) :=
    ⟨hs.agent, by rw [hsm]; exact hA, by norm_num, by rw [hsm]; exact htq, by norm_num⟩
  obtain ⟨e₀, es, t, hrun, hbefore, ht⟩ := exists_programRun (.single h₁)
    (by rw [List.forall_mem_singleton, he₁]; exact ⟨rfl, rfl, rfl⟩) ⟨hs.second, hs.calm⟩ hs.program hm hd
  exact ⟨e₁, e₀, es, s, t, h₁, ⟨hs.second, hs.calm⟩, hs.program, hm, hrun, hbefore, ht⟩

/-- A file of one straight line. -/
theorem exists_line_run : ∃ (p : Program XReal) (b : Block XReal) (e₁ e₀ : Eval XReal)
    (es : List (Eval XReal)) (s t : Fsm XReal), s.data.program = some p ∧ p.blocks = [b] ∧
      b.type = .line ∧ b.Drivable ∧ ProgramRun partData p.blocks [e₁] e₀ es t ∧ e₀.before = s ∧
      t.second = .idle := by
  obtain ⟨p, hload⟩ := exists_load (K := XReal) Machine.default "part.g" [sampleLine]
    (by decide +kernel) (by decide +kernel)
  obtain ⟨hlen, hmade⟩ := blocks_of_load hload
  obtain ⟨b, hb, hmade⟩ := hmade 0 sampleLine (by decide +kernel)
  have hblocks : p.blocks = [b] := by
    obtain ⟨c, hc⟩ := List.length_eq_one_iff.mp (hlen.trans (by decide +kernel))
    rw [hc] at hb
    cases hb
    exact hc
  obtain ⟨hpar, hl, hF⟩ := sample_motion hmade
  have hd : b.Drivable := ⟨hpar, fun _ => ⟨_, _, hl, by norm_num, hF, by norm_num⟩⟩
  obtain ⟨e₁, e₀, es, s, t, -, -, hp, -, hrun, hbefore, ht⟩ :=
    exists_part_run hload (by rw [hblocks, List.forall_mem_singleton]; exact hd)
  exact ⟨p, b, e₁, e₀, es, s, t, hp, hblocks, hmade.type_eq.trans (by decide +kernel), hd, hrun,
    hbefore, ht⟩

/-- The run over three blocks: a target, the rows of the line, and nothing. -/
theorem run_refines_table_sample : ∃ (p : Program XReal) (a b c : Block XReal)
    (pre es : List (Eval XReal)) (e₀ : Eval XReal) (t : Fsm XReal) (n : ℕ) (rs : List (Row XReal)),
    p.blocks = [a, b, c] ∧ a.type = .rapid ∧ b.type = .line ∧ c.type = .noMotion ∧
      ProgramRun partData p.blocks pre e₀ es t ∧ t.second = .idle ∧ (∀ fuel, n < fuel →
        (Program.programWalk Machine.default fuel p).run Program.noRows =
          .ok () ⟨.fin ((rs.length : ℕ) * (1 / 1000)), rs⟩) ∧
      Draws Machine.default p (1 / 1000) p.blocks rs (es.filterMap commandOf) := by
  obtain ⟨p, a, b, c, hload, hmix⟩ := exists_mixed
  obtain ⟨e₁, e₀, es, s, t, -, -, hp, -, hrun, hbefore, ht⟩ := exists_part_run hload hmix.drivable
  obtain ⟨hA, htq⟩ := default_limits
  obtain ⟨n, rs, htab, hdraws⟩ := run_refines_table hrun (by rw [hbefore]; exact hp) hA
    (by norm_num) htq (by norm_num) hmix.known (fun o ho _ => hmix.drivable o ho) ht
  exact ⟨p, a, b, c, [e₁], es, e₀, t, n, rs, hmix.blocks, hmix.rapid, hmix.line, hmix.still, hrun, ht,
    htab, hdraws⟩

end Runs

end

end Cncpp
