import Cncpp.Enabled

/-! A program run: from the key that starts it to the return to IDLE.  The blocks are
loaded in order, and each is carried out before the next one is loaded, as long as
every block that is loaded has a known type. -/

namespace Cncpp

open DataArith Lib Lib.ExceptState

variable {K : Type}

/-! ## Events -/

/-- What a run does with the block at an address. -/
inductive Event where
  | load (a : Addr)
  | exec (a : Addr)

def Fsm.cursor (s : Fsm K) : Option Addr := s.data.program.bind (·.current)

/-- A block is loaded by LOAD_BLOCK, and carried out by the three states of motion. -/
def eventOf (e : Eval K) : Option Event :=
  match e.before.second with
  | .loadBlock => e.after.cursor.map .load
  | .rapidMotion | .interpMotion | .noMotion => e.before.cursor.map .exec
  | _ => none

def events (es : List (Eval K)) : List Event := es.filterMap eventOf

/-- The events of an orderly run over the blocks at `as`, of which `n` have been loaded;
the flag says whether the last of them has been carried out. -/
inductive Progress (as : List Addr) : List Event → ℕ → Bool → Prop
  | start : Progress as [] 0 true
  | load {evs : List Event} {n : ℕ} {a : Addr} : Progress as evs n true → as[n]? = some a →
      Progress as (evs ++ [.load a]) (n + 1) false
  | exec {evs : List Event} {n : ℕ} {v : Bool} {a : Addr} : Progress as evs (n + 1) v →
      as[n]? = some a → Progress as (evs ++ [.exec a]) (n + 1) true

/-- A run that has just loaded a block has not carried it out yet. -/
theorem Progress.last_load {as : List Addr} {evs : List Event} {n : ℕ} {v : Bool} {a : Addr}
    (h : Progress as (evs ++ [.load a]) n v) : v = false := by
  generalize hl : evs ++ [.load a] = l at h
  cases h with
  | start => simp at hl
  | load _ _ => rfl
  | exec _ _ => exact nomatch (List.append_inj' hl rfl).2

/-- A run over `bs`: it is orderly, and when the machine is back in IDLE the program is
done, every block having been loaded and carried out. -/
def InOrder (bs : List (Block K)) (es : List (Eval K)) (t : Fsm K) : Prop :=
  ∃ n v, Progress (bs.map (·.addr)) (events es) n v ∧
    (t.second = .idle → n = bs.length ∧ v = true ∧ ∃ q, t.data.program = some q ∧ q.done = true)

/-! ## Block types -/

namespace BlockType

/-- The types that the enumeration lists. -/
def Known (t : BlockType) : Prop := t ∈ [rapid, line, cwa, ccwa, noMotion]

instance (t : BlockType) : Decidable t.Known := inferInstanceAs (Decidable (t ∈ _))

theorem blockState_eq_idle {t : BlockType} : Fsm.blockState t = .idle ↔ ¬ t.Known := by
  unfold Fsm.blockState Known
  split_ifs <;> simp_all

theorem blockState_known {t : BlockType} (h : t.Known) :
    Fsm.blockState t ∈ [State.rapidMotion, .interpMotion, .noMotion] := by
  have hne : Fsm.blockState t ≠ .idle := mt blockState_eq_idle.mp (not_not.mpr h)
  have hmem := Fsm.blockState_mem t
  simp only [List.mem_cons, List.not_mem_nil, or_false] at hmem ⊢
  tauto

theorem blockState_of_interpolated {t : BlockType} (h : t.Interpolated) :
    Fsm.blockState t = .interpMotion := by
  rcases h with rfl | rfl | rfl <;> decide

end BlockType

/-! ## One step -/

variable [DataArith K]

open Fsm

/-- The machine has loaded `n` blocks of `bs`. -/
structure Walk (bs : List (Block K)) (s : Fsm K) (q : Program K) (n : ℕ) : Prop where
  program : s.data.program = some q
  blocks : q.blocks = bs
  cursor : q.CursorAt n

/-- Where an orderly run over `bs` stands. -/
structure Phase (bs : List (Block K)) (evs : List Event) (s : Fsm K) (q : Program K) (n : ℕ)
    (v : Bool) : Prop extends Walk bs s q n where
  progress : Progress (bs.map (·.addr)) evs n v

/-- The states of an orderly run. -/
inductive Orderly (bs : List (Block K)) (evs : List Event) (s : Fsm K) : Prop
  | ready {q : Program K} {n : ℕ} : s.second = .loadBlock → Phase bs evs s q n true →
      Orderly bs evs s
  | moving {q : Program K} {n : ℕ} {v : Bool} :
      s.second ∈ [State.rapidMotion, .interpMotion, .noMotion] → Phase bs evs s q (n + 1) v →
      Orderly bs evs s
  | finished {q : Program K} : s.second = .idle → s.data.program = some q → q.done = true →
      Progress (bs.map (·.addr)) evs bs.length true → Orderly bs evs s

variable {bs : List (Block K)} {evs : List Event} {s t : Fsm K} {e : Eval K} {q : Program K} {n : ℕ}

/-- The next block that LOAD_BLOCK would load has a known type. -/
def LoadsKnown (s : Fsm K) : Prop :=
  s.second = .loadBlock → ∀ q b, s.data.program = some q → q.loadNext.deref = some b →
    b.type.Known

omit [DataArith K] in
theorem loadsKnown_of_all {q : Program K} (hq : s.data.program = some q)
    (h : ∀ b ∈ q.blocks, b.type.Known) : LoadsKnown s := by
  intro _ q' b hq' hb
  cases hq.symm.trans hq'
  obtain ⟨a, -, ha⟩ := Option.bind_eq_some_iff.mp hb
  exact h b (List.mem_of_find?_eq_some ha)

omit [DataArith K] in
theorem Walk.deref (hw : Walk bs s q (n + 1)) (hc : Chain bs) {b : Block K}
    (hb : bs[n]? = some b) : q.deref = some b := by
  rw [Program.deref_of_cursorAt (hw.blocks ▸ hc) hw.cursor, hw.blocks]
  exact hb

omit [DataArith K] in
theorem Walk.cursor_eq (hw : Walk bs s q (n + 1)) {b : Block K} (hb : bs[n]? = some b) :
    s.cursor = some b.addr := by
  obtain ⟨c, hc, hcur⟩ := hw.cursor
  rw [hw.blocks] at hc
  cases hb.symm.trans hc
  rw [Fsm.cursor, hw.program]
  exact hcur

/-- LOAD_BLOCK goes to the next block, or ends the run. -/
theorem walk_load (hc : Chain bs) (hs : s.second = .loadBlock)
    (hw : Walk bs s q n) (he : Evaluates e s t) :
    (∃ b, bs[n]? = some b ∧ q.loadNext.deref = some b ∧ t.second = blockState b.type ∧
      t.cursor = some b.addr ∧ Walk bs t q.loadNext (n + 1)) ∨
    (n = bs.length ∧ t.second = .idle ∧ t.cursor = none ∧ t.data.program = some q.loadNext ∧
      q.loadNext.done = true) := by
  obtain ⟨rfl, rfl, -, h⟩ := he
  obtain ⟨q', hload⟩ := eval_loadBlock hs h
  cases hw.program.symm.trans hload.before
  have hblocks : q.loadNext.blocks = bs := hw.blocks
  rcases Program.loadNext_cases (hw.blocks ▸ hc) hw.cursor with ⟨b, hb, hd, hdone, hcur⟩ |
    ⟨hn, hdone⟩
  · have hsec : e.after.second = blockState b.type := by
      rcases hload.next with ⟨hdone', -⟩ | ⟨-, c, hc, hsec⟩
      · rw [hdone] at hdone'
        cases hdone'
      · cases hd.symm.trans hc
        exact hsec
    rw [hw.blocks] at hb
    have hw' : Walk bs e.after q.loadNext (n + 1) := ⟨hload.after, hblocks, hcur⟩
    exact .inl ⟨b, hb, hd, hsec, hw'.cursor_eq hb, hw'⟩
  · have hsec : e.after.second = .idle := by
      rcases hload.next with ⟨-, hsec⟩ | ⟨hdone', -⟩
      · exact hsec
      · rw [hdone] at hdone'
        cases hdone'
    have hnone : q.loadNext.current = none := Option.isNone_iff_eq_none.mp hdone
    have hcursor : e.after.cursor = none := by simp [Fsm.cursor, hload.after, hnone]
    exact .inr ⟨hn.trans (congrArg List.length hw.blocks), hsec, hcursor, hload.after, hdone⟩

theorem orderly_load (hc : Chain bs) (hs : s.second = .loadBlock)
    (hp : Phase bs evs s q n true) (he : Evaluates e s t) (hk : LoadsKnown s) :
    Orderly bs (evs ++ (eventOf e).toList) t := by
  have hev : eventOf e = t.cursor.map .load := by
    rw [eventOf, he.1, hs, he.2.1]
  rcases walk_load hc hs hp.toWalk he with ⟨b, hb, hd, hsec, hcur, hw⟩ |
    ⟨hn, hsec, hcur, hprog, hdone⟩
  · have hknown := BlockType.blockState_known (hk hs q b hp.program hd)
    have has : (bs.map (·.addr))[n]? = some b.addr := by
      rw [List.getElem?_map, hb]
      rfl
    rw [← hsec] at hknown
    rw [hev, hcur]
    exact .moving hknown ⟨hw, hp.progress.load has⟩
  · rw [hev, hcur, Option.map_none, Option.toList_none, List.append_nil]
    refine .finished hsec hprog hdone ?_
    rw [← hn]
    exact hp.progress

theorem orderly_move {q' : Program K} {v : Bool} {b : Block K}
    (hs : s.second ∈ [State.rapidMotion, .interpMotion, .noMotion]) (hp : Phase bs evs s q (n + 1) v)
    (he : Evaluates e s t) (hm : MoveEval s t q' b) (hflag : t.stopRequested = false) :
    Orderly bs (evs ++ (eventOf e).toList) t := by
  obtain ⟨rfl, rfl, -, -⟩ := he
  cases hp.program.symm.trans hm.before
  obtain ⟨c, hb, hcur⟩ := hp.cursor
  have hcursor : e.before.cursor = some c.addr := hp.cursor_eq (hp.blocks ▸ hb)
  have hev : eventOf e = some (.exec c.addr) := by
    simp only [List.mem_cons, List.not_mem_nil, or_false] at hs
    rcases hs with hs | hs | hs <;> simp [eventOf, hs, hcursor]
  have has : (bs.map (·.addr))[n]? = some c.addr := by
    rw [List.getElem?_map, ← hp.blocks, hb]
    rfl
  have hphase : Phase bs (evs ++ [.exec c.addr]) e.after q (n + 1) true :=
    ⟨⟨hm.after, hp.blocks, c, hb, hcur⟩, hp.progress.exec has⟩
  rw [hev]
  rcases hm.next with ⟨-, h⟩ | h | h
  · rw [hflag] at h
    cases h
  · exact .ready h hphase
  · exact .moving (h ▸ hs) hphase

/-- One evaluation keeps a run orderly. -/
theorem orderly_step (hc : Chain bs) (ho : Orderly bs evs s) (he : Evaluates e s t)
    (hq : Quiet e.env) (hstop : s.stopRequested = false) (hidle : s.second ≠ .idle)
    (hk : LoadsKnown s) : Orderly bs (evs ++ (eventOf e).toList) t := by
  have hflag : t.stopRequested = false := by
    obtain ⟨-, -, hne, h⟩ := he
    exact flag_of_quiet hq hstop hne h
  cases ho with
  | ready hs hp => exact orderly_load hc hs hp he hk
  | finished hs _ _ _ => exact absurd hs hidle
  | moving hs hp =>
    have h := he.2.2.2
    have hmem := hs
    simp only [List.mem_cons, List.not_mem_nil, or_false] at hmem
    rcases hmem with hm | hm | hm
    · obtain ⟨q', b, hev⟩ := eval_rapidMotion hm h
      exact orderly_move hs hp he hev.toMoveEval hflag
    · obtain ⟨q', b, prev, tgt, hev⟩ := eval_interpMotion hm h
      exact orderly_move hs hp he hev.toMoveEval hflag
    · obtain ⟨q', b, hev⟩ := eval_noMotion hm h
      exact orderly_move hs hp he hev.toMoveEval hflag

/-! ## Runs -/

theorem orderly_run (hc : Chain bs) {es : List (Eval K)} (hr : FsmRun s es t)
    (ho : Orderly bs evs s) (hstop : s.stopRequested = false) (hq : ∀ e ∈ es, Quiet e.env)
    (hbusy : ∀ e ∈ es, e.before.second ≠ .idle) (hk : ∀ e ∈ es, LoadsKnown e.before) :
    Orderly bs (evs ++ events es) t := by
  induction hr generalizing evs with
  | nil s => simpa [events] using ho
  | @cons e s u t es he hr ih =>
    have hbefore := he.1
    have hne := he.2.2.1
    have hfalse := flag_of_quiet (hq e (by simp)) hstop hne he.2.2.2
    have hu := orderly_step hc ho he (hq e (by simp)) hstop (hbefore ▸ hbusy e (by simp))
      (hbefore ▸ hk e (by simp))
    have h := ih hu hfalse (fun e' he' => hq e' (by simp [he']))
      (fun e' he' => hbusy e' (by simp [he'])) (fun e' he' => hk e' (by simp [he']))
    have hev : events (e :: es) = (eventOf e).toList ++ events es := by
      rw [events, List.filterMap_cons]
      cases eventOf e <;> rfl
    rw [hev, ← List.append_assoc]
    exact h

omit [DataArith K] in
theorem Orderly.inOrder {es : List (Eval K)} (h : Orderly bs (events es) t) : InOrder bs es t := by
  cases h with
  | ready hs hp => exact ⟨_, _, hp.progress, fun hi => by rw [hs] at hi; cases hi⟩
  | moving hs hp =>
    refine ⟨_, _, hp.progress, fun hi => ?_⟩
    rw [hi] at hs
    exact absurd hs (by decide)
  | finished _ hq hd hp => exact ⟨_, _, hp, fun _ => ⟨rfl, rfl, _, hq, hd⟩⟩

/-- Loading a block of an unknown type ends the run, in IDLE, and too early. -/
theorem not_inOrder_of_unknown {es : List (Eval K)} (hr : FsmRun s es t)
    (hbusy : ∀ e ∈ es, e.before.second ≠ .idle) (he : e ∈ es) (hk : ¬ LoadsKnown e.before) :
    ¬ InOrder bs es t := by
  obtain ⟨l, l', rfl⟩ := List.append_of_mem he
  obtain ⟨u, -, hr⟩ := hr.append_split
  cases hr with
  | @cons _ _ w _ _ hstep hr =>
    obtain ⟨rfl, rfl, -, h⟩ := hstep
    simp only [LoadsKnown, not_forall] at hk
    obtain ⟨hs, q, b, hq, hd, hk⟩ := hk
    obtain ⟨q', hload⟩ := eval_loadBlock hs h
    cases hq.symm.trans hload.before
    have hdone : q.loadNext.done = false := by
      cases hcur : q.loadNext.current with
      | none => rw [Program.deref, hcur] at hd; cases hd
      | some a =>
        show q.loadNext.current.isNone = false
        rw [hcur]
        rfl
    have hsec : e.after.second = .idle := by
      rcases hload.next with ⟨-, hsec⟩ | ⟨-, c, hc, hsec⟩
      · exact hsec
      · cases hd.symm.trans hc
        exact hsec.trans (BlockType.blockState_eq_idle.mpr hk)
    -- nothing is evaluated in IDLE, so the run ends here
    have hl' : l' = [] := by
      cases hr with
      | nil => rfl
      | @cons e' _ _ _ l'' hstep' _ =>
        exact absurd (hstep'.1 ▸ hsec) (hbusy e' (by simp))
    subst hl'
    cases hr
    obtain ⟨a, ha⟩ : ∃ a, q.loadNext.current = some a := by
      cases hcur : q.loadNext.current with
      | none => rw [Program.deref, hcur] at hd; cases hd
      | some a => exact ⟨a, rfl⟩
    have hev : events (l ++ [e]) = events l ++ [.load a] := by
      have : eventOf e = some (.load a) := by
        rw [eventOf, hs]
        simp [Fsm.cursor, hload.after, ha]
      simp [events, this]
    rintro ⟨n, v, hp, hi⟩
    obtain ⟨-, rfl, -⟩ := hi hsec
    rw [hev] at hp
    cases hp.last_load

/-! ## Program runs -/

/-- A run from INIT in which SPACE in IDLE, in the evaluation `e₀`, starts the run `es`
over the blocks `bs`; it goes up to the next evaluation of IDLE.  No SIGINT arrives. -/
structure ProgramRun (d : FsmData K) (bs : List (Block K)) (pre : List (Eval K)) (e₀ : Eval K)
    (es : List (Eval K)) (t : Fsm K) : Prop where
  run : FsmRun (setup .init d) (pre ++ e₀ :: es) t
  quiet : ∀ e ∈ pre ++ e₀ :: es, Quiet e.env
  idle : e₀.before.second = .idle
  key : e₀.env.key = ' '
  program : ∃ q, e₀.before.data.program = some q ∧ q.blocks = bs
  busy : ∀ e ∈ es, e.before.second ≠ .idle

theorem calm_of_quiet {es : List (Eval K)} (hr : FsmRun s es t) (hs : s.stopRequested = false)
    (hq : ∀ e ∈ es, Quiet e.env) : t.stopRequested = false := by
  refine hr.invariant_of (fun e => Quiet e.env) (fun u => u.stopRequested = false) ?_ hq hs
  rintro e u v hqe hu ⟨rfl, rfl, hne, he⟩
  exact flag_of_quiet hqe hu hne he

/-- A program run starts in LOAD_BLOCK, before the first block. -/
theorem ProgramRun.start {d : FsmData K} {pre es : List (Eval K)} {e₀ : Eval K}
    (h : ProgramRun d bs pre e₀ es t) :
    FsmRun e₀.after es t ∧ e₀.after.stopRequested = false ∧ e₀.after.second = .loadBlock ∧
      ∃ q, Phase bs [] e₀.after q 0 true := by
  obtain ⟨u, hpre, hr⟩ := h.run.append_split
  cases hr with
  | cons hstep hr =>
    obtain ⟨rfl, rfl, hne, he⟩ := hstep
    have hev := eval_idle h.idle he
    have hu := calm_of_quiet hpre rfl fun e hm => h.quiet e (by simp [hm])
    have hcalm := flag_of_quiet (h.quiet e₀ (by simp)) hu hne he
    obtain ⟨q, hq, hb⟩ := h.program
    rcases hev.key with ⟨hk, -⟩ | ⟨-, hsec, q', hq', hprog⟩ | ⟨-, hk, -⟩
    · rw [h.key] at hk
      exact absurd hk (by decide)
    · cases hq.symm.trans hq'
      exact ⟨hr, hcalm, hsec, q.rewind, ⟨hprog, hb, q.cursorAt_rewind⟩, .start⟩
    · rw [hk h.key] at hcalm
      cases hcalm

/-- A run over an accepted program is in order exactly when every block that it loads
has one of the types that the machine knows. -/
theorem in_order_iff {m : Machine K} {edits : List Edit} {p : Program K} {d : FsmData K}
    {pre es : List (Eval K)} {e₀ : Eval K} (hp : Run (Edited m) Program.empty edits p)
    (h : ProgramRun d p.blocks pre e₀ es t) :
    InOrder p.blocks es t ↔ ∀ e ∈ es, LoadsKnown e.before := by
  obtain ⟨hr, hcalm, hsec, q, hphase⟩ := h.start
  constructor
  · intro hin e he
    by_contra hk
    exact not_inOrder_of_unknown hr h.busy he hk hin
  · intro hk
    have ho : Orderly p.blocks [] e₀.after := .ready hsec hphase
    exact (orderly_run (chain_of_edits hp) hr ho hcalm (fun e he => h.quiet e (by simp [he]))
      h.busy hk).inOrder

/-! ## The first block of a file -/

/-- The data of a default machine without an agent. -/
def partData : FsmData K := ⟨"part.g", .default, none, num 0, num 0⟩

/-- A run that loads a file in INIT, starts it, and loads its first block. -/
structure Opening (lines : List Line) (p : Program K) (b : Block K) (e₁ e₀ e₂ : Eval K)
    (s : Fsm K) : Prop where
  load : Edited Machine.default (.load "part.g" (some lines) false) Program.empty p
  run : FsmRun (setup .init partData) [e₁, e₀, e₂] s
  file : e₁.env = { file := some lines }
  idle : e₀.before.second = .idle
  program : e₀.before.data.program = some p
  space : e₀.env = { key := ' ' }
  ready : Standing .loadBlock p.rewind e₂.before
  first : e₂.env = {}
  block : p.blocks[0]? = some b
  deref : p.rewind.loadNext.deref = some b
  cursor : p.rewind.loadNext.CursorAt 1
  standing : Standing (blockState b.type) p.rewind.loadNext s
  machine : s.data.machine = .default

theorem exists_opening (lines : List Line) (line : Line)
    (hw : ∀ line ∈ lines.filter Program.isCode, ∀ t ∈ commands line, IsWord t ∧ letter t ≠ 'N')
    (ht : ∀ line ∈ lines.filter Program.isCode,
      (lastOf typeWord (commands line)).getD .noMotion ∉ [BlockType.cwa, .ccwa])
    (hl : (lines.filter Program.isCode)[0]? = some line) :
    ∃ (p : Program K) (b : Block K) (e₁ e₀ e₂ : Eval K) (s : Fsm K),
      Opening lines p b e₁ e₀ e₂ s ∧ b.type = typeCode line := by
  obtain ⟨p, hload⟩ := exists_load (K := K) Machine.default "part.g" lines hw ht
  obtain ⟨b, hb, hmade⟩ := (blocks_of_load hload).2 0 line hl
  have hc : Chain p.blocks := chain_of_edits (.single hload)
  obtain ⟨hd, hdone, hcur⟩ := Program.loadNext_of_get (p := p.rewind) hc p.cursorAt_rewind hb
  obtain ⟨e₁, u, h1, henv1, hu, hm1⟩ := exists_init (d := partData) rfl hload
  obtain ⟨e₀, v, h0, henv0, hv, hm0⟩ := exists_space hu
  obtain ⟨e₂, s, h2, henv2, hs, hm2, -⟩ := exists_next hv hd hdone
  refine ⟨p, b, e₁, e₀, e₂, s, ⟨hload, .cons h1 (.cons h0 (.single h2)), henv1, ?_, ?_, henv0, ?_,
    henv2, hb, hd, hcur, hs, hm2.trans (hm0.trans hm1)⟩, hmade.type_eq⟩
  · rw [h0.1]
    exact hu.second
  · rw [h0.1]
    exact hu.program
  · rw [h2.1]
    exact hv

/-- The opening of a file of one rapid motion. -/
theorem exists_rapid_opening : ∃ (p : Program K) (b : Block K) (e₁ e₀ e₂ : Eval K) (s : Fsm K),
    Opening ["G0 X1".toList] p b e₁ e₀ e₂ s ∧ b.type = .rapid ∧ s.second = .rapidMotion := by
  obtain ⟨p, b, e₁, e₀, e₂, s, h, ht⟩ := exists_opening (K := K) ["G0 X1".toList]
    "G0 X1".toList (by decide +kernel) (by decide +kernel) (by decide +kernel)
  have hrapid : b.type = .rapid := ht.trans (by decide +kernel)
  refine ⟨p, b, e₁, e₀, e₂, s, h, hrapid, ?_⟩
  rw [h.standing.second, hrapid]
  rfl

theorem Opening.programRun {lines : List Line} {p : Program K} {b : Block K} {e₁ e₀ e₂ : Eval K}
    {s : Fsm K} {es : List (Eval K)} (h : Opening lines p b e₁ e₀ e₂ s) (hr : FsmRun s es t)
    (hq : ∀ e ∈ es, Quiet e.env) (hbusy : ∀ e ∈ es, e.before.second ≠ .idle) :
    ProgramRun partData p.blocks [e₁] e₀ (e₂ :: es) t := by
  refine ⟨h.run.append hr, ?_, h.idle, by rw [h.space], ⟨p, h.program, rfl⟩, ?_⟩
  · simp only [List.cons_append, List.nil_append, List.mem_cons, forall_eq_or_imp, h.file, h.space,
      h.first]
    exact ⟨⟨rfl, rfl, rfl⟩, ⟨rfl, rfl, rfl⟩, ⟨rfl, rfl, rfl⟩, hq⟩
  · simp only [List.mem_cons, forall_eq_or_imp, h.ready.second]
    exact ⟨by decide, hbusy⟩

/-- Two rapid motions. -/
def stepLines : List Line := ["G0 X1".toList, "G0 X2".toList]

/-- A file of two rapid motions, run to its end. -/
theorem in_order_iff_sample : ∃ (p : Program XReal) (pre es : List (Eval XReal))
    (e₀ : Eval XReal) (t : Fsm XReal),
    Edited Machine.default (.load "part.g" (some stepLines) false) Program.empty p ∧
      p.blocks.length = 2 ∧ ProgramRun partData p.blocks pre e₀ es t ∧ t.second = .idle ∧
      InOrder p.blocks es t := by
  obtain ⟨p, b, e₁, e₀, e₂, s, h, hty⟩ := exists_opening (K := XReal) stepLines "G0 X1".toList
    (by decide +kernel) (by decide +kernel) (by decide +kernel)
  obtain ⟨hlines, hblocks⟩ := blocks_of_load h.load
  have hlen : p.blocks.length = 2 := hlines.trans (by decide +kernel)
  obtain ⟨c, hc, hmade⟩ := hblocks 1 "G0 X2".toList (by decide +kernel)
  have hb : b.type = .rapid := hty.trans (by decide +kernel)
  have hcty : c.type = .rapid := hmade.type_eq.trans (by decide +kernel)
  have hp : Run (Edited Machine.default) Program.empty
    [.load "part.g" (some stepLines) false] p := .single h.load
  have hchain := chain_of_edits hp
  have hchain' : Chain p.rewind.loadNext.blocks := hchain
  have hs : Standing .rapidMotion p.rewind.loadNext s := by
    have hs := h.standing
    rw [hb] at hs
    exact hs
  obtain ⟨e₃, s₃, h3, henv3, hs3, -⟩ := exists_rapid hs h.deref {} rfl
  obtain ⟨hderef, hdone, hcur⟩ := Program.loadNext_of_get hchain' h.cursor hc
  obtain ⟨e₄, s₄, h4, henv4, hs4, -⟩ := exists_next hs3 hderef hdone
  rw [hcty] at hs4
  obtain ⟨e₅, s₅, h5, henv5, hs5, -⟩ := exists_rapid hs4 hderef {} rfl
  have hend : p.rewind.loadNext.loadNext.CursorAt p.rewind.loadNext.loadNext.blocks.length := by
    change p.rewind.loadNext.loadNext.CursorAt p.blocks.length
    rw [hlen]
    exact hcur
  obtain ⟨e₆, t, h6, henv6, ht⟩ := exists_end hs5 (Program.loadNext_of_length hchain hend)
  have hrun : ProgramRun partData p.blocks [e₁] e₀ [e₂, e₃, e₄, e₅, e₆] t := by
    refine h.programRun (.cons h3 (.cons h4 (.cons h5 (.single h6)))) ?_ ?_
    · simp only [List.mem_cons, List.not_mem_nil, or_false, forall_eq_or_imp, forall_eq, henv3, henv4,
        henv5, henv6]
      exact ⟨⟨rfl, rfl, rfl⟩, ⟨rfl, rfl, rfl⟩, ⟨rfl, rfl, rfl⟩, rfl, rfl, rfl⟩
    · simp only [List.mem_cons, List.not_mem_nil, or_false, forall_eq_or_imp, forall_eq, h3.1, h4.1,
        h5.1, h6.1, hs.second, hs3.second, hs4.second, hs5.second]
      decide
  have hall : ∀ a ∈ p.blocks, a.type.Known := by
    obtain ⟨b', c', he⟩ := List.length_eq_two.mp hlen
    have hb' := h.block
    rw [he] at hb' hc
    cases hb'
    cases hc
    simp only [he, List.mem_cons, List.not_mem_nil, or_false, forall_eq_or_imp, forall_eq, hb, hcty]
    decide
  refine ⟨p, [e₁], [e₂, e₃, e₄, e₅, e₆], e₀, t, h.load, hlen, hrun, ht.second,
    (in_order_iff hp hrun).mpr ?_⟩
  simp only [List.mem_cons, List.not_mem_nil, or_false, forall_eq_or_imp, forall_eq, h3.1, h4.1, h5.1,
    h6.1]
  exact ⟨loadsKnown_of_all h.ready.program hall, loadsKnown_of_all hs.program hall,
    loadsKnown_of_all hs3.program hall, loadsKnown_of_all hs4.program hall,
    loadsKnown_of_all hs5.program hall⟩

/-- A file whose first block is not a motion that the machine knows: the run is over
after that block has been loaded, and the motion that follows is never carried out. -/
theorem ends_early : ∃ (p : Program XReal) (pre es : List (Eval XReal))
    (e₀ : Eval XReal) (t : Fsm XReal),
    Edited Machine.default (.load "part.g" (some ["G90".toList, "G0 X1".toList]) false)
        Program.empty p ∧
      ProgramRun partData p.blocks pre e₀ es t ∧ t.data.machine.agent = none ∧
      t.second = .idle ∧ t.data.program.map (·.done) = some false ∧ ¬ InOrder p.blocks es t := by
  obtain ⟨p, b, e₁, e₀, e₂, t, h, ht⟩ := exists_opening (K := XReal)
    ["G90".toList, "G0 X1".toList] "G90".toList
    (by decide +kernel) (by decide +kernel) (by decide +kernel)
  have hunknown : ¬ b.type.Known := by
    rw [ht]
    decide +kernel
  have ht := h.standing
  rw [BlockType.blockState_eq_idle.mpr hunknown] at ht
  have hrun : ProgramRun partData p.blocks [e₁] e₀ [e₂] t :=
    h.programRun (.nil t) (fun _ hm => nomatch hm) (fun _ hm => nomatch hm)
  have hdone : p.rewind.loadNext.done = false := by
    obtain ⟨c, -, hcur⟩ := h.cursor
    change p.rewind.loadNext.current.isNone = false
    rw [hcur]
    rfl
  refine ⟨p, [e₁], [e₂], e₀, t, h.load, hrun, ht.agent, ht.second, ?_, ?_⟩
  · rw [ht.program, Option.map_some, hdone]
  · refine not_inOrder_of_unknown hrun.start.1 hrun.busy (by simp : e₂ ∈ [e₂]) fun hk => ?_
    exact hunknown (hk h.ready.second _ b h.ready.program h.deref)

end Cncpp
