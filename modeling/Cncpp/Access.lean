import Cncpp.Appending
import Cncpp.Reload

/-! What the state functions reach through pointers and iterators: the program, the block
under the cursor and the block before it.  No run from INIT finds one of them missing,
whatever file is loaded and whenever the machine is stopped. -/

namespace Cncpp

open DataArith Lib Lib.ExceptState Fsm

variable {K : Type}

/-! ## Programs whose cursor does not dangle -/

namespace Program

/-- The nodes are linked, and the cursor is at the end or on one of them. -/
structure Intact (p : Program K) : Prop extends Wired p where
  cursor : ∀ a, p.current = some a → ∃ b, p.find a = some b

variable {p : Program K} {b : Block K}

theorem intact_of_end (h : p.Wired) (hc : p.current = none) : p.Intact :=
  ⟨h, fun a ha => by rw [hc] at ha; cases ha⟩

/-- A block of the list is found at its address. -/
theorem exists_find (hb : b ∈ p.blocks) : ∃ c, p.find b.addr = some c := by
  cases hf : p.find b.addr with
  | some c => exact ⟨c, rfl⟩
  | none =>
    have hall := List.find?_eq_none.mp hf b hb
    simp at hall

theorem mem_of_find {a : Addr} (h : p.find a = some b) : b ∈ p.blocks :=
  List.mem_of_find?_eq_some h

theorem mem_of_deref (h : p.deref = some b) : b ∈ p.blocks := by
  obtain ⟨a, -, ha⟩ := Option.bind_eq_some_iff.mp h
  exact mem_of_find ha

/-- The node after another one is in the list. -/
theorem mem_of_after {bs : List (Block K)} {a c : Addr} (h : after a bs = some c) :
    ∃ b ∈ bs, b.addr = c := by
  induction bs with
  | nil => cases h
  | cons d ds ih =>
    rw [after] at h
    split at h
    · obtain ⟨b, hb, rfl⟩ := Option.map_eq_some_iff.mp h
      exact ⟨b, List.mem_cons_of_mem _ (List.mem_of_head? hb), rfl⟩
    · obtain ⟨b, hb, hc⟩ := ih h
      exact ⟨b, List.mem_cons_of_mem _ hb, hc⟩

theorem intact_loadNext (h : p.Wired) : p.loadNext.Intact := by
  refine ⟨⟨h.chain, h.fresh⟩, fun a ha => ?_⟩
  have hmem : ∃ b ∈ p.blocks, b.addr = a := by
    simp only [loadNext] at ha
    split at ha
    · obtain ⟨b, hb, rfl⟩ := Option.map_eq_some_iff.mp ha
      exact ⟨b, List.mem_of_head? hb, rfl⟩
    · exact mem_of_after ha
  obtain ⟨b, hb, rfl⟩ := hmem
  exact exists_find (p := p.loadNext) hb

theorem intact_rewind (h : p.Wired) : p.rewind.Intact :=
  intact_of_end ⟨h.chain, h.fresh⟩ rfl

/-- Where there is a next block, the cursor is on it. -/
theorem deref_loadNext (h : p.Wired) (hd : p.loadNext.done = false) :
    ∃ b, p.loadNext.deref = some b := by
  cases hc : p.loadNext.current with
  | none =>
    have : p.loadNext.done = p.loadNext.current.isNone := rfl
    rw [hd, hc] at this
    cases this
  | some a =>
    obtain ⟨b, hb⟩ := (intact_loadNext h).cursor a hc
    exact ⟨b, by rw [deref, hc]; exact hb⟩

/-- The pointer of a block leads into the list. -/
theorem exists_prev (h : p.Wired) (hb : b ∈ p.blocks) {a : Addr} (ha : b.prev = some a) :
    ∃ q, p.find a = some q := by
  obtain ⟨i, hi⟩ := List.mem_iff_getElem?.mp hb
  have hp := h.chain.prev_eq hi
  rw [ha] at hp
  split at hp
  · cases hp
  · obtain ⟨q, hq, rfl⟩ := Option.map_eq_some_iff.mp hp.symm
    exact exists_find (List.mem_of_getElem? hq)

variable [DataArith K] {m : Machine K} {line : Line}

/-- A node that an append has made, whether its line was accepted or not. -/
structure NewNode (m : Machine K) (line : Line) (p : Program K) (c : Block K) : Prop where
  last : ∀ o ∈ p.blocks.getLast?, o.parsed = true
  addr : c.addr = p.fresh
  prev : c.prev = p.linked.map (·.addr)
  parsed : c.parsed = true →
    (Block.parse m p.linked).run (Block.start p.fresh line p.blocks.getLast?) = .ok () c

/-- An append leaves the program as it is, or with a new node at the back, which points to
no node behind it. -/
theorem state_append_node (m : Machine K) (line : Line) (p : Program K) :
    state ((append m line).run p) = p ∨ ∃ c, NewNode m line p c ∧ c.next = none ∧
      state ((append m line).run p) = { p with blocks := p.front ++ [c], fresh := p.fresh + 1 } := by
  by_cases hpar : ∀ o ∈ p.blocks.getLast?, o.parsed = true
  · have hl : p.linked.map (·.addr) = p.blocks.getLast?.map (·.addr) := by
      rw [linked, Option.map_map]
      rfl
    by_cases hc : ∃ c, Block.Parsed m p.linked (Block.start p.fresh line p.blocks.getLast?) c
    · obtain ⟨c, hc⟩ := hc
      have hparse := Block.parse_iff.mpr hc
      obtain ⟨haddr, hprev, hnext⟩ := Block.link_of_parse hparse
      have hrun : (append m line).run p = _ := accepted_iff.mpr ⟨hpar, c, hc, rfl⟩
      refine .inr ⟨c, ⟨hpar, haddr.trans (Block.start_addr _), ?_, fun _ => hparse⟩,
        hnext.trans (Block.start_next _), by rw [hrun]; rfl⟩
      rw [hprev, Block.start_prev, hl]
    · obtain ⟨e, b, hrun, hplace⟩ := append_refused hpar hc
      simp only [Block.place, Prod.mk.injEq, Block.start_addr, Block.start_prev, Block.start_next,
        Block.start_parsed] at hplace
      obtain ⟨haddr, -, hprev, hnext, hparsed⟩ := hplace
      refine .inr ⟨b, ⟨hpar, haddr, ?_, fun hb => ?_⟩, hnext, by rw [hrun]; rfl⟩
      · rw [hprev, hl]
      · rw [hparsed] at hb
        cases hb
  · obtain ⟨o, ho, hf⟩ := exists_unparsed hpar
    rw [append_unparsed ho hf]
    exact .inl rfl

theorem state_append (m : Machine K) (line : Line) (p : Program K) :
    state ((append m line).run p) = p ∨ ∃ c, NewNode m line p c ∧
      state ((append m line).run p) = { p with blocks := p.front ++ [c], fresh := p.fresh + 1 } := by
  rcases state_append_node m line p with h | ⟨c, hc, -, h⟩
  · exact .inl h
  · exact .inr ⟨c, hc, h⟩

/-- The rule for what every append keeps, also one that throws. -/
theorem state_lines (I : Program K → Prop)
    (hstep : ∀ line p, I p → I (state ((append m line).run p))) (lines : List Line) (h : I p) :
    I (state ((appendAll m lines).run p)) := by
  induction lines generalizing p with
  | nil => exact h
  | cons line lines ih =>
    rw [appendAll]
    split
    · have ha := hstep line p h
      rw [EStateM.run_bind]
      cases hr : (append m line).run p with
      | ok _ q =>
        rw [hr] at ha
        exact ih ha
      | error e q =>
        rw [hr] at ha
        exact ha
    · exact ih h

/-- Appending a line keeps the nodes linked, and the cursor where it is, also when the line
is refused. -/
theorem wired_state_append (h : p.Wired) :
    (state ((append m line).run p)).Wired ∧ (state ((append m line).run p)).current = p.current := by
  rcases state_append m line p with hs | ⟨c, hc, hs⟩
  · rw [hs]
    exact ⟨h, rfl⟩
  · rw [hs]
    exact ⟨wired_snoc h hc.addr hc.prev, rfl⟩

/-- What a load leaves, whatever is in the file. -/
theorem intact_load {file : String} {content : Option (List Line)} (h : p.Intact) :
    (state ((load m file content false).run p)).Intact := by
  cases content with
  | none => exact ⟨⟨h.chain, h.fresh⟩, h.cursor⟩
  | some lines =>
    have hlines := state_lines (m := m) (p := reset { p with filename := file })
      (fun q => q.Wired ∧ q.current = none) (fun line q hq => ?_) lines
      ⟨⟨.nil, fun _ hb => nomatch hb⟩, rfl⟩
    · exact intact_of_end hlines.1 hlines.2
    · have ha : (state ((append m line).run q)).Wired ∧
          (state ((append m line).run q)).current = q.current := wired_state_append hq.1
      exact ⟨ha.1, ha.2.trans hq.2⟩

end Program

/-! ## State functions that find what they reach for -/

/-- An exception, and no access to something that is not there. -/
def Failure.IsException : Failure K → Prop
  | .exception _ => True
  | _ => False

namespace Fsm

variable {s : Fsm K} {p : Program K} {b : Block K} {a : Addr}

section Small

theorem throws_getProgram (h : s.data.program = some p) :
    Throws Failure.IsException getProgram s := .of_run (getProgram_ok.mpr ⟨h, rfl⟩)

theorem throws_currentBlock (h : s.data.program = some p) (hb : p.deref = some b) :
    Throws Failure.IsException currentBlock s := .of_run (currentBlock_ok.mpr ⟨p, h, hb, rfl⟩)

theorem throws_prevBlock (h : s.data.program = some p)
    (hp : ∀ a, b.prev = some a → ∃ q, p.find a = some q) :
    Throws Failure.IsException (prevBlock b) s := by
  unfold prevBlock
  split
  · exact .pure _
  · next a ha =>
    obtain ⟨q, hq⟩ := hp a ha
    refine .bind (throws_getProgram h) fun p' t hrun => ?_
    obtain ⟨h', rfl⟩ := getProgram_ok.mp hrun
    cases h.symm.trans h'
    rw [hq]
    exact .pure _

theorem throws_raise {α : Type} (x : Except (Exn K) α) :
    Throws Failure.IsException (raise x) s := by
  refine .ofExcept fun e he => ?_
  cases x with
  | ok _ => cases he
  | error e' =>
    cases he
    trivial

theorem throws_onMachine (x : MachineM K Unit) : Throws Failure.IsException (onMachine x) s := by
  intro e t h
  rw [run_onMachine] at h
  split at h
  · cases h
  · cases h
    trivial

theorem throws_sendMetrics (ok : Bool) : Throws Failure.IsException (sendMetrics ok) s := by
  refine .bind .get fun s t _ => ?_
  split
  · exact .throw trivial
  · exact .pure _

end Small

variable [DataArith K] {env : Env K}

theorem throws_init : Throws Failure.IsException (doInit env) s := by
  refine .bind .get fun u t _ => ?_
  dsimp only
  split
  · exact .pure _
  · refine .bind (.modify _) fun _ _ _ => ?_
    split
    · exact .pure _
    · exact .pure _

theorem throws_idle (h : s.data.program = some p) : Throws Failure.IsException (doIdle env) s := by
  unfold doIdle
  split
  · exact .pure _
  split
  · exact .bind (throws_getProgram h) fun _ _ _ => .bind .get fun _ _ _ =>
      .bind (.modify _) fun _ _ _ => .pure _
  split
  · exact .pure _
  split
  · exact .pure _
  · exact .pure _

theorem throws_loadBlock (h : s.data.program = some p) (hw : p.Wired) :
    Throws Failure.IsException (doLoadBlock env) s := by
  refine .bind (throws_getProgram h) fun p' t hrun => ?_
  obtain ⟨h', rfl⟩ := getProgram_ok.mp hrun
  cases h.symm.trans h'
  refine .bind (.modify _) fun _ u hset => ?_
  cases hset
  dsimp only
  split
  · exact .pure _
  · next hd =>
    obtain ⟨b, hb⟩ := Program.deref_loadNext hw (by simpa using hd)
    exact .bind (throws_currentBlock rfl hb) fun _ _ _ => .bind (throws_sendMetrics _) fun _ _ _ =>
      .bind .get fun _ _ _ => .bind (.modify _) fun _ _ _ => .pure _

theorem throws_rapidMotion (h : s.data.program = some p) (hb : p.deref = some b) :
    Throws Failure.IsException (doRapidMotion env) s := by
  refine .bind (throws_currentBlock h hb) fun _ _ _ => .bind (throws_onMachine _) fun _ _ _ =>
    .bind .get fun _ _ _ => .bind (.modify _) fun _ _ _ => .bind (.modify _) fun _ _ _ =>
    .bind (.modify _) fun _ _ _ => .bind .get fun _ _ _ => ?_
  split
  · exact .bind (.modify _) fun _ _ _ => .pure _
  · exact .pure _

theorem throws_interpMotion (h : s.data.program = some p) (hw : p.Wired) (hb : p.deref = some b) :
    Throws Failure.IsException (doInterpMotion env) s := by
  refine .bind (throws_currentBlock h hb) fun c t hrun => ?_
  obtain ⟨q, hq, hc, rfl⟩ := currentBlock_ok.mp hrun
  cases h.symm.trans hq
  cases hb.symm.trans hc
  refine .bind .get fun u t hg => ?_
  cases hg
  refine .bind (throws_prevBlock h fun a => Program.exists_prev hw (Program.mem_of_deref hb))
    fun _ _ _ => .bind (throws_raise _) fun _ _ _ => .bind (throws_onMachine _) fun _ _ _ =>
    .bind (.modify _) fun _ _ _ => .bind (.modify _) fun _ _ _ => .pure _

theorem throws_noMotion (h : s.data.program = some p) (hb : p.deref = some b) :
    Throws Failure.IsException doNoMotion s :=
  .bind (throws_currentBlock h hb) fun _ _ _ => .bind (throws_raise _) fun _ _ _ =>
    .bind .get fun _ _ _ => .bind (.modify _) fun _ _ _ => .pure _

theorem throws_goToZero : Throws Failure.IsException (doGoToZero env) s :=
  .bind .get fun _ _ _ => .bind (throws_onMachine _) fun _ _ _ => .bind .get fun _ _ _ => .pure _

omit [DataArith K] in
theorem throws_wrapper {st : State} {valid : List State} {emergency : Bool} {f : FsmM K State}
    (hf : Throws Failure.IsException f s) :
    Throws Failure.IsException (wrapper st valid emergency env f) s := by
  refine .bind hf fun n t _ => ?_
  split
  · exact .throw trivial
  · refine .bind (.modify _) fun _ _ _ => .bind .get fun _ _ _ => ?_
    split
    · exact .pure _
    · exact .pure _

theorem throws_transition {c d : State} (h : c = .idle → ∃ p, s.data.program = some p) :
    Throws Failure.IsException (transition env c d) s := by
  unfold transition
  split
  · obtain ⟨p, hp⟩ := h rfl
    exact .bind (throws_getProgram hp) fun _ _ _ => .bind (.modify _) fun _ _ _ => .modify _
  · exact .bind (.modify _) fun _ _ _ => throws_sendMetrics _
  · exact throws_sendMetrics _
  · exact .modify _
  · exact .pure _

/-! ## Invariants of the program -/

/-- What the loads, by machines of which `M` holds, and the moves of the cursor keep. -/
structure Upheld (M : Machine K → Prop) (I : Program K → Prop) : Prop where
  empty : ∀ file, I { Program.empty with filename := file }
  load : ∀ m file content p, M m → I p → I (state ((Program.load m file content false).run p))
  rewind : ∀ p, I p → I p.rewind
  next : ∀ p, I p → I p.loadNext

/-- Outside INIT and STOP there is a program of which `I` holds. -/
def Holds (I : Program K → Prop) (s : Fsm K) : Prop :=
  s.second ≠ .init → s.second ≠ .stop → ∃ p, s.data.program = some p ∧ I p

variable {t : Fsm K} {M : Machine K → Prop} {I : Program K → Prop}

/-- One evaluation. -/
theorem Upheld.step (hI : Upheld M I) (hM : M s.data.machine) (hs : Holds I s)
    (hne : s.second ≠ .stop) (h : (evalState env).run s = .ok () t) : Holds I t := by
  intro _ htne
  have hmem := eval_state h
  simp only [List.mem_cons, List.not_mem_nil, or_false] at hmem
  have hbefore : s.second ≠ .init → ∃ p, s.data.program = some p ∧ I p := fun hi => hs hi hne
  rcases hmem with hst | hst | hst | hst | hst | hst | hst | hst
  · rcases (eval_init hst h).next with ⟨hsec, -⟩ | ⟨-, p, hload, hprog⟩
    · exact absurd hsec htne
    · have hp := hI.load s.data.machine s.data.programFile env.file _ hM
        (hI.empty s.data.programFile)
      change I (state (initialLoad env s)) at hp
      rw [hload] at hp
      exact ⟨p, hprog, hp⟩
  all_goals obtain ⟨p, hp, hIp⟩ := hbefore (by rw [hst]; decide)
  · rcases (eval_idle hst h).key with ⟨-, -, q, hq, hprog⟩ | ⟨-, -, q, hq, hprog⟩ | ⟨-, -, -, hprog⟩
    · cases hp.symm.trans hq
      exact ⟨_, hprog, hI.load _ _ _ p hM hIp⟩
    · cases hp.symm.trans hq
      exact ⟨_, hprog, hI.rewind p hIp⟩
    · exact ⟨p, hprog.trans hp, hIp⟩
  · obtain ⟨q, hev⟩ := eval_loadBlock hst h
    cases hp.symm.trans hev.before
    exact ⟨_, hev.after, hI.next p hIp⟩
  · obtain ⟨q, b, hm⟩ := eval_rapidMotion hst h
    cases hp.symm.trans hm.before
    exact ⟨p, hm.after, hIp⟩
  · obtain ⟨q, b, prev, tgt, hm⟩ := eval_interpMotion hst h
    cases hp.symm.trans hm.before
    exact ⟨p, hm.after, hIp⟩
  · obtain ⟨q, b, hm⟩ := eval_noMotion hst h
    cases hp.symm.trans hm.before
    exact ⟨p, hm.after, hIp⟩
  · exact ⟨p, (eval_goToZero hst h).program.trans hp, hIp⟩
  · exact absurd hst hne

omit [DataArith K] in
theorem holds_setup (d : FsmData K) : Holds I (setup .init d) := fun h => absurd rfl h

theorem Upheld.run (hI : Upheld M I) {d : FsmData K} {es : List (Eval K)}
    (hr : FsmRun (setup .init d) es t) (hM : ∀ e ∈ es, M e.before.data.machine) : Holds I t := by
  refine hr.invariant_of (fun e => M e.before.data.machine) (Holds I) ?_ hM (holds_setup d)
  rintro e u v hMe hu ⟨rfl, rfl, hne, he⟩
  exact hI.step hMe hu hne he

theorem upheld_intact : Upheld (K := K) (fun _ => True) Program.Intact where
  empty file := Program.intact_of_end (Program.wired_empty file) rfl
  load _ _ _ _ _ h := Program.intact_load h
  rewind _ h := Program.intact_rewind h.toWired
  next _ h := Program.intact_loadNext h.toWired

/-- While a block is carried out the cursor is on it. -/
theorem block_of_eval (h : (evalState env).run s = .ok () t) (hne : s.second ≠ .stop)
    (ht : t.second ∈ [State.rapidMotion, .interpMotion, .noMotion]) :
    ∃ p b, t.data.program = some p ∧ p.deref = some b := by
  have hout : ∀ st : State, t.second = st → st ∉ [State.rapidMotion, .interpMotion, .noMotion] →
      False := by
    rintro st rfl hno
    exact hno ht
  have hmem := eval_state h
  simp only [List.mem_cons, List.not_mem_nil, or_false] at hmem
  rcases hmem with hst | hst | hst | hst | hst | hst | hst | hst
  · rcases (eval_init hst h).next with ⟨hsec, -⟩ | ⟨hsec, -⟩ <;> exact (hout _ hsec (by decide)).elim
  · rcases (eval_idle hst h).key with ⟨-, hsec | ⟨hsec, -⟩, -⟩ | ⟨-, hsec, -⟩ |
      ⟨-, -, hsec | hsec | hsec, -⟩ <;> exact (hout _ hsec (by decide)).elim
  · obtain ⟨q, hev⟩ := eval_loadBlock hst h
    rcases hev.next with ⟨-, hsec⟩ | ⟨-, b, hb, -⟩
    · exact (hout _ hsec (by decide)).elim
    · exact ⟨_, b, hev.after, hb⟩
  · obtain ⟨q, b, hm⟩ := eval_rapidMotion hst h
    exact ⟨q, b, hm.after, hm.block⟩
  · obtain ⟨q, b, prev, tgt, hm⟩ := eval_interpMotion hst h
    exact ⟨q, b, hm.after, hm.block⟩
  · obtain ⟨q, b, hm⟩ := eval_noMotion hst h
    exact ⟨q, b, hm.after, hm.block⟩
  · rcases (eval_goToZero hst h).next with hsec | hsec | hsec <;>
      exact (hout _ hsec (by decide)).elim
  · exact absurd hst hne

/-- What the state functions rely on. -/
structure Safe (s : Fsm K) : Prop where
  program : Holds Program.Intact s
  block : s.second ∈ [State.rapidMotion, .interpMotion, .noMotion] →
    ∃ p b, s.data.program = some p ∧ p.deref = some b

theorem safe_run {d : FsmData K} {es : List (Eval K)} (hr : FsmRun (setup .init d) es t) :
    Safe t := by
  refine ⟨upheld_intact.run hr fun _ _ => trivial, ?_⟩
  refine hr.invariant (fun u => u.second ∈ [State.rapidMotion, .interpMotion, .noMotion] →
    ∃ p b, u.data.program = some p ∧ p.deref = some b) ?_ fun hm => ?_
  · rintro e u v - ⟨rfl, rfl, hne, he⟩
    exact block_of_eval he hne
  · simp [setup] at hm

/-- A state function of a safe state. -/
theorem throws_stateFun (hsafe : Safe s) (v : Bool) :
    Throws Failure.IsException (stateFun env s.second) (s.signalled v) := by
  have hprog := hsafe.program
  have hblock := hsafe.block
  cases hs : s.second with
  | init => exact throws_wrapper throws_init
  | idle =>
    obtain ⟨p, hp, -⟩ := hprog (by rw [hs]; decide) (by rw [hs]; decide)
    exact throws_wrapper (throws_idle (p := p) hp)
  | loadBlock =>
    obtain ⟨p, hp, hi⟩ := hprog (by rw [hs]; decide) (by rw [hs]; decide)
    exact throws_wrapper (throws_loadBlock (p := p) hp hi.toWired)
  | rapidMotion =>
    obtain ⟨p, b, hp, hb⟩ := hblock (by rw [hs]; decide)
    exact throws_wrapper (throws_rapidMotion (p := p) hp hb)
  | interpMotion =>
    obtain ⟨p, b, hp, hb⟩ := hblock (by rw [hs]; decide)
    obtain ⟨q, hq, hi⟩ := hprog (by rw [hs]; decide) (by rw [hs]; decide)
    cases hp.symm.trans hq
    exact throws_wrapper (throws_interpMotion (p := p) hp hi.toWired hb)
  | noMotion =>
    obtain ⟨p, b, hp, hb⟩ := hblock (by rw [hs]; decide)
    exact throws_wrapper (throws_noMotion (p := p) hp hb)
  | goToZero => exact throws_wrapper throws_goToZero
  | stop => exact throws_wrapper (.pure _)
  | numStates | noChange | unimplemented => exact .throw trivial

theorem throws_eval (hsafe : Safe s) : Throws Failure.IsException (evalState env) s := by
  refine .bind (.modify _) fun _ u hset => ?_
  cases hset
  refine .bind .get fun _ u hg => ?_
  cases hg
  refine .bind (throws_stateFun hsafe env.sigint.before) fun n u hf => ?_
  refine .bind (.modify _) fun _ w hm => throws_transition fun hs => ?_
  cases hm
  -- IDLE has left a program, so the run that it starts can be rewound
  have hs : s.second = .idle := hs
  obtain ⟨p, hp, -⟩ := hsafe.program (by rw [hs]; decide) (by rw [hs]; decide)
  change (stateFun env s.second).run _ = _ at hf
  rw [hs] at hf
  obtain ⟨n', s', hidle, rfl, -⟩ := wrapper_ok hf
  cases doIdle_ok hidle with
  | run _ => exact ⟨p, hp⟩
  | reload _ _ => exact ⟨_, rfl⟩
  | other _ _ _ => exact ⟨p, hp⟩

/-- In every run from INIT, whatever files are loaded, whatever keys are pressed and whenever
SIGINT arrives: outside INIT and STOP the program is there and its cursor does not dangle,
the block that is carried out is in the list, and the next evaluation, whatever it reads,
does not reach for a program or a block that is not there. -/
theorem accesses_valid {d : FsmData K} {es : List (Eval K)} (hr : FsmRun (setup .init d) es t) :
    (t.second ≠ .init → t.second ≠ .stop → ∃ p, t.data.program = some p ∧
      ∀ a, p.current = some a → ∃ b ∈ p.blocks, p.find a = some b) ∧
    (t.second ∈ [State.rapidMotion, .interpMotion, .noMotion] →
      ∃ p, t.data.program = some p ∧ ∃ b ∈ p.blocks, p.deref = some b) ∧
    ∀ env f u, (evalState env).run t = .error f u → f.IsException := by
  have hsafe := safe_run hr
  refine ⟨fun hi hs => ?_, fun hs => ?_, fun env f u h => throws_eval hsafe f u h⟩
  · obtain ⟨p, hp, hin⟩ := hsafe.program hi hs
    refine ⟨p, hp, fun a ha => ?_⟩
    obtain ⟨b, hb⟩ := hin.cursor a ha
    exact ⟨b, Program.mem_of_find hb, hb⟩
  · obtain ⟨p, b, hp, hb⟩ := hsafe.block hs
    exact ⟨p, hp, b, Program.mem_of_deref hb, hb⟩

/-- A file of one rapid motion, up to the motion. -/
theorem accesses_valid_sample : ∃ (es : List (Eval XReal)) (t : Fsm XReal),
    FsmRun (setup .init partData) es t ∧ t.second = .rapidMotion ∧
      ∃ p, t.data.program = some p ∧ ∃ b ∈ p.blocks, p.deref = some b := by
  obtain ⟨p, b, e₁, e₀, e₂, t, h, -, hrapid⟩ := exists_rapid_opening (K := XReal)
  exact ⟨_, t, h.run, hrapid, (accesses_valid h.run).2.1 (by rw [hrapid]; decide)⟩

end Fsm

end Cncpp
