import Cncpp.Copies

/-! The programs of the bindings, which have a cursor of their own beside that of the program:
an iterator into its list.  It is seen as an index here.  The calls that change the list set the
cursor back when they return, but not when they throw, so a load that has cleared the list and
then throws leaves it on a node that is gone. -/

namespace Cncpp

open DataArith Lib Lib.ExceptState

variable {K : Type}

structure PyProgram (K : Type) where
  program : Program K
  /-- The node the iterator designates; `none` is `end()`. -/
  current : Option Addr
  started : Bool

abbrev PyM (K : Type) := EStateM (PyError K) (PyProgram K)

/-- What a call hands out: nothing, a handle or `None`, or a truth value.  A handle is given by
the handles behind which it was made. -/
inductive PyResult (K : Type) where
  | unit
  | handle (hs : Option (Handles K))
  | flag (b : Bool)

namespace PyProgram

/-- A new program of the bindings. -/
def new : PyProgram K := ⟨.empty, none, false⟩

/-- An operation of the program.  What it has done stays when it throws. -/
def onProgram (f : EStateM (PyError K) (Program K) Unit) : PyM K Unit := fun s =>
  match f.run s.program with
  | .ok _ p => .ok () { s with program := p }
  | .error e p => .error e { s with program := p }

def raised (f : ProgramM K Unit) : EStateM (PyError K) (Program K) Unit := fun p =>
  match f.run p with
  | .ok _ q => .ok () q
  | .error e q => .error (.exception e) q

/-- The iterator is compared or moved, which is not defined where its node is gone. -/
def readCurrent : PyM K (Option Addr) := do
  let s ← get
  match s.current with
  | none => pure none
  | some a => if a ∈ s.program.addrs then pure (some a) else throw .dangling

end PyProgram

open PyProgram

/-- `rewind_program_cursor`. -/
def rewindProgramCursor : PyM K Unit := modify ({ · with current := none, started := false })

/-- `program_reset`. -/
def programReset : PyM K Unit := do
  onProgram (modify Program.reset)
  rewindProgramCursor

/-- `program_rewind`. -/
def programRewind : PyM K Unit := rewindProgramCursor

/-- The property `done`. -/
def programDone : PyM K Bool := do
  let s ← get
  if s.started then
    let c ← readCurrent
    pure c.isNone
  else pure false

section Bindings

variable [DataArith K] (m : Machine K)

/-- `program_load`. -/
def programLoad (file : String) (content : Option (List Line)) (append : Bool) : PyM K Unit := do
  onProgram (raised (Program.load m file content append))
  rewindProgramCursor

/-- The loop of `program_append`; `none` stands for `None`. -/
def pushLines : List (Option Line) → EStateM (PyError K) (Program K) Unit
  | [] => pure ()
  | none :: _ => throw (.valueError "lines must not contain None")
  | some line :: lines => do
    raised (Program.append m line)
    pushLines lines

/-- `program_append`. -/
def programAppend (lines : List (Option Line)) : PyM K Unit := do
  onProgram (pushLines m lines)
  rewindProgramCursor

/-- `__lshift__`. -/
def programShift (line : Line) : PyM K Unit := do
  onProgram (raised (Program.append m line))
  rewindProgramCursor

/-- The loop of `program_block_at`, behind the handles `hs`. -/
def blockFrom (target : Addr) : Handles K → List (Block K) → Except (Exn K) (Option (Handles K))
  | _, [] => .ok none
  | hs, b :: bs => do
    let hs ← makeParsedBlock m b.line hs
    if b.addr = target then .ok (some hs) else blockFrom target hs bs

/-- `program_block_at`. -/
def programBlockAt (p : Program K) (target : Addr) : PyM K (Option (Handles K)) :=
  ofExcept ((blockFrom m target [] p.blocks).mapError .exception)

/-- `program_current`. -/
def programCurrent : PyM K (Option (Handles K)) := do
  let s ← get
  if s.started then
    match ← readCurrent with
    | none => pure none
    | some a => programBlockAt m s.program a
  else pure none

/-- `program_load_next`. -/
def programLoadNext : PyM K (Option (Handles K)) := do
  let s ← get
  if s.started then
    match ← readCurrent with
    | none => pure ()
    | some a => modify ({ · with current := Program.after a s.program.blocks })
  else modify ({ · with current := s.program.blocks.head?.map (·.addr), started := true })
  match ← readCurrent with
  | none => pure none
  | some a => programBlockAt m s.program a

end Bindings

/-- The calls of a program of the bindings. -/
inductive PyCall where
  | load (file : String) (content : Option (List Line)) (append : Bool)
  | append (lines : List (Option Line))
  | shift (line : Line)
  | reset
  | rewind
  | current
  | loadNext
  | done

def PyCall.run [DataArith K] (m : Machine K) : PyCall → PyM K (PyResult K)
  | load file content app => do programLoad m file content app; pure .unit
  | append lines => do programAppend m lines; pure .unit
  | shift line => do programShift m line; pure .unit
  | reset => do programReset; pure .unit
  | rewind => do programRewind; pure .unit
  | current => do pure (.handle (← programCurrent m))
  | loadNext => do pure (.handle (← programLoadNext m))
  | done => do pure (.flag (← programDone))

/-- A call, and how it comes out. -/
structure PyStep (K : Type) where
  call : PyCall
  outcome : Except (PyError K) (PyResult K)

/-- The program takes a step.  After one that is not defined it is left as it was. -/
def PyStep.Takes [DataArith K] (m : Machine K) (e : PyStep K) (s t : PyProgram K) : Prop :=
  ExceptState.outcome ((e.call.run m).run s) = e.outcome ∧ state ((e.call.run m).run s) = t

/-! ## The cursor as an index -/

/-- Where the cursor is: in front of the blocks, on one of them, behind them, or on a node that
is gone. -/
inductive Position where
  | unstarted
  | on (i : ℕ)
  | past
  | lost
  deriving DecidableEq

namespace Position

/-- The position that `load_next` moves to, among `n` blocks. -/
def next (n : ℕ) : Position → Position
  | unstarted => if 0 < n then on 0 else past
  | on i => if i + 1 < n then on (i + 1) else past
  | past => past
  | lost => lost

/-- The position when the list was changed by a call that threw. -/
def kept (cleared : Bool) : Position → Position
  | on i => if cleared then lost else on i
  | pos => pos

/-- The handle on the block at a position. -/
def handle [DataArith K] (m : Machine K) (p : Program K) :
    Position → Except (PyError K) (Option (Handles K))
  | on i => ((copyBlocks m [] (p.blocks.take (i + 1))).map some).mapError .exception
  | lost => .error .dangling
  | _ => .ok none

def isPast : Position → Except (PyError K) Bool
  | past => .ok true
  | lost => .error .dangling
  | _ => .ok false

end Position

namespace PyCall

/-- The file is open, and the list is cleared for it. -/
def clears : PyCall → Bool
  | load _ content app => content.isSome && !app
  | _ => false

variable [DataArith K]

/-- What the calls that set the cursor back do to the program before. -/
def edit (m : Machine K) : PyCall → Option (EStateM (PyError K) (Program K) Unit)
  | load file content app => some (raised (Program.load m file content app))
  | append lines => some (pushLines m lines)
  | shift line => some (raised (Program.append m line))
  | reset => some (modify Program.reset)
  | rewind => some (pure ())
  | _ => none

/-- A call on a program and a position: how it comes out, and what it leaves. -/
def indexed (m : Machine K) (call : PyCall) (p : Program K) (pos : Position) :
    Except (PyError K) (PyResult K) × Program K × Position :=
  match call.edit m with
  | some f =>
    match f.run p with
    | .ok _ q => (.ok .unit, q, .unstarted)
    | .error e q => (.error e, q, pos.kept call.clears)
  | none =>
    match call with
    | loadNext => (((pos.next p.blocks.length).handle m p).map .handle, p, pos.next p.blocks.length)
    | done => (pos.isPast.map .flag, p, pos)
    | _ => ((pos.handle m p).map .handle, p, pos)

end PyCall

/-- The step of a program whose cursor is an index. -/
def PyStep.Indexed [DataArith K] (m : Machine K) (e : PyStep K) (s t : Program K × Position) : Prop :=
  e.call.indexed m s.1 s.2 = (e.outcome, t)

/-! ## The two programs take the same steps -/

namespace Program

variable {p q r : Program K}

/-- Nodes were only added, at new addresses. -/
structure Grows (p q : Program K) : Prop where
  addrs : p.addrs <+: q.addrs
  fresh : p.fresh ≤ q.fresh
  new : ∀ a ∈ q.addrs, a ∈ p.addrs ∨ p.fresh ≤ a

theorem Grows.refl (p : Program K) : p.Grows p :=
  ⟨List.prefix_refl _, le_rfl, fun _ ha => .inl ha⟩

theorem Grows.trans (h : p.Grows q) (h' : q.Grows r) : p.Grows r := by
  refine ⟨h.addrs.trans h'.addrs, h.fresh.trans h'.fresh, fun a ha => ?_⟩
  rcases h'.new a ha with ha | ha
  · exact h.new a ha
  · exact .inr (h.fresh.trans ha)

variable [DataArith K] {m : Machine K}

theorem grows_append (line : Line) (p : Program K) : p.Grows (state ((append m line).run p)) := by
  rcases state_append m line p with hs | ⟨c, hc, hs⟩
  · rw [hs]
    exact .refl p
  · have haddrs : (p.front ++ [c]).map (·.addr) = p.addrs ++ [p.fresh] := by
      rw [List.map_append, map_front (·.addr) fun _ _ => rfl, List.map_singleton, hc.addr]
      rfl
    rw [hs]
    refine ⟨?_, Nat.le_succ _, fun a ha => ?_⟩
    · show p.addrs <+: (p.front ++ [c]).map (·.addr)
      rw [haddrs]
      exact List.prefix_append _ _
    · have ha : a ∈ (p.front ++ [c]).map (·.addr) := ha
      rw [haddrs, List.mem_append, List.mem_singleton] at ha
      exact ha.imp_right fun h => h.ge

theorem grows_lines (lines : List Line) (p : Program K) :
    p.Grows (state ((appendAll m lines).run p)) :=
  state_lines (p.Grows ·) (fun line _ h => h.trans (grows_append line _)) lines (.refl p)

end Program

section Simulation

variable [DataArith K] {m : Machine K} {p q : Program K} {s : PyProgram K} {pos : Position}

omit [DataArith K] in
theorem run_raised (f : ProgramM K Unit) (p : Program K) :
    (∀ q, f.run p = .ok () q → (raised f).run p = .ok () q) ∧
    ∀ e q, f.run p = .error e q → (raised f).run p = .error (.exception e) q := by
  have hrun : (raised f).run p = (match f.run p with
    | .ok _ q => .ok () q
    | .error e q => .error (.exception e) q) := rfl
  rw [hrun]
  constructor
  · intro q h
    rw [h]
  · intro e q h
    rw [h]

omit [DataArith K] in
theorem state_raised (f : ProgramM K Unit) : state ((raised f).run p) = state (f.run p) := by
  cases h : f.run p with
  | ok _ q => rw [(run_raised f p).1 q h]; rfl
  | error e q => rw [(run_raised f p).2 e q h]; rfl

/-- The rule for what every append keeps, also where a line is refused or missing. -/
theorem state_pushLines (I : Program K → Prop)
    (hstep : ∀ line p, I p → I (state ((Program.append m line).run p))) (lines : List (Option Line))
    (h : I p) : I (state ((pushLines m lines).run p)) := by
  induction lines generalizing p with
  | nil => exact h
  | cons line lines ih =>
    cases line with
    | none => exact h
    | some line =>
      have ha := hstep line p h
      rw [← state_raised] at ha
      rw [pushLines, EStateM.run_bind]
      cases hr : (raised (Program.append m line)).run p with
      | ok _ q =>
        rw [hr] at ha
        exact ih ha
      | error e q =>
        rw [hr] at ha
        exact ha

/-- The calls that set the cursor back keep the list linked, also when they throw. -/
theorem laid_edit {call : PyCall} {f : EStateM (PyError K) (Program K) Unit}
    (hf : call.edit m = some f) (h : p.Laid m) : (state (f.run p)).Laid m := by
  cases call with
  | load file content app =>
    cases hf
    rw [state_raised]
    exact Program.laid_load h
  | append lines =>
    cases hf
    exact state_pushLines (Program.Laid m) (fun line _ hq => Program.laid_append line hq) lines h
  | shift line =>
    cases hf
    rw [state_raised]
    exact Program.laid_append line h
  | reset =>
    cases hf
    exact Program.laid_nil _ _ _ _
  | rewind =>
    cases hf
    exact h
  | current => cases hf
  | loadNext => cases hf
  | done => cases hf

/-- A call that throws has added nodes to the list, which a load may have cleared before. -/
theorem grows_of_error {call : PyCall} {f : EStateM (PyError K) (Program K) Unit} {e : PyError K}
    (hf : call.edit m = some f) (h : f.run p = .error e q) :
    (if call.clears then p.reset else p).Grows q := by
  have hq : q = state (f.run p) := by rw [h]; rfl
  cases call with
  | load file content app =>
    cases hf
    rw [hq, state_raised]
    cases content with
    | none => exact ⟨List.prefix_refl _, le_rfl, fun _ ha => .inl ha⟩
    | some lines =>
      cases app with
      | false =>
        have hg := Program.grows_lines (m := m) lines (Program.reset { p with filename := file })
        exact ⟨hg.addrs, hg.fresh, hg.new⟩
      | true =>
        have hg := Program.grows_lines (m := m) lines { p with filename := file }
        exact ⟨hg.addrs, hg.fresh, hg.new⟩
  | append lines =>
    cases hf
    rw [hq]
    exact state_pushLines (p.Grows ·) (fun line _ hq => hq.trans (Program.grows_append line _)) lines
      (.refl p)
  | shift line =>
    cases hf
    rw [hq, state_raised]
    exact Program.grows_append line p
  | reset =>
    cases hf
    cases h
  | rewind =>
    cases hf
    cases h
  | current => cases hf
  | loadNext => cases hf
  | done => cases hf

/-- The cursor is at a position. -/
def PyProgram.Designates (s : PyProgram K) : Position → Prop
  | .unstarted => s.started = false ∧ s.current = none
  | .on i => s.started = true ∧ ∃ a, s.program.addrs[i]? = some a ∧ s.current = some a
  | .past => s.started = true ∧ s.current = none
  | .lost => s.started = true ∧ ∃ a, s.current = some a ∧ a < s.program.fresh ∧ a ∉ s.program.addrs

omit [DataArith K] in
/-- Adding nodes leaves the cursor where it is, and clearing the list before takes away the node
under it. -/
theorem designates_kept (h : s.Designates pos) (hl : ∀ b ∈ s.program.blocks, b.addr < s.program.fresh)
    {cleared : Bool} (hg : (if cleared then s.program.reset else s.program).Grows q) :
    PyProgram.Designates { s with program := q } (pos.kept cleared) := by
  have hlost : ∀ a, a < s.program.fresh → (cleared = false → a ∉ s.program.addrs) →
      a < q.fresh ∧ a ∉ q.addrs := by
    intro a ha hmem
    cases cleared with
    | false =>
      refine ⟨ha.trans_le hg.fresh, fun hq => ?_⟩
      rcases hg.new a hq with hp | hp
      · exact hmem rfl hp
      · exact absurd ha hp.not_gt
    | true =>
      refine ⟨ha.trans_le hg.fresh, fun hq => ?_⟩
      rcases hg.new a hq with hp | hp
      · cases hp
      · exact absurd ha (not_lt_of_ge hp)
  cases pos with
  | unstarted => exact h
  | past => exact h
  | on i =>
    obtain ⟨hs, a, ha, hc⟩ := h
    cases cleared with
    | false =>
      obtain ⟨rest, hrest⟩ := hg.addrs
      have hi := (List.getElem?_eq_some_iff.mp ha).1
      exact ⟨hs, a, by rw [← hrest]; exact (List.getElem?_append_left hi).trans ha, hc⟩
    | true =>
      obtain ⟨b, hb, rfl⟩ := List.mem_map.mp (List.mem_of_getElem? ha)
      exact ⟨hs, b.addr, hc, hlost _ (hl b hb) (by simp)⟩
  | lost =>
    obtain ⟨hs, a, hc, ha, hmem⟩ := h
    exact ⟨hs, a, hc, hlost a ha fun _ => hmem⟩

/-- The handle that the search for a node finds is the one on its place in the list. -/
theorem blockFrom_eq {bs hs : List (Block K)} {i : ℕ} {a : Addr} (hn : (bs.map (·.addr)).Nodup)
    (ha : (bs.map (·.addr))[i]? = some a) :
    blockFrom m a hs bs = (copyBlocks m hs (bs.take (i + 1))).map some := by
  induction bs generalizing hs i with
  | nil => cases ha
  | cons b bs ih =>
    rw [List.map_cons, List.nodup_cons] at hn
    rw [blockFrom, List.take_succ_cons, copyBlocks]
    cases makeParsedBlock m b.line hs with
    | error e => rfl
    | ok hs' =>
      show (if b.addr = a then _ else _) = (copyBlocks m hs' (bs.take i)).map some
      cases i with
      | zero =>
        cases ha
        rw [if_pos rfl]
        rfl
      | succ i =>
        have hne : b.addr ≠ a := by
          rintro rfl
          exact hn.1 (List.mem_of_getElem? ha)
        rw [if_neg hne, ih hn.2 ha]

omit [DataArith K] in
theorem readCurrent_none (h : s.current = none) : readCurrent.run s = .ok none s := by
  rw [readCurrent, EStateM.run_bind]
  show EStateM.run _ s = _
  rw [h]
  rfl

omit [DataArith K] in
theorem readCurrent_some {a : Addr} (h : s.current = some a) : readCurrent.run s =
    if a ∈ s.program.addrs then .ok (some a) s else .error .dangling s := by
  rw [readCurrent, EStateM.run_bind]
  show EStateM.run _ s = _
  rw [h]
  dsimp only
  split
  · rfl
  · rfl

/-- What `program_current` and `program_load_next` end with. -/
theorem run_handle (h : s.Designates pos) (hn : s.program.addrs.Nodup) :
    (do match ← readCurrent with
        | none => pure none
        | some a => programBlockAt m s.program a : PyM K (Option (Handles K))).run s =
      (ofExcept (pos.handle m s.program) : PyM K _).run s := by
  rw [EStateM.run_bind]
  cases pos with
  | unstarted =>
    rw [readCurrent_none h.2]
    rfl
  | past =>
    rw [readCurrent_none h.2]
    rfl
  | on i =>
    obtain ⟨-, a, ha, hc⟩ := h
    rw [readCurrent_some hc, if_pos (List.mem_of_getElem? ha)]
    show (programBlockAt m s.program a).run s = _
    rw [programBlockAt, blockFrom_eq hn ha]
    rfl
  | lost =>
    obtain ⟨-, a, hc, -, ha⟩ := h
    rw [readCurrent_some hc, if_neg ha]
    rfl

/-- A call that sets the cursor back: it does so where it returns. -/
theorem edit_run {call : PyCall} {f : EStateM (PyError K) (Program K) Unit}
    (hf : call.edit m = some f) :
    (∀ q, f.run s.program = .ok () q → (call.run m).run s = .ok .unit ⟨q, none, false⟩) ∧
    ∀ e q, f.run s.program = .error e q → (call.run m).run s = .error e { s with program := q } := by
  have hrun : (call.run m).run s =
      (do (do onProgram f; rewindProgramCursor : PyM K Unit); pure .unit : PyM K (PyResult K)).run s := by
    cases call with
    | load file content app => cases hf; rfl
    | append lines => cases hf; rfl
    | shift line => cases hf; rfl
    | reset => cases hf; rfl
    | rewind => cases hf; rfl
    | current => cases hf
    | loadNext => cases hf
    | done => cases hf
  have hprog : (onProgram f).run s = (match f.run s.program with
      | .ok _ p => .ok () { s with program := p }
      | .error e p => .error e { s with program := p }) := rfl
  rw [hrun, EStateM.run_bind, EStateM.run_bind, hprog]
  constructor
  · intro q hq
    rw [hq]
    rfl
  · intro e q hq
    rw [hq]

omit [DataArith K] in
theorem programDone_run (h : s.Designates pos) :
    programDone.run s = (ofExcept pos.isPast : PyM K Bool).run s := by
  rw [programDone, EStateM.run_bind]
  show EStateM.run _ s = _
  cases pos with
  | unstarted =>
    rw [if_neg (by rw [h.1]; decide)]
    rfl
  | past =>
    rw [if_pos h.1, EStateM.run_bind, readCurrent_none h.2]
    rfl
  | on i =>
    obtain ⟨hs, a, ha, hc⟩ := h
    rw [if_pos hs, EStateM.run_bind, readCurrent_some hc, if_pos (List.mem_of_getElem? ha)]
    rfl
  | lost =>
    obtain ⟨hs, a, hc, -, ha⟩ := h
    rw [if_pos hs, EStateM.run_bind, readCurrent_some hc, if_neg ha]
    rfl

theorem indexed_edit {call : PyCall} {f : EStateM (PyError K) (Program K) Unit}
    (hf : call.edit m = some f) :
    (∀ q, f.run p = .ok () q → call.indexed m p pos = (.ok .unit, q, .unstarted)) ∧
    ∀ e q, f.run p = .error e q → call.indexed m p pos = (.error e, q, pos.kept call.clears) := by
  unfold PyCall.indexed
  rw [hf]
  dsimp only
  constructor
  · intro q hq
    rw [hq]
  · intro e q hq
    rw [hq]

theorem programCurrent_run (h : s.Designates pos) (hn : s.program.addrs.Nodup) :
    (programCurrent m).run s = (ofExcept (pos.handle m s.program) : PyM K _).run s := by
  have hrun : (programCurrent m).run s = (if s.started then
      (do match ← readCurrent with
          | none => pure none
          | some a => programBlockAt m s.program a : PyM K (Option (Handles K)))
      else pure none).run s := rfl
  rw [hrun]
  split
  · exact run_handle h hn
  · next hs =>
    cases pos with
    | unstarted => rfl
    | past => exact absurd h.1 hs
    | on i => exact absurd h.1 hs
    | lost => exact absurd h.1 hs

omit [DataArith K] in
theorem designates_first (s : PyProgram K) :
    PyProgram.Designates { s with current := s.program.blocks.head?.map (·.addr), started := true }
      (Position.unstarted.next s.program.blocks.length) := by
  cases hb : s.program.blocks with
  | nil => exact ⟨rfl, rfl⟩
  | cons b bs => exact ⟨rfl, b.addr, by rw [Program.addrs, hb]; rfl, rfl⟩

omit [DataArith K] in
theorem designates_after (hs : s.started = true) (hn : s.program.addrs.Nodup) {i : ℕ} {a : Addr}
    (ha : s.program.addrs[i]? = some a) :
    PyProgram.Designates { s with current := Program.after a s.program.blocks }
      ((Position.on i).next s.program.blocks.length) := by
  rw [Program.addrs, List.getElem?_map] at ha
  obtain ⟨b, hb, rfl⟩ := Option.map_eq_some_iff.mp ha
  rw [after_of_get hn hb, Position.next]
  split
  · next hi =>
    have hget := List.getElem?_eq_getElem hi
    refine ⟨hs, s.program.blocks[i + 1].addr, ?_, congrArg (Option.map (·.addr)) hget⟩
    rw [Program.addrs, List.getElem?_map, hget]
    rfl
  · next hi =>
    refine ⟨hs, ?_⟩
    show Option.map _ _ = none
    rw [List.getElem?_eq_none (by omega), Option.map_none]

/-- `program_load_next` moves the cursor, and hands out what is there. -/
theorem programLoadNext_run (h : s.Designates pos) (hn : s.program.addrs.Nodup) :
    ∃ t, (programLoadNext m).run s =
        (ofExcept ((pos.next s.program.blocks.length).handle m s.program) : PyM K _).run t ∧
      t.program = s.program ∧ t.Designates (pos.next s.program.blocks.length) := by
  have hend : ∀ t : PyProgram K, ∀ pos', t.program = s.program → t.Designates pos' →
      (do match ← readCurrent with
          | none => pure none
          | some a => programBlockAt m s.program a : PyM K (Option (Handles K))).run t =
        (ofExcept (pos'.handle m s.program) : PyM K _).run t := by
    intro t pos' ht hpos
    rw [← ht]
    exact run_handle hpos (by rw [ht]; exact hn)
  rw [programLoadNext, EStateM.run_bind]
  show ∃ t, EStateM.run _ s = _ ∧ _
  dsimp only
  cases pos with
  | unstarted =>
    rw [if_neg (by rw [h.1]; decide), EStateM.run_bind]
    have hpos := designates_first s
    exact ⟨_, hend _ _ rfl hpos, rfl, hpos⟩
  | past =>
    rw [if_pos h.1, EStateM.run_bind, readCurrent_none h.2]
    exact ⟨s, hend s .past rfl h, rfl, h⟩
  | on i =>
    obtain ⟨hs, a, ha, hc⟩ := h
    rw [if_pos hs, EStateM.run_bind, readCurrent_some hc, if_pos (List.mem_of_getElem? ha)]
    have hpos := designates_after hs hn ha
    exact ⟨_, hend _ _ rfl hpos, rfl, hpos⟩
  | lost =>
    obtain ⟨hs, a, hc, -, ha⟩ := id h
    rw [if_pos hs, EStateM.run_bind, readCurrent_some hc, if_neg ha]
    exact ⟨s, rfl, rfl, h⟩

/-- The program of the bindings, and the one whose cursor is an index, do the same: with the
same outcome, the same blocks, and the cursor at the position. -/
theorem tracks_step (call : PyCall) (hl : s.program.Laid m) (h : s.Designates pos) :
    ∃ q pos', call.indexed m s.program pos = (ExceptState.outcome ((call.run m).run s), q, pos') ∧
      (state ((call.run m).run s)).program = q ∧ q.Laid m ∧
      (state ((call.run m).run s)).Designates pos' := by
  cases hf : call.edit m with
  | some f =>
    have hlaid := laid_edit hf hl
    obtain ⟨hok, herr⟩ := edit_run (s := s) hf
    cases hq : f.run s.program with
    | ok _ q =>
      rw [hq] at hlaid
      rw [hok q hq]
      exact ⟨q, .unstarted, (indexed_edit hf).1 q hq, rfl, hlaid, rfl, rfl⟩
    | error e q =>
      rw [hq] at hlaid
      rw [herr e q hq]
      exact ⟨q, pos.kept call.clears, (indexed_edit hf).2 e q hq, rfl, hlaid,
        designates_kept h hl.fresh (grows_of_error hf hq)⟩
  | none =>
    cases call with
    | load file content app => cases hf
    | append lines => cases hf
    | shift line => cases hf
    | reset => cases hf
    | rewind => cases hf
    | current =>
      obtain ⟨hout, hstate⟩ := outcome_map (programCurrent m) PyResult.handle s
      rw [programCurrent_run h hl.chain.nodup, (outcome_ofExcept _ s).1] at hout
      rw [programCurrent_run h hl.chain.nodup, (outcome_ofExcept _ s).2] at hstate
      refine ⟨s.program, pos, ?_, congrArg (·.program) hstate, hl, ?_⟩
      · rw [PyCall.run, hout]
        rfl
      · rw [PyCall.run, hstate]
        exact h
    | loadNext =>
      obtain ⟨t, hrun, ht, hpos⟩ := programLoadNext_run (m := m) h hl.chain.nodup
      obtain ⟨hout, hstate⟩ := outcome_map (programLoadNext m) PyResult.handle s
      rw [hrun, (outcome_ofExcept _ t).1] at hout
      rw [hrun, (outcome_ofExcept _ t).2] at hstate
      refine ⟨s.program, pos.next s.program.blocks.length, ?_,
        (congrArg (·.program) hstate).trans ht, hl, ?_⟩
      · rw [PyCall.run, hout]
        rfl
      · rw [PyCall.run, hstate]
        exact hpos
    | done =>
      have hrun := programDone_run h
      obtain ⟨hout, hstate⟩ := outcome_map (programDone (K := K)) PyResult.flag s
      rw [hrun, (outcome_ofExcept _ s).1] at hout
      rw [hrun, (outcome_ofExcept _ s).2] at hstate
      refine ⟨s.program, pos, ?_, congrArg (·.program) hstate, hl, ?_⟩
      · rw [PyCall.run, hout]
        rfl
      · rw [PyCall.run, hstate]
        exact h

theorem laid_new (m : Machine K) : (PyProgram.new (K := K)).program.Laid m :=
  Program.laid_nil _ _ _ _

omit [DataArith K] in
theorem designates_new : (PyProgram.new (K := K)).Designates .unstarted := ⟨rfl, rfl⟩

theorem indexed_of_takes {steps : List (PyStep K)} {t : PyProgram K}
    (hr : Run (PyStep.Takes m) s steps t) (hl : s.program.Laid m) (h : s.Designates pos) :
    ∃ pos', Run (PyStep.Indexed m) (s.program, pos) steps (t.program, pos') ∧ t.Designates pos' := by
  induction hr generalizing pos with
  | nil s => exact ⟨pos, .nil _, h⟩
  | cons hstep _ ih =>
    obtain ⟨hout, rfl⟩ := hstep
    obtain ⟨q, pos', hind, rfl, hl', h'⟩ := tracks_step _ hl h
    obtain ⟨pos'', hr', h''⟩ := ih hl' h'
    rw [hout] at hind
    exact ⟨pos'', .cons hind hr', h''⟩

theorem takes_of_indexed {steps : List (PyStep K)} {v w : Program K × Position}
    (hr : Run (PyStep.Indexed m) v steps w) (hv : v = (s.program, pos)) (hl : s.program.Laid m)
    (h : s.Designates pos) :
    ∃ t, Run (PyStep.Takes m) s steps t ∧ t.program = w.1 ∧ t.Designates w.2 := by
  induction hr generalizing s pos with
  | nil v =>
    subst hv
    exact ⟨s, .nil s, rfl, h⟩
  | @cons e v u w l hstep _ ih =>
    subst hv
    obtain ⟨q, pos', hind, rfl, hl', h'⟩ := tracks_step e.call hl h
    have heq := Prod.mk.inj (hind.symm.trans hstep)
    obtain ⟨t, hr', ht⟩ := ih (s := state ((e.call.run m).run s)) heq.2.symm hl' h'
    exact ⟨t, .cons ⟨heq.1, rfl⟩ hr', ht⟩

/-- The cursor of the bindings is an index: a sequence of calls can be made, with some outcomes,
exactly when it can be made with these on a program with an index in place of the iterator, and
the cursor is then at that index. -/
theorem cursor_refines (m : Machine K) (steps : List (PyStep K)) :
    (∀ s, Run (PyStep.Takes m) .new steps s →
      ∃ pos, Run (PyStep.Indexed m) (.empty, .unstarted) steps (s.program, pos) ∧ s.Designates pos) ∧
    ∀ p pos, Run (PyStep.Indexed m) (.empty, .unstarted) steps (p, pos) →
      ∃ s, Run (PyStep.Takes m) .new steps s ∧ s.program = p ∧ s.Designates pos :=
  ⟨fun _ hr => indexed_of_takes hr (laid_new m) designates_new,
    fun _ _ hr => takes_of_indexed hr rfl (laid_new m) designates_new⟩

/-! ## Cursors that dangle -/

/-- The calls that read the cursor. -/
def PyCall.reads : PyCall → Bool
  | current | loadNext | done => true
  | _ => false

theorem reads_iff {call : PyCall} : call.reads = true ↔ call.edit m = none := by
  cases call <;> simp [PyCall.reads, PyCall.edit]

omit [DataArith K] in
def PyStep.Threw (e : PyStep K) : Prop := ∃ x, e.outcome = .error x

/-- A call sets the cursor back: it returns, and does not only read it. -/
def PyStep.Rewinds (e : PyStep K) : Prop := e.call.reads = false ∧ ¬ e.Threw

/-- A load cleared the list with the node under the cursor, and threw; no call has set the cursor
back since. -/
def Gone (m : Machine K) (steps : List (PyStep K)) : Prop :=
  ∃ pre c post u a, steps = pre ++ c :: post ∧ Run (PyStep.Takes m) .new pre u ∧
    u.current = some a ∧ a ∈ u.program.addrs ∧ c.call.clears = true ∧ c.Threw ∧
    ∀ d ∈ post, ¬ d.Rewinds

theorem not_gone_nil (m : Machine K) : ¬ Gone m [] := by
  rintro ⟨pre, c, post, _, _, h, -⟩
  simp at h

theorem gone_snoc {steps : List (PyStep K)} {e : PyStep K} : Gone m (steps ++ [e]) ↔
    (Gone m steps ∧ ¬ e.Rewinds) ∨
      (∃ u a, Run (PyStep.Takes m) .new steps u ∧ u.current = some a ∧ a ∈ u.program.addrs) ∧
        e.call.clears = true ∧ e.Threw := by
  constructor
  · rintro ⟨pre, c, post, u, a, heq, hr, hc, ha, hclear, hthrew, hpost⟩
    rcases List.eq_nil_or_concat post with rfl | ⟨post, d, rfl⟩
    · obtain ⟨rfl, he⟩ := List.append_inj' heq rfl
      cases he
      exact .inr ⟨⟨u, a, hr, hc, ha⟩, hclear, hthrew⟩
    · rw [List.concat_eq_append] at heq hpost
      rw [← List.cons_append, ← List.append_assoc] at heq
      obtain ⟨rfl, he⟩ := List.append_inj' heq rfl
      cases he
      exact .inl ⟨⟨pre, c, post, u, a, rfl, hr, hc, ha, hclear, hthrew,
        fun d hd => hpost d (List.mem_append_left _ hd)⟩, hpost e (by simp)⟩
  · rintro (⟨⟨pre, c, post, u, a, rfl, hr, hc, ha, hclear, hthrew, hpost⟩, he⟩ |
      ⟨⟨u, a, hr, hc, ha⟩, hclear, hthrew⟩)
    · refine ⟨pre, c, post ++ [e], u, a, by simp, hr, hc, ha, hclear, hthrew, fun d hd => ?_⟩
      rcases List.mem_append.mp hd with hd | hd
      · exact hpost d hd
      · rw [List.mem_singleton.mp hd]
        exact he
    · exact ⟨steps, e, [], u, a, rfl, hr, hc, ha, hclear, hthrew, by simp⟩

namespace Position

theorem next_eq_lost {n : ℕ} : pos.next n = .lost ↔ pos = .lost := by
  cases pos with
  | unstarted => simp only [next]; split <;> simp
  | on i => simp only [next]; split <;> simp
  | past => simp [next]
  | lost => simp [next]

theorem kept_eq_lost {cleared : Bool} :
    pos.kept cleared = .lost ↔ pos = .lost ∨ (∃ i, pos = .on i) ∧ cleared = true := by
  cases pos with
  | on i => cases cleared <;> simp [kept]
  | unstarted => simp [kept]
  | past => simp [kept]
  | lost => simp [kept]

theorem handle_dangles : pos.handle m p = .error .dangling ↔ pos = .lost := by
  cases pos with
  | on i =>
    rw [handle]
    cases (copyBlocks m [] (p.blocks.take (i + 1))).map some with
    | ok hs => simp [Except.mapError]
    | error e => simp [Except.mapError]
  | unstarted => simp [handle]
  | past => simp [handle]
  | lost => simp [handle]

end Position

theorem edit_error_ne {call : PyCall} {f : EStateM (PyError K) (Program K) Unit} {e : PyError K}
    (hf : call.edit m = some f) (h : f.run p = .error e q) : e ≠ .dangling := by
  have hraised : ∀ g : ProgramM K Unit, ∀ p q, (raised g).run p = .error e q → e ≠ .dangling := by
    intro g p q hg
    cases hgp : g.run p with
    | ok _ r =>
      rw [(run_raised g p).1 r hgp] at hg
      cases hg
    | error x r =>
      rw [(run_raised g p).2 x r hgp] at hg
      cases hg
      simp
  cases call with
  | load file content app =>
    cases hf
    exact hraised _ p q h
  | append lines =>
    cases hf
    induction lines generalizing p with
    | nil => cases h
    | cons line lines ih =>
      cases line with
      | none =>
        cases h
        simp
      | some line =>
        rcases bind_eq_error.mp h with h | ⟨_, r, -, h⟩
        · exact hraised _ p q h
        · exact ih h
  | shift line =>
    cases hf
    exact hraised _ p q h
  | reset =>
    cases hf
    cases h
  | rewind =>
    cases hf
    cases h
  | current => cases hf
  | loadNext => cases hf
  | done => cases hf

omit [DataArith K] in
theorem map_dangles {α β : Type} {f : α → β} {x : Except (PyError K) α} :
    x.map f = .error .dangling ↔ x = .error .dangling := by
  cases x with
  | ok a => simp [Except.map]
  | error e => simp [Except.map]

/-- A step sets the cursor back, or throws on the way to it, or reads the cursor. -/
theorem indexed_cases {e : PyStep K} {pos' : Position} (h : e.Indexed m (p, pos) (q, pos')) :
    (e.call.reads = false ∧ ¬ e.Threw ∧ pos' = .unstarted) ∨
    (e.call.reads = false ∧ e.Threw ∧ e.outcome ≠ .error .dangling ∧ pos' = pos.kept e.call.clears) ∨
    (e.call.reads = true ∧ e.call.clears = false ∧ (pos' = .lost ↔ pos = .lost) ∧
      (e.outcome = .error .dangling ↔ pos = .lost)) := by
  rcases e with ⟨call, out⟩
  unfold PyStep.Indexed at h
  dsimp only at h ⊢
  cases hf : call.edit m with
  | some f =>
    have hno : call.reads = false := by
      rw [Bool.eq_false_iff]
      intro hr
      rw [reads_iff.mp hr] at hf
      cases hf
    obtain ⟨hok, herr⟩ : (∀ q, f.run p = .ok () q → call.indexed m p pos = _) ∧ _ := indexed_edit hf
    cases hq : f.run p with
    | ok _ r =>
      rw [hok r hq] at h
      cases h
      exact .inl ⟨hno, by simp [PyStep.Threw], rfl⟩
    | error x r =>
      rw [herr x r hq] at h
      cases h
      refine .inr (.inl ⟨hno, ⟨x, rfl⟩, fun heq => ?_, rfl⟩)
      exact edit_error_ne hf hq (Except.error.inj heq)
  | none =>
    have hr := reads_iff.mpr hf
    refine .inr (.inr ⟨hr, ?_⟩)
    cases call with
    | load file content app => cases hf
    | append lines => cases hf
    | shift line => cases hf
    | reset => cases hf
    | rewind => cases hf
    | current =>
      cases h
      exact ⟨rfl, Iff.rfl, map_dangles.trans Position.handle_dangles⟩
    | loadNext =>
      cases h
      exact ⟨rfl, Position.next_eq_lost,
        map_dangles.trans (Position.handle_dangles.trans Position.next_eq_lost)⟩
    | done =>
      cases h
      refine ⟨rfl, Iff.rfl, map_dangles.trans ?_⟩
      cases pos <;> simp [Position.isPast]

/-- The position is lost by a step exactly if it was, or the node under it is taken away. -/
theorem indexed_lost {e : PyStep K} {pos' : Position} (h : e.Indexed m (p, pos) (q, pos')) :
    pos' = .lost ↔ (pos = .lost ∧ ¬ e.Rewinds) ∨
      (∃ i, pos = .on i) ∧ e.call.clears = true ∧ e.Threw := by
  unfold PyStep.Rewinds
  rcases indexed_cases h with ⟨hr, ht, rfl⟩ | ⟨hr, ht, -, rfl⟩ | ⟨hr, hc, hl, -⟩
  · simp [hr, ht]
  · rw [Position.kept_eq_lost]
    simp [hr, ht]
  · rw [hl]
    simp [hr, hc]

/-- A step is not defined exactly if it reads a cursor that is lost. -/
theorem indexed_dangles {e : PyStep K} {pos' : Position} (h : e.Indexed m (p, pos) (q, pos')) :
    e.outcome = .error .dangling ↔ e.call.reads = true ∧ pos = .lost := by
  rcases indexed_cases h with ⟨hr, ht, -⟩ | ⟨hr, -, hne, -⟩ | ⟨hr, -, -, hd⟩
  · rw [hr]
    exact iff_of_false (fun he => ht ⟨_, he⟩) (fun hp => Bool.false_ne_true hp.1)
  · rw [hr]
    exact iff_of_false hne (fun hp => Bool.false_ne_true hp.1)
  · rw [hr, hd, eq_self_iff_true, true_and]

omit [DataArith K] in
/-- The cursor is at a place of the list when its node is there. -/
theorem exists_on {u : PyProgram K} (h : u.Designates pos) :
    (∃ a, u.current = some a ∧ a ∈ u.program.addrs) ↔ ∃ i, pos = .on i := by
  cases pos with
  | unstarted => simp [h.2]
  | past => simp [h.2]
  | on i =>
    obtain ⟨-, a, ha, hc⟩ := h
    exact iff_of_true ⟨a, hc, List.mem_of_getElem? ha⟩ ⟨i, rfl⟩
  | lost =>
    obtain ⟨-, a, hc, -, ha⟩ := h
    refine iff_of_false ?_ (by simp)
    rintro ⟨b, hb, hmem⟩
    rw [hc] at hb
    cases hb
    exact ha hmem

theorem takes_unique {e : PyStep K} {t u : PyProgram K} (h : e.Takes m s t) (h' : e.Takes m s u) :
    t = u := h.2.symm.trans h'.2

/-- The position is lost exactly where the history says so. -/
theorem lost_iff_gone {steps : List (PyStep K)} (hr : Run (PyStep.Takes m) .new steps s)
    (hi : Run (PyStep.Indexed m) (.empty, .unstarted) steps (p, pos)) :
    pos = .lost ↔ Gone m steps := by
  induction steps using List.reverseRecOn generalizing s p pos with
  | nil =>
    cases hi
    exact iff_of_false (by simp) (not_gone_nil m)
  | append_singleton steps e ih =>
    obtain ⟨u, hru, -⟩ := hr.append_split
    obtain ⟨pos1, hi1, hu⟩ := indexed_of_takes hru (laid_new m) designates_new
    obtain ⟨⟨p2, pos2⟩, hi2, hlast⟩ := hi.append_split
    have heq : (u.program, pos1) = (p2, pos2) :=
      hi1.unique (R := PyStep.Indexed m) (fun _ _ _ _ h h' => (Prod.mk.inj (h.symm.trans h')).2) hi2
    cases heq
    rw [indexed_lost hlast.of_single, ih hru hi1, gone_snoc]
    refine or_congr_right (and_congr_left' ?_)
    rw [← exists_on hu]
    constructor
    · rintro ⟨a, hc, ha⟩
      exact ⟨u, a, hru, hc, ha⟩
    · rintro ⟨v, a, hrv, hc, ha⟩
      rw [hru.unique (R := PyStep.Takes m) (fun _ _ _ _ => takes_unique) hrv]
      exact ⟨a, hc, ha⟩

/-- In a sequence of calls the ones that are not defined are those that read the cursor after a
load has cleared the list with the node under it and then thrown, as long as no call has set the
cursor back. -/
theorem dangles_iff {pre post : List (PyStep K)} {e : PyStep K}
    (hr : Run (PyStep.Takes m) .new (pre ++ e :: post) s) :
    e.outcome = .error .dangling ↔ e.call.reads = true ∧ Gone m pre := by
  obtain ⟨u, hpre, hrest⟩ := hr.append_split
  cases hrest with
  | cons hstep _ =>
    have hto := hpre.append (.single hstep)
    obtain ⟨pos, hi, -⟩ := indexed_of_takes hto (laid_new m) designates_new
    obtain ⟨⟨p, pos1⟩, hi1, hlast⟩ := hi.append_split
    rw [indexed_dangles hlast.of_single, lost_iff_gone hpre hi1]

end Simulation

section Sample

variable [DataArith K] {m : Machine K} {s : PyProgram K}

/-- A call, as it comes out at `s`. -/
def PyCall.stepAt (m : Machine K) (call : PyCall) (s : PyProgram K) : PyStep K :=
  ⟨call, ExceptState.outcome ((call.run m).run s)⟩

theorem takes_stepAt (call : PyCall) : (call.stepAt m s).Takes m s (state ((call.run m).run s)) := ⟨rfl, rfl⟩

/-- A file with a line of unknown words cannot be loaded. -/
theorem load_throws {file : String} {line : Line} (hc : Program.isCode line = true)
    (hw : ¬ ∀ t ∈ commands line, IsWord t) :
    ((PyCall.load file (some [line]) false).stepAt m s).Threw := by
  obtain ⟨-, herr⟩ := edit_run (m := m) (s := s)
    (show (PyCall.load file (some [line]) false).edit m = some _ from rfl)
  cases hload : (Program.load m file (some [line]) false).run s.program with
  | error e q => exact ⟨.exception e, by rw [PyCall.stepAt, herr _ q ((run_raised _ _).2 e q hload)]; rfl⟩
  | ok _ q =>
    obtain ⟨_, hlines, hr⟩ := Program.load_iff.mp hload
    cases hlines
    rw [List.filter_cons_of_pos hc, List.filter_nil] at hr
    exact absurd (Program.exists_accepted_iff.mp ⟨_, hr.of_single⟩).2.words hw

/-- The cursor is on the first block when it has been loaded. -/
theorem current_at_loadNext (hl : s.program.Laid m) (h : s.Designates .unstarted)
    (hlen : 0 < s.program.blocks.length) :
    ∃ a, (state ((PyCall.loadNext.run m).run s)).current = some a ∧
      a ∈ (state ((PyCall.loadNext.run m).run s)).program.addrs := by
  obtain ⟨q, pos, hind, -, -, hpos⟩ := tracks_step .loadNext hl h
  refine (exists_on hpos).mpr ⟨0, ?_⟩
  have heq : Position.next s.program.blocks.length .unstarted = pos := congrArg (·.2.2) hind
  rw [← heq, Position.next, if_pos hlen]

end Sample

/-- A load of a line that is refused takes the node under the cursor away. -/
theorem dangles_iff_sample : ∃ (pre : List (PyStep XReal)) (e : PyStep XReal) (s : PyProgram XReal),
    Run (PyStep.Takes .default) .new (pre ++ [e]) s ∧ e.outcome = .error .dangling := by
  obtain ⟨p, hp, -⟩ : ∃ p, Program.Accepted (Machine.default : Machine XReal) "G0 X1".toList
      Program.empty p ∧ p.Ready := Program.exists_accepted (by simp [Program.Ready, Program.empty])
        (by decide +kernel) (by simp [Program.empty]) (by decide +kernel)
  have hlaid : p.Laid .default := Program.laid_of_lines (.single hp) (laid_new .default)
  have hlen : p.blocks.length = 1 := Program.length_of_lines (.single hp)
  have hone : (PyStep.mk (.shift "G0 X1".toList) (.ok .unit)).Takes .default .new
      ⟨p, none, false⟩ := by
    have hrun := (edit_run (m := .default) (s := PyProgram.new (K := XReal))
      (show (PyCall.shift "G0 X1".toList).edit .default = some _ from rfl)).1 p
      ((run_raised _ _).1 p hp)
    rw [PyStep.Takes, hrun]
    exact ⟨rfl, rfl⟩
  obtain ⟨a, hc, ha⟩ := current_at_loadNext (m := .default) (s := ⟨p, none, false⟩) hlaid ⟨rfl, rfl⟩
    (by show 0 < p.blocks.length; omega)
  have hpre := Run.cons hone (.single (takes_stepAt .loadNext))
  have hbad := hpre.append (.single (takes_stepAt (.load "bad.g" (some ["Q1".toList]) false)))
  have hr := hbad.append (.single (takes_stepAt .loadNext))
  refine ⟨_, _, _, hr, (dangles_iff hr).mpr ⟨rfl, _, _, [], _, a, rfl, hpre, hc, ha, rfl, ?_, by simp⟩⟩
  exact load_throws (by decide) (by decide +kernel)

end Cncpp
