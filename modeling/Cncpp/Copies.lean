import Cncpp.Export
import Cncpp.Links
import Cncpp.Renaming

/-! The handles on the blocks of a program that the bindings hand out.  They are made from the
lines of the program, each parsed again behind the one before it, and are blocks of their own.
They say what the blocks of the program say, but for one thing: the first one has no block
before it, and refuses to be interpolated, where the walk through the program interpolates it
from the reference point of the machine. -/

namespace Cncpp

open DataArith Lib Lib.ExceptState Fsm

variable {K : Type}

/-- What the bindings raise. -/
inductive PyError (K : Type) where
  | exception (e : Exn K)
  /-- `py::value_error`. -/
  | valueError (text : String)
  /-- An iterator is used, and its node is gone. -/
  | dangling
  /-- A block is walked for longer than there is fuel. -/
  | endless

/-- The blocks of the handles that were made one behind the other.  The address of a block is
its place. -/
abbrev Handles (K : Type) := List (Block K)

/-- A handle: a block, and the block of the handle before it, which it keeps alive. -/
structure PyBlock (K : Type) where
  previous : Option (Block K)
  block : Block K

/-- The handles on `hs`, behind one on `previous`. -/
def handlesFrom (previous : Option (Block K)) : Handles K → List (PyBlock K)
  | [] => []
  | b :: bs => ⟨previous, b⟩ :: handlesFrom (some b) bs

def pyBlocks (hs : Handles K) : List (PyBlock K) := handlesFrom none hs

/-- What a block says apart from its place. -/
def Block.content (b : Block K) : Block K := { b with addr := 0, prev := none, next := none }

/-- A row of `block_walk`. -/
structure PyRow (K : Type) where
  time : K
  lambda : K
  speed : K
  x : K
  y : K
  z : K

section Bindings

variable [DataArith K]

/-- `make_parsed_block`, where the previous handle is the one that was made last. -/
def makeParsedBlock (m : Machine K) (line : Line) (hs : Handles K) : Except (Exn K) (Handles K) :=
  match hs.getLast? with
  | some previous => do
    let (b, previous) ← Block.ofPrev hs.length line previous
    let b ← final ((Block.parse m (some previous)).run b)
    .ok (hs.dropLast ++ [previous] ++ [b])
  | none => do
    let b ← final ((Block.parse m none).run (Block.ofLine hs.length line))
    .ok [b]

/-- The loop of `program_blocks`, behind the handles `hs`. -/
def copyBlocks (m : Machine K) : Handles K → List (Block K) → Except (Exn K) (Handles K)
  | hs, [] => .ok hs
  | hs, b :: bs => do copyBlocks m (← makeParsedBlock m b.line hs) bs

/-- `program_blocks`. -/
def programBlocks (m : Machine K) (p : Program K) : Except (Exn K) (Handles K) :=
  copyBlocks m [] p.blocks

omit [DataArith K] in
/-- `require_interpolatable`. -/
def requireInterpolatable (b : Block K) : Except (PyError K) Unit :=
  if !b.parsed then .error (.valueError "Block must be parsed before interpolation")
  else if !Program.isMotionType b.type then
    .error (.valueError "Only LINE, CWA and CCWA blocks can be interpolated")
  else if b.prev.isNone then
    .error (.valueError "Interpolation requires a block linked to a parsed previous block")
  else .ok ()

/-- The loop of `walk` from the time `t` on, which interpolates at every visit. -/
def rowsFrom (m : Machine K) (previous : Option (Block K)) (b : Block K) :
    ℕ → K → Except (PyError K) (List (PyRow K))
  | 0, _ => .error .endless
  | fuel + 1, t =>
    if le t b.profile.dt then do
      let s ← (b.lambda t).mapError .exception
      let pos ← (b.interpolate m previous s.lambda).mapError .exception
      let x ← pos.getX.mapError .exception
      let y ← pos.getY.mapError .exception
      let z ← pos.getZ.mapError .exception
      let rows ← rowsFrom m previous b fuel (t + m.tq)
      .ok (⟨t, s.lambda, s.speed, x, y, z⟩ :: rows)
    else .ok []

/-- `block_walk`. -/
def blockWalk (m : Machine K) (fuel : ℕ) (h : PyBlock K) :
    Except (PyError K) (List (PyRow K)) := do
  requireInterpolatable h.block
  rowsFrom m h.previous h.block fuel (num 0)

end Bindings

/-! ## The lines of a program, parsed again -/

theorem Block.ofPrev_iff [DataArith K] {addr : Addr} {line : Line} {o b o' : Block K} :
    ofPrev addr line o = .ok (b, o') ↔
      o.parsed = true ∧ b = start addr line (some o) ∧ o' = { o with next := some addr } := by
  constructor
  · exact ofPrev_ok
  · rintro ⟨hpar, rfl, rfl⟩
    rw [ofPrev, assign, if_pos hpar]
    rfl

namespace Program

variable [DataArith K] {m : Machine K} {p p' q : Program K} {line : Line} {hs : Handles K}

/-- A new program whose first node will be at `a`. -/
def startingAt (a : Addr) : Program K := { empty with fresh := a }

omit [DataArith K] in
theorem startingAt_rename (a : Addr) :
    (startingAt a : Program K).rename (· - a) = startingAt 0 := by
  rw [startingAt, rename, Nat.sub_self]
  rfl

/-- Handles are made like the blocks of a program in which no address was skipped. -/
theorem makeParsedBlock_iff (hf : q.fresh = q.blocks.length) :
    makeParsedBlock m line q.blocks = .ok hs ↔ ∃ q', Accepted m line q q' ∧ q'.blocks = hs := by
  have hiff : (∃ q', Accepted m line q q' ∧ q'.blocks = hs) ↔
      (∀ o ∈ q.blocks.getLast?, o.parsed = true) ∧
        ∃ c, Block.Parsed m q.linked (Block.start q.fresh line q.blocks.getLast?) c ∧
          q.front ++ [c] = hs := by
    simp only [accepted_iff]
    constructor
    · rintro ⟨_, ⟨hpar, c, hc, rfl⟩, h⟩
      exact ⟨hpar, c, hc, h⟩
    · rintro ⟨hpar, c, hc, h⟩
      exact ⟨_, ⟨hpar, c, hc, rfl⟩, h⟩
  rw [hiff, makeParsedBlock, ← hf]
  cases hlast : q.blocks.getLast? with
  | none =>
    have hfront : q.front = [] := by simp [front, linked, List.getLast?_eq_none_iff.mp hlast]
    have hlink : q.linked = none := by rw [linked, hlast]; rfl
    simp only [hlink, hfront, except_bind_eq_ok, final_eq_ok, Block.parse_iff, Block.start,
      Except.ok.injEq, List.nil_append, Option.not_mem_none, false_imp_iff, implies_true, true_and]
  | some o =>
    have hlink : q.linked = some { o with next := some q.fresh } := by rw [linked, hlast]; rfl
    have hfront : q.front = q.blocks.dropLast ++ [{ o with next := some q.fresh }] := by
      rw [front, hlink]
      rfl
    simp only [except_bind_eq_ok, Block.ofPrev_iff, final_eq_ok, Block.parse_iff, hlink, hfront,
      Option.mem_some_iff, forall_eq', Except.ok.injEq, Prod.exists]
    constructor
    · rintro ⟨b, o', ⟨hpar, rfl, rfl⟩, c, hc, rfl⟩
      exact ⟨hpar, c, hc, rfl⟩
    · rintro ⟨hpar, c, hc, rfl⟩
      exact ⟨_, _, ⟨hpar, rfl, rfl⟩, c, hc, rfl⟩

/-- The handles of a program are made like a program of its lines. -/
theorem copyBlocks_iff {bs : List (Block K)} (hf : q.fresh = q.blocks.length) :
    copyBlocks m q.blocks bs = .ok hs ↔
      ∃ q', Run (Accepted m) q (bs.map (·.line)) q' ∧ q'.blocks = hs := by
  induction bs generalizing q with
  | nil =>
    rw [copyBlocks, List.map_nil]
    constructor
    · intro h
      exact ⟨q, .nil q, Except.ok.inj h⟩
    · rintro ⟨_, hr, rfl⟩
      cases hr
      rfl
  | cons b bs ih =>
    have hnext : ∀ {q'}, Accepted m b.line q q' → q'.fresh = q'.blocks.length := by
      intro q' ha
      obtain ⟨-, c, -, rfl⟩ := accepted_iff.mp ha
      rw [List.length_append, length_front, List.length_singleton, hf]
    rw [copyBlocks, List.map_cons, except_bind_eq_ok]
    constructor
    · rintro ⟨_, hmake, hrest⟩
      obtain ⟨q', ha, rfl⟩ := (makeParsedBlock_iff hf).mp hmake
      obtain ⟨q'', hr, hq⟩ := (ih (hnext ha)).mp hrest
      exact ⟨q'', .cons ha hr, hq⟩
    · rintro ⟨q'', hr, hq⟩
      cases hr with
      | cons ha hr => exact ⟨_, (makeParsedBlock_iff hf).mpr ⟨_, ha, rfl⟩, (ih (hnext ha)).mpr ⟨q'', hr, hq⟩⟩

/-- The blocks of the program are those that its lines make from a new one, up to a last one
whose line was refused. -/
def Remade (m : Machine K) (p : Program K) : Prop :=
  ∃ a q, Run (Accepted m) (startingAt a) (q.blocks.map (·.line)) q ∧
    ((p.blocks = q.blocks ∧ p.fresh = q.fresh) ∨
      ∃ c, c.parsed = false ∧ p.blocks = q.front ++ [c] ∧ ¬ ∃ q', Accepted m c.line q q')

theorem remade_nil (m : Machine K) (h : p.blocks = []) : p.Remade m :=
  ⟨p.fresh, startingAt p.fresh, .nil _, .inl ⟨h, rfl⟩⟩

theorem Remade.congr (h : p.Remade m) (hb : p'.blocks = p.blocks) (hf : p'.fresh = p.fresh) :
    p'.Remade m := by
  obtain ⟨a, q, hr, hq⟩ := h
  refine ⟨a, q, hr, ?_⟩
  rw [hb, hf]
  exact hq

/-- Only the blocks of a program and its next address decide what a line does to it. -/
theorem accepted_congr (ha : Accepted m line p p') (hb : p.blocks = q.blocks)
    (hf : p.fresh = q.fresh) :
    Accepted m line q { q with blocks := p'.blocks, fresh := p'.fresh } := by
  obtain ⟨hpar, c, hc, rfl⟩ := accepted_iff.mp ha
  have hlink : p.linked = q.linked := by rw [linked, linked, hb, hf]
  have hfront : p.front = q.front := by rw [front, front, hb, hlink]
  rw [hb] at hpar
  rw [hlink, hb, hf] at hc
  exact accepted_iff.mpr ⟨hpar, c, hc, by rw [hfront, hf]⟩

/-- An accepted line is at the back. -/
theorem lines_of_accepted (ha : Accepted m line p p') :
    p'.blocks.map (·.line) = p.blocks.map (·.line) ++ [line] := by
  obtain ⟨-, c, hc, rfl⟩ := accepted_iff.mp ha
  rw [List.map_append, map_front (·.line) (fun _ _ => rfl), List.map_singleton,
    hc.line_eq, Block.start_line]

theorem remade_append (line : Line) (h : p.Remade m) :
    (state ((append m line).run p)).Remade m := by
  obtain ⟨a, q, hr, ⟨hb, hf⟩ | ⟨c, hpar, hb, hno⟩⟩ := h
  · by_cases hacc : ∃ p', Accepted m line p p'
    · obtain ⟨p', ha⟩ := hacc
      have ha' := accepted_congr ha hb hf
      rw [show (append m line).run p = _ from ha]
      have hr' := hr.append (.single ha')
      rw [← lines_of_accepted ha'] at hr'
      exact ⟨a, _, hr', .inl ⟨rfl, rfl⟩⟩
    · by_cases hpar : ∀ o ∈ p.blocks.getLast?, o.parsed = true
      · have hno : ¬ ∃ c, Block.Parsed m p.linked (Block.start p.fresh line p.blocks.getLast?) c := by
          rintro ⟨c, hc⟩
          exact hacc ⟨_, accepted_iff.mpr ⟨hpar, c, hc, rfl⟩⟩
        obtain ⟨e, c, hrun, hplace⟩ := append_refused hpar hno
        simp only [Block.place, Prod.mk.injEq, Block.start_line, Block.start_parsed] at hplace
        obtain ⟨-, hline, -, -, hc⟩ := hplace
        have hfront : p.front = q.front := by rw [front, front, linked, linked, hb, hf]
        rw [hrun]
        refine ⟨a, q, hr, .inr ⟨c, hc, congrArg (· ++ [c]) hfront, ?_⟩⟩
        rintro ⟨q', ha⟩
        rw [hline] at ha
        exact hacc ⟨_, accepted_congr ha hb.symm hf.symm⟩
      · obtain ⟨o, ho, hfalse⟩ := exists_unparsed hpar
        rw [append_unparsed ho hfalse]
        exact ⟨a, q, hr, .inl ⟨hb, hf⟩⟩
  · have hlast : p.blocks.getLast? = some c := by rw [hb, List.getLast?_concat]
    rw [append_unparsed hlast hpar]
    exact ⟨a, q, hr, .inr ⟨c, hpar, hb, hno⟩⟩

theorem remade_leaves (call : Call) (h : p.Remade m) : (call.leaves m p).Remade m := by
  cases call with
  | edit e =>
    cases e with
    | push line => exact remade_append line h
    | load file content app =>
      cases content with
      | none => exact h.congr rfl rfl
      | some lines =>
        cases app with
        | false =>
          exact state_lines (p := reset { p with filename := file }) (Remade m)
            (fun line q hq => remade_append line hq) lines (remade_nil m rfl)
        | true =>
          exact state_lines (p := { p with filename := file }) (Remade m)
            (fun line q hq => remade_append line hq) lines (h.congr rfl rfl)
  | loadNext => exact h.congr rfl rfl
  | rewind => exact h.congr rfl rfl
  | reset => exact remade_nil m rfl

theorem remade_of_calls {calls : List Call} (hr : Run (Called m) empty calls p) : p.Remade m := by
  refine hr.invariant (Remade m) (fun call q r hq hcall => ?_) (remade_nil m rfl)
  rw [hcall]
  exact remade_leaves call hq

/-! ## What the copies say -/

omit [DataArith K] in
@[simp] theorem content_rename (f : Addr → Addr) (b : Block K) :
    (b.rename f).content = b.content := rfl

/-- Accepting lines leaves the blocks before them as they are, but for the links. -/
theorem content_of_lines {lines : List Line} (hr : Run (Accepted m) p lines p') :
    p.blocks.map Block.content <+: p'.blocks.map Block.content := by
  refine hr.invariant (fun r => p.blocks.map Block.content <+: r.blocks.map Block.content)
    (fun line q r hq ha => ?_) (List.prefix_refl _)
  obtain ⟨-, c, -, rfl⟩ := accepted_iff.mp ha
  rw [List.map_append, map_front Block.content fun _ _ => rfl]
  exact hq.trans (List.prefix_append _ _)

theorem length_of_lines {lines : List Line} (hr : Run (Accepted m) p lines p') :
    p'.blocks.length = p.blocks.length + lines.length := by
  induction hr with
  | nil p => rfl
  | cons ha _ ih =>
    obtain ⟨-, c, -, rfl⟩ := accepted_iff.mp ha
    rw [ih, List.length_append, length_front, List.length_singleton, List.length_cons]
    omega

theorem laid_of_lines {lines : List Line} (hr : Run (Accepted m) p lines p') (h : p.Laid m) :
    p'.Laid m := by
  refine hr.invariant (Laid m) (fun line q r hq ha => ?_) h
  have hlaid := laid_append line hq
  rw [show (append m line).run q = _ from ha] at hlaid
  exact hlaid

theorem parsed_of_lines {lines : List Line} (hr : Run (Accepted m) p lines p') (h : p.Parsed) :
    p'.Parsed :=
  hr.invariant Parsed (fun _ _ _ hq ha => parsed_append hq ha) h

/-- Handles on the blocks of a new program, wherever its nodes are. -/
theorem copyBlocks_of_run {a : Addr} {bs : List (Block K)}
    (hr : Run (Accepted m) (startingAt a) (bs.map (·.line)) q) :
    copyBlocks m [] bs = .ok (q.blocks.map (Block.rename (· - a))) := by
  have hmove := lines_rename (f := (· - a)) hr fun b hle => Nat.sub_add_comm hle
  rw [startingAt_rename] at hmove
  exact (copyBlocks_iff (q := startingAt 0) rfl).mpr ⟨_, hmove, rfl⟩

theorem linked_rename_of_run {a : Addr} {lines : List Line}
    (hr : Run (Accepted m) (startingAt a) lines q) :
    Linked (q.blocks.map (Block.rename (· - a))) := by
  have hmove := lines_rename (f := (· - a)) hr fun b hle => Nat.sub_add_comm hle
  rw [startingAt_rename] at hmove
  exact (laid_of_lines hmove (laid_nil _ _ _ _)).linked

/-- The parsed blocks at the front of a program can be copied. -/
theorem exists_copies (h : p.Remade m) {bs : List (Block K)} (hpre : bs <+: p.blocks)
    (hpar : ∀ b ∈ bs, b.parsed = true) :
    ∃ hs, copyBlocks m [] bs = .ok hs ∧ hs.map Block.content = bs.map Block.content ∧ Linked hs := by
  obtain ⟨a, q, hr, hq⟩ := h
  have hcontent : bs.map Block.content <+: q.blocks.map Block.content := by
    rcases hq with ⟨hb, -⟩ | ⟨c, hc, hb, -⟩
    · rw [← hb]
      exact hpre.map _
    · rw [hb] at hpre
      rcases List.prefix_concat_iff.mp hpre with rfl | hfront
      · rw [hpar c (by simp)] at hc
        cases hc
      · rw [← map_front Block.content fun _ _ => rfl]
        exact hfront.map _
  have hlines : bs.map (·.line) <+: q.blocks.map (·.line) := by
    have hmap := hcontent.map (·.line)
    rw [List.map_map, List.map_map] at hmap
    exact hmap
  obtain ⟨rest, hrest⟩ := hlines
  rw [← hrest] at hr
  obtain ⟨q1, hr1, hr2⟩ := hr.append_split
  have hlen : q1.blocks.length = bs.length := by
    rw [length_of_lines hr1, List.length_map]
    exact Nat.zero_add _
  refine ⟨_, copyBlocks_of_run hr1, ?_, linked_rename_of_run hr1⟩
  have hstrip : (q1.blocks.map (Block.rename (· - a))).map Block.content =
      q1.blocks.map Block.content := by
    rw [List.map_map]
    rfl
  rw [hstrip]
  have hq1 := content_of_lines hr2
  refine List.IsPrefix.eq_of_length ?_ (by rw [List.length_map, List.length_map, hlen])
  exact List.prefix_of_prefix_length_le hq1 hcontent (by rw [List.length_map, List.length_map, hlen])

omit [DataArith K] in
theorem origin_rename (f : Addr → Addr) (prev : Option (Block K)) :
    Block.origin m (prev.map (Block.rename f)) = Block.origin m prev := by
  cases prev <;> rfl

theorem Acceptable.rename {prev : Option (Block K)} {f : Addr → Addr}
    (h : Acceptable m (prev.map (Block.rename f)) line) : Acceptable m prev line := by
  refine ⟨h.words, fun o ho => ?_, ?_⟩
  · exact h.number (o.rename f) (Option.mem_map_of_mem _ ho)
  · have ho := h.origin
    rw [origin_rename] at ho
    exact ho

/-- A block that is not parsed cannot be copied either. -/
theorem copies_refused (h : p.Remade m) {bs : List (Block K)} (hpre : bs <+: p.blocks)
    {c : Block K} (hc : c ∈ bs) (hpar : c.parsed = false) : ∃ e, copyBlocks m [] bs = .error e := by
  obtain ⟨a, q, hr, hq⟩ := h
  have hparsed : q.Parsed := parsed_of_lines hr (fun _ hb => absurd hb List.not_mem_nil)
  rcases hq with ⟨hb, -⟩ | ⟨d, -, hb, hno⟩
  · have hmem := hpre.subset hc
    rw [hb] at hmem
    rw [hparsed c hmem] at hpar
    cases hpar
  have hfront : ∀ b ∈ q.front, b.parsed = true := by
    intro b hb
    have hmap := List.mem_map_of_mem (f := (·.parsed)) hb
    rw [map_front (·.parsed) fun _ _ => rfl] at hmap
    obtain ⟨o, ho, heq⟩ := List.mem_map.mp hmap
    rw [← heq]
    exact hparsed o ho
  have hall : bs = q.front ++ [d] := by
    rw [hb] at hpre
    rcases List.prefix_concat_iff.mp hpre with h | h
    · exact h
    · rw [hfront c (h.subset hc)] at hpar
      cases hpar
  cases hcopy : copyBlocks m [] bs with
  | error e => exact ⟨e, rfl⟩
  | ok hs =>
    -- the refused line would be accepted behind the copies
    obtain ⟨q', hrun, -⟩ := (copyBlocks_iff (q := startingAt 0) rfl).mp hcopy
    rw [hall, List.map_append, map_front (·.line) fun _ _ => rfl] at hrun
    obtain ⟨t, hrt, hlast⟩ := hrun.append_split
    have hmove := lines_rename (f := (· - a)) hr fun b hle => Nat.sub_add_comm hle
    rw [startingAt_rename] at hmove
    have ht : t = q.rename (· - a) :=
      hrt.unique (R := Accepted m) (fun _ _ _ _ ha ha' => accepted_unique ha ha') hmove
    have hacc : ∃ q', Accepted m d.line t q' := by
      cases hlast with
      | cons ha _ => exact ⟨_, ha⟩
    have hline := (exists_accepted_iff.mp hacc).2
    rw [ht, rename, List.getLast?_map] at hline
    exact absurd (exists_accepted_iff.mpr ⟨fun o ho => hparsed o (List.mem_of_getLast? ho),
      Acceptable.rename hline⟩) hno

end Program

/-! ## Their walks -/

section Walks

variable [DataArith K] {m : Machine K} {p : Program K} {b : Block K} {prev : Option (Block K)}
  {o o' : Output K}

theorem interpolate_content (lambda : K) :
    b.content.interpolate m (prev.map Block.content) lambda = b.interpolate m prev lambda := by
  cases prev <;> rfl

theorem rowsFrom_content (fuel : ℕ) (t : K) :
    rowsFrom m (prev.map Block.content) b.content fuel t = rowsFrom m prev b fuel t := by
  induction fuel generalizing t with
  | zero => rfl
  | succ fuel ih =>
    simp only [rowsFrom, interpolate_content, ih]
    rfl

/-- A row of the table of a program, made of one of a block. -/
def Output.add (m : Machine K) (o : Output K) (r : ℕ × PyRow K) : Output K :=
  ⟨o.total + m.tq, o.rows ++ [⟨r.1, o.total, r.2.time, r.2.lambda, r.2.speed, r.2.x, r.2.y, r.2.z⟩]⟩

theorem visit_iff {t : K} {s : Sample K} (hp : PrevIn p b prev) :
    (p.visit m b t s).run o = .ok () o' ↔ ∃ pos x y z, b.interpolate m prev s.lambda = .ok pos ∧
      pos.getX = .ok x ∧ pos.getY = .ok y ∧ pos.getZ = .ok z ∧
      o' = o.add m (b.n, ⟨t, s.lambda, s.speed, x, y, z⟩) := by
  rw [Program.visit, EStateM.run_bind, prevBlock_of_prevIn hp]
  dsimp only
  simp only [Program.raise, bind_eq_ok, ofExcept_eq_ok, mapError_eq_ok, EStateM.run_modify,
    EStateM.Result.ok.injEq, true_and]
  constructor
  · rintro ⟨pos, _, ⟨hpos, rfl⟩, x, _, ⟨hx, rfl⟩, y, _, ⟨hy, rfl⟩, z, _, ⟨hz, rfl⟩, rfl⟩
    exact ⟨pos, x, y, z, hpos, hx, hy, hz, rfl⟩
  · rintro ⟨pos, x, y, z, hpos, hx, hy, hz, rfl⟩
    exact ⟨pos, _, ⟨hpos, rfl⟩, x, _, ⟨hx, rfl⟩, y, _, ⟨hy, rfl⟩, z, _, ⟨hz, rfl⟩, rfl⟩

/-- The walk through a block of a program adds the rows of that block. -/
theorem walkWith_iff (hp : PrevIn p b prev) {fuel : ℕ} {t : K} :
    (Program.walkWith (p.visit m b) m.tq b fuel t).run o = .ok () o' ↔
      ∃ rows, rowsFrom m prev b fuel t = .ok rows ∧
        o' = (rows.map (b.n, ·)).foldl (Output.add m) o := by
  induction fuel generalizing t o with
  | zero =>
    constructor
    · intro h
      cases h
    · rintro ⟨_, h, -⟩
      cases h
  | succ fuel ih =>
    rw [Program.walkWith, rowsFrom]
    split
    · simp only [Program.raise, bind_eq_ok, except_bind_eq_ok, ofExcept_eq_ok, mapError_eq_ok,
        visit_iff hp, ih, Except.ok.injEq]
      constructor
      · rintro ⟨s, _, ⟨hs, rfl⟩, _, _, ⟨pos, x, y, z, hpos, hx, hy, hz, rfl⟩, rows, hrows, rfl⟩
        exact ⟨_, ⟨s, hs, pos, hpos, x, hx, y, hy, z, hz, rows, hrows, rfl⟩, rfl⟩
      · rintro ⟨_, ⟨s, hs, pos, hpos, x, hx, y, hy, z, hz, rows, hrows, rfl⟩, rfl⟩
        exact ⟨s, _, ⟨hs, rfl⟩, (), _, ⟨pos, x, y, z, hpos, hx, hy, hz, rfl⟩, rows, hrows, rfl⟩
    · constructor
      · intro h
        cases h
        exact ⟨[], rfl, rfl⟩
      · rintro ⟨_, h, rfl⟩
        cases h
        rfl

/-- What the walk through the program makes of the block of a handle. -/
def Tabulated (m : Machine K) (fuel : ℕ) (h : PyBlock K) (rows : List (PyRow K)) : Prop :=
  if Program.isMotionType h.block.type then rowsFrom m h.previous h.block fuel (num 0) = .ok rows
  else rows = []

/-- The rows of the blocks one after another, each with the number of its block. -/
def numbered (hs : List (PyBlock K)) (walks : List (List (PyRow K))) : List (ℕ × PyRow K) :=
  (hs.zip walks).flatMap fun w => w.2.map (w.1.block.n, ·)

omit [DataArith K] in
theorem numbered_cons (h : PyBlock K) (hs : List (PyBlock K)) (rows : List (PyRow K))
    (walks : List (List (PyRow K))) : numbered (h :: hs) (rows :: walks) =
      rows.map (h.block.n, ·) ++ numbered hs walks := rfl

theorem passes_iff {h : PyBlock K} (hp : PrevIn p h.block h.previous) {fuel : ℕ} :
    Passes (fun b => if !Program.isMotionType b.type then pure () else
      Program.walkWith (p.visit m b) m.tq b fuel (num 0)) h.block o o' ↔
      ∃ rows, Tabulated m fuel h rows ∧ o' = (rows.map (h.block.n, ·)).foldl (Output.add m) o := by
  unfold Passes Tabulated
  dsimp only
  cases Program.isMotionType h.block.type with
  | true => exact walkWith_iff hp
  | false =>
    constructor
    · intro hrun
      cases hrun
      exact ⟨[], rfl, rfl⟩
    · rintro ⟨_, hrows, rfl⟩
      cases hrows
      rfl

/-- The loop over the blocks adds the rows of each. -/
theorem passes_handles {bs : List (Block K)} (hp : ∀ h ∈ handlesFrom prev bs, PrevIn p h.block h.previous)
    {fuel : ℕ} : Run (Passes fun b => if !Program.isMotionType b.type then pure () else
      Program.walkWith (p.visit m b) m.tq b fuel (num 0)) o bs o' ↔
      ∃ walks, List.Forall₂ (Tabulated m fuel) (handlesFrom prev bs) walks ∧
        o' = (numbered (handlesFrom prev bs) walks).foldl (Output.add m) o := by
  induction bs generalizing prev o with
  | nil =>
    constructor
    · intro hr
      cases hr
      exact ⟨[], .nil, rfl⟩
    · rintro ⟨_, hw, rfl⟩
      cases hw
      exact .nil _
  | cons b bs ih =>
    rw [handlesFrom] at hp ⊢
    have hhead : PrevIn p b prev := hp ⟨prev, b⟩ List.mem_cons_self
    have htail : ∀ h ∈ handlesFrom (some b) bs, PrevIn p h.block h.previous :=
      fun h hm => hp h (List.mem_cons_of_mem _ hm)
    constructor
    · intro hr
      cases hr with
      | cons hb hr =>
        obtain ⟨rows, hrows, rfl⟩ := (passes_iff (h := ⟨prev, b⟩) hhead).mp hb
        obtain ⟨walks, hw, ho⟩ := (ih htail).mp hr
        refine ⟨rows :: walks, .cons hrows hw, ?_⟩
        rw [numbered_cons, List.foldl_append]
        exact ho
    · rintro ⟨_, hw, ho⟩
      cases hw with
      | cons hrows hw =>
        rw [numbered_cons, List.foldl_append] at ho
        exact .cons ((passes_iff (h := ⟨prev, b⟩) hhead).mpr ⟨_, hrows, rfl⟩) ((ih htail).mpr ⟨_, hw, ho⟩)

/-- A handle at another place. -/
def PyBlock.content (h : PyBlock K) : PyBlock K := ⟨h.previous.map Block.content, h.block.content⟩

omit [DataArith K] in
theorem handlesFrom_content (bs : Handles K) :
    (handlesFrom prev bs).map PyBlock.content =
      handlesFrom (prev.map Block.content) (bs.map Block.content) := by
  induction bs generalizing prev with
  | nil => rfl
  | cons b bs ih => exact congrArg (_ :: ·) (@ih (some b))

theorem tabulated_content {fuel : ℕ} {h : PyBlock K} {rows : List (PyRow K)} :
    Tabulated m fuel h.content rows ↔ Tabulated m fuel h rows := by
  unfold Tabulated
  rw [PyBlock.content, rowsFrom_content]
  exact Iff.rfl

theorem tabulated_handles {fuel : ℕ} (l : List (PyBlock K)) {walks : List (List (PyRow K))} :
    List.Forall₂ (Tabulated m fuel) (l.map PyBlock.content) walks ↔
      List.Forall₂ (Tabulated m fuel) l walks := by
  rw [List.forall₂_map_left_iff]
  constructor
  · exact fun h => h.imp fun _ _ => tabulated_content.mp
  · exact fun h => h.imp fun _ _ => tabulated_content.mpr

omit [DataArith K] in
theorem numbered_content (l : List (PyBlock K)) (walks : List (List (PyRow K))) :
    numbered (l.map PyBlock.content) walks = numbered l walks := by
  rw [numbered, List.zip_map_left, List.flatMap_map]
  rfl

omit [DataArith K] in
theorem getElem?_handlesFrom (bs : Handles K) (i : ℕ) : (handlesFrom prev bs)[i]? =
    bs[i]?.map fun b => ⟨if i = 0 then prev else bs[i - 1]?, b⟩ := by
  induction bs generalizing prev i with
  | nil => rfl
  | cons b bs ih =>
    cases i with
    | zero => rfl
    | succ i =>
      rw [handlesFrom, List.getElem?_cons_succ, ih, List.getElem?_cons_succ]
      cases i with
      | zero => rfl
      | succ i => rfl

omit [DataArith K] in
/-- The handles keep the blocks before theirs. -/
theorem mem_pyBlocks {hs : Handles K} {h : PyBlock K} (hm : h ∈ pyBlocks hs) :
    ∃ i, hs[i]? = some h.block ∧ h.previous = before hs i := by
  obtain ⟨i, hi⟩ := List.mem_iff_getElem?.mp hm
  rw [pyBlocks, getElem?_handlesFrom] at hi
  obtain ⟨b, hb, rfl⟩ := Option.map_eq_some_iff.mp hi
  refine ⟨i, hb, ?_⟩
  cases i with
  | zero => rfl
  | succ i => rfl

theorem prevIn_of_laid (hl : p.Laid m) {h : PyBlock K} (hm : h ∈ pyBlocks p.blocks) :
    PrevIn p h.block h.previous := by
  obtain ⟨i, hi, hprev⟩ := mem_pyBlocks hm
  have hp := hl.linked.prev i _ hi
  have hf := hl.find_prev hi
  rw [← hprev] at hp hf
  cases hq : h.previous with
  | none =>
    rw [hq] at hp
    exact hp
  | some q =>
    rw [hq] at hp hf
    refine ⟨q.addr, hp, ?_⟩
    rw [hp] at hf
    exact hf

/-- A handle on a parsed block refuses the blocks without a path, and the first one. -/
theorem blockWalk_of_linked {hs : Handles K} (hl : Linked hs) (hpar : ∀ b ∈ hs, b.parsed = true)
    (fuel : ℕ) {h : PyBlock K} (hm : h ∈ pyBlocks hs) :
    blockWalk m fuel h =
      if !Program.isMotionType h.block.type then
        .error (.valueError "Only LINE, CWA and CCWA blocks can be interpolated")
      else if h.previous.isNone then
        .error (.valueError "Interpolation requires a block linked to a parsed previous block")
      else rowsFrom m h.previous h.block fuel (num 0) := by
  obtain ⟨i, hi, hprev⟩ := mem_pyBlocks hm
  have hnone : h.block.prev.isNone = h.previous.isNone := by
    rw [hl.prev i _ hi, ← hprev, Option.isNone_map]
  rw [blockWalk, requireInterpolatable, hpar _ (List.mem_of_getElem? hi), hnone]
  cases Program.isMotionType h.block.type with
  | false => rfl
  | true =>
    cases h.previous.isNone with
    | true => rfl
    | false => rfl

/-- The handles that a program gives out, after any calls, also ones that threw, say what its
blocks say; where the last line was refused there are none.  The walk through the program is that
through the blocks of the handles, one after another, but the handle on the first block refuses
what the program walks through. -/
theorem handles_agree {calls : List Call} (hr : Run (Called m) Program.empty calls p) :
    (¬ p.Parsed → ∃ e, programBlocks m p = .error e) ∧
    (p.Parsed → ∃ hs, programBlocks m p = .ok hs ∧
      hs.map Block.content = p.blocks.map Block.content ∧ Linked hs ∧
      ∀ fuel, (∀ h ∈ pyBlocks hs, blockWalk m fuel h =
          if !Program.isMotionType h.block.type then
            .error (.valueError "Only LINE, CWA and CCWA blocks can be interpolated")
          else if h.previous.isNone then
            .error (.valueError "Interpolation requires a block linked to a parsed previous block")
          else rowsFrom m h.previous h.block fuel (num 0)) ∧
        ∀ o, (Program.programWalk m fuel p).run Program.noRows = .ok () o ↔
          ∃ walks, List.Forall₂ (Tabulated m fuel) (pyBlocks hs) walks ∧
            o = (numbered (pyBlocks hs) walks).foldl (Output.add m) Program.noRows) := by
  have hmade := Program.remade_of_calls hr
  have hlaid := Program.laid_of_calls hr
  constructor
  · intro hnot
    obtain ⟨c, hc, hpar⟩ : ∃ c ∈ p.blocks, c.parsed = false := by
      simpa [Program.Parsed] using hnot
    exact Program.copies_refused hmade (List.prefix_refl _) hc hpar
  · intro hpar
    obtain ⟨hs, hcopy, hcontent, hlink⟩ := Program.exists_copies hmade (List.prefix_refl _) hpar
    have hsame : (pyBlocks hs).map PyBlock.content = (pyBlocks p.blocks).map PyBlock.content := by
      rw [pyBlocks, pyBlocks, handlesFrom_content, handlesFrom_content, hcontent]
    have hhs : ∀ b ∈ hs, b.parsed = true := by
      intro b hb
      have hmem := List.mem_map_of_mem (f := Block.content) hb
      rw [hcontent] at hmem
      obtain ⟨c, hc, heq⟩ := List.mem_map.mp hmem
      have := hpar c hc
      rwa [show c.parsed = b.parsed from congrArg (·.parsed) heq] at this
    refine ⟨hs, hcopy, hcontent, hlink, fun fuel =>
      ⟨fun h hm => blockWalk_of_linked hlink hhs fuel hm, fun o => ?_⟩⟩
    have hruns : (Program.programWalk m fuel p).run Program.noRows = .ok () o ↔ _ :=
      forM_eq_ok.trans (passes_handles fun h hm => prevIn_of_laid hlaid hm)
    rw [hruns]
    refine exists_congr fun walks => and_congr ?_ ?_
    · rw [← tabulated_handles (pyBlocks hs), hsame, tabulated_handles]
      rfl
    · rw [← numbered_content (pyBlocks hs), hsame, numbered_content]
      rfl

end Walks

/-- The handle on a line that comes first cannot be walked through. -/
theorem handles_agree_sample : ∃ (calls : List Call) (p : Program XReal) (hs : Handles XReal)
    (h : PyBlock XReal), Run (Called Machine.default) Program.empty calls p ∧
      programBlocks Machine.default p = .ok hs ∧ h ∈ pyBlocks hs ∧ h.block.type = .line ∧
      ∀ fuel, blockWalk Machine.default fuel h = .error
        (.valueError "Interpolation requires a block linked to a parsed previous block") := by
  obtain ⟨p, b, c, hp, hblocks, hline, -, -⟩ := exists_marked
  have hload : Edited Machine.default (.load "part.g" (some markedLines) false) Program.empty p :=
    hp.of_single
  have hr : Run (Called Machine.default) Program.empty
      [.edit (.load "part.g" (some markedLines) false)] p := .single (called_of_edited hload)
  have hpar := parsed_of_load hload
  obtain ⟨hs, hcopy, hcontent, -, hwalks⟩ := (handles_agree hr).2 hpar
  rw [hblocks, List.map_cons] at hcontent
  obtain ⟨b', bs, rfl, hb, -⟩ := List.map_eq_cons_iff.mp hcontent
  have htype : b'.type = .line := (congrArg (·.type) hb).trans hline
  refine ⟨_, p, b' :: bs, ⟨none, b'⟩, hr, hcopy, List.mem_cons_self, htype, fun fuel => ?_⟩
  rw [(hwalks fuel).1 ⟨none, b'⟩ List.mem_cons_self, htype]
  exact if_neg Bool.false_ne_true

end Cncpp
