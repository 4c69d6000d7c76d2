import Cncpp.Continuity
import Cncpp.Timing
import Cncpp.Termination

/-! The samples of a whole program: the loop of the test program over the blocks, and that of
the bindings.  Each walks through the interpolated blocks and adds a row at every visit, with
one clock for all of them. -/

namespace Cncpp

open DataArith Lib Lib.ExceptState Fsm

variable {K : Type}

/-- A row: the block, the time in total, the time in the block, the sample, the position. -/
structure Row (K : Type) where
  n : ℕ
  time : K
  blockTime : K
  lambda : K
  speed : K
  x : K
  y : K
  z : K

def Row.position (r : Row K) : Point K := .ofCoords r.x r.y r.z

/-- The rows so far, and the time of the next one. -/
structure Output (K : Type) where
  total : K
  rows : List (Row K)

/-- Why a loop does not come to its end. -/
inductive Stopped (K : Type) where
  | failure (f : Failure K)
  /-- A block is walked for longer than there is fuel. -/
  | endless

abbrev OutputM (K : Type) := EStateM (Stopped K) (Output K)

namespace Program

def raise {α : Type} (x : Except (Exn K) α) : OutputM K α :=
  ofExcept (x.mapError fun e => .failure (.exception e))

/-- The block behind the pointer of `b`. -/
def prevBlock (p : Program K) (b : Block K) : OutputM K (Option (Block K)) :=
  match b.prev with
  | none => pure none
  | some a => match p.find a with
    | some q => pure (some q)
    | none => throw (.failure .danglingPrev)

variable [DataArith K]

/-- What the loops call at each visit. -/
def visit (m : Machine K) (p : Program K) (b : Block K) (t : K) (s : Sample K) :
    OutputM K Unit := do
  let prev ← p.prevBlock b
  let pos ← raise (b.interpolate m prev s.lambda)
  let x ← raise pos.getX
  let y ← raise pos.getY
  let z ← raise pos.getZ
  modify fun o => ⟨o.total + m.tq, o.rows ++ [⟨b.n, o.total, t, s.lambda, s.speed, x, y, z⟩]⟩

/-- The loop of `walk` from the time `t` on, with its callback. -/
def walkWith (f : K → Sample K → OutputM K Unit) (tq : K) (b : Block K) : ℕ → K → OutputM K Unit
  | 0, _ => throw .endless
  | fuel + 1, t =>
    if le t b.profile.dt then do
      let s ← raise (b.lambda t)
      f t s
      walkWith f tq b fuel (t + tq)
    else pure ()

/-- The loop over the blocks, which skips some of them by their types. -/
def walkAll (skips : BlockType → Bool) (m : Machine K) (fuel : ℕ) (p : Program K) : OutputM K Unit :=
  p.blocks.forM fun b =>
    if skips b.type then pure () else walkWith (p.visit m b) m.tq b fuel (num 0)

/-- The loop in `main`, which skips the blocks that are not interpolated. -/
def mainWalk : Machine K → ℕ → Program K → OutputM K Unit :=
  walkAll fun t => t = .rapid || t = .noMotion

/-- `is_motion_type`. -/
def isMotionType (t : BlockType) : Bool := t = .line || t = .cwa || t = .ccwa

/-- `program_walk`. -/
def programWalk : Machine K → ℕ → Program K → OutputM K Unit :=
  walkAll fun t => !isMotionType t

/-- The table before the first block. -/
def noRows : Output K := ⟨num 0, []⟩

end Program

/-! ## The rows of a block -/

section Visits

variable {p : Program K} {b : Block K} {prev : Option (Block K)} {o : Output K}

theorem prevBlock_of_prevIn (h : PrevIn p b prev) : (p.prevBlock b).run o = .ok prev o := by
  unfold Program.prevBlock
  cases prev with
  | none =>
    have hnone : b.prev = none := h
    rw [hnone]
    rfl
  | some q =>
    obtain ⟨a, ha, hq⟩ := h
    rw [ha]
    dsimp only
    rw [hq]
    rfl

variable [DataArith K] {m : Machine K} {t : K} {s : Sample K} {x y z : K}

theorem visit_run (hp : PrevIn p b prev)
    (h : b.interpolate m prev s.lambda = .ok (.ofCoords x y z)) : (p.visit m b t s).run o =
      .ok () ⟨o.total + m.tq, o.rows ++ [⟨b.n, o.total, t, s.lambda, s.speed, x, y, z⟩]⟩ := by
  rw [Program.visit, EStateM.run_bind, prevBlock_of_prevIn hp]
  dsimp only
  rw [h]
  rfl

/-- One pass of the loop. -/
theorem walkWith_step {f : K → Sample K → OutputM K Unit} {tq : K} {fuel : ℕ} {o' : Output K}
    (hle : le t b.profile.dt = true) (hlam : b.lambda t = .ok s) (hf : (f t s).run o = .ok () o') :
    (Program.walkWith f tq b (fuel + 1) t).run o = (Program.walkWith f tq b fuel (t + tq)).run o' := by
  rw [Program.walkWith, if_pos hle, hlam]
  show ((f t s) >>= fun _ => Program.walkWith f tq b fuel (t + tq)).run o = _
  rw [EStateM.run_bind, hf]

/-- A block that is not interpolated throws at its first visit, and leaves no row. -/
theorem visit_throws (hp : PrevIn p b prev) (hpar : b.parsed = true) (hma : b.hasMachine = true)
    (ht : ¬ b.type.Interpolated) : (p.visit m b t s).run o =
      .error (.failure (.exception (.cannotInterpolate b.line))) o := by
  obtain ⟨hl, ha⟩ := not_or.mp ht
  obtain ⟨p0, h0⟩ : ∃ p0, b.startPoint m prev = .ok p0 :=
    ⟨_, Block.startPoint_eq_ok.mpr ⟨hma, rfl⟩⟩
  have hthrow : b.interpolate m prev s.lambda = .error (.cannotInterpolate b.line) := by
    have ha : ¬ (b.type = .cwa ∨ b.type = .ccwa) := ha
    rw [Block.interpolate, hpar, h0]
    simp only [Bool.not_true, Bool.false_eq_true, if_false, if_neg hl, if_neg ha]
    rfl
  rw [Program.visit, EStateM.run_bind, prevBlock_of_prevIn hp]
  dsimp only
  rw [hthrow]
  rfl

end Visits

noncomputable section

open XReal

/-- The row at the tick `j` of a block. -/
structure RowAt (m : Machine XReal) (prev : Option (Block XReal)) (b : Block XReal) (tq : ℝ)
    (j : ℕ) (r : Row XReal) : Prop where
  n : r.n = b.n
  blockTime : r.blockTime = .fin (j * tq)
  lambda : r.lambda = (b.profile.lambda (.fin (j * tq))).lambda
  speed : r.speed = (b.profile.lambda (.fin (j * tq))).speed
  position : b.interpolate m prev r.lambda = .ok r.position

/-- The table goes on with `rows`, one for each tick of the clock. -/
structure Extends (tq : ℝ) (o : Output XReal) (rs : List (Row XReal)) (o' : Output XReal) :
    Prop where
  rows : o'.rows = o.rows ++ rs
  clock : ∀ i : ℕ, o.total = .fin (i * tq) → o'.total = .fin ((i + rs.length : ℕ) * tq) ∧
    rs.map (·.time) = (List.range' i rs.length).map fun j : ℕ => .fin (j * tq)

section Extends

variable {tq : ℝ} {o o' o'' : Output XReal} {rs rs' : List (Row XReal)}

theorem Extends.nil (tq : ℝ) (o : Output XReal) : Extends tq o [] o :=
  ⟨(List.append_nil _).symm, fun _ hi => ⟨hi, rfl⟩⟩

theorem Extends.append (h : Extends tq o rs o') (h' : Extends tq o' rs' o'') :
    Extends tq o (rs ++ rs') o'' := by
  refine ⟨by rw [h'.rows, h.rows, List.append_assoc], fun i hi => ?_⟩
  obtain ⟨ho', hrs⟩ := h.clock i hi
  obtain ⟨ho'', hrs'⟩ := h'.clock _ ho'
  refine ⟨by rw [ho'', List.length_append, Nat.add_assoc], ?_⟩
  rw [List.map_append, hrs, hrs', ← List.map_append, List.length_append]
  rw [List.range'_append_1]

/-- A table that is built up from the beginning. -/
theorem Extends.eq_of_first (h : Extends tq Program.noRows rs o) :
    o = ⟨.fin ((rs.length : ℕ) * tq), rs⟩ ∧
      rs.map (·.time) = (List.range rs.length).map fun j : ℕ => .fin (j * tq) := by
  obtain ⟨htot, hclock⟩ := h.clock 0 (by simp [Program.noRows])
  refine ⟨?_, by rw [hclock, List.range_eq_range']⟩
  rw [Nat.zero_add] at htot
  rw [← htot, ← h.rows.trans (List.nil_append rs)]

/-- A visit adds one row. -/
theorem extends_visit {m : Machine XReal} (htq : m.tq = .fin tq) (o : Output XReal) (n : ℕ)
    (t lam v x y z : XReal) : Extends tq o [⟨n, o.total, t, lam, v, x, y, z⟩]
      ⟨o.total + m.tq, o.rows ++ [⟨n, o.total, t, lam, v, x, y, z⟩]⟩ := by
  refine ⟨rfl, fun i hi => ⟨?_, ?_⟩⟩
  · rw [hi, htq, tick_succ]
    rfl
  · rw [List.map_singleton, hi]
    rfl

end Extends

section Blocks

variable {m : Machine XReal} {p : Program XReal} {b : Block XReal} {prev : Option (Block XReal)}
  {tq : ℝ} {T : Trapezoid} {k : ℕ} {o : Output XReal}

/-- The visits to the ticks from `j` on. -/
theorem walkWith_ticks (hT : Ticks tq b T k) (htq : m.tq = .fin tq) (htq0 : 0 < tq)
    (hp : PrevIn p b prev) (hint : ∀ lam, ∃ x y z, b.interpolate m prev lam = .ok (.ofCoords x y z))
    {n j : ℕ} (hj : j + n = k + 1) (o : Output XReal) : ∃ rs o',
      (∀ fuel, n < fuel →
        (Program.walkWith (p.visit m b) m.tq b fuel (.fin (j * tq))).run o = .ok () o') ∧
      List.Forall₂ (RowAt m prev b tq) (List.range' j n) rs ∧ Extends tq o rs o' := by
  have hle : ∀ i : ℕ, DataArith.le (.fin (i * tq) : XReal) b.profile.dt = true ↔ i ≤ k := by
    intro i
    rw [hT.profile]
    show DataArith.le (.fin (i * tq) : XReal) (.fin (k * tq)) = true ↔ i ≤ k
    rw [le_def, mul_le_mul_iff_left₀ htq0, Nat.cast_le]
  induction n generalizing j o with
  | zero =>
    refine ⟨[], o, fun fuel hfuel => ?_, .nil, .nil tq o⟩
    obtain ⟨fuel, rfl⟩ := Nat.exists_eq_add_of_lt hfuel
    rw [Nat.zero_add, Program.walkWith, if_neg (by rw [hle]; omega)]
    rfl
  | succ n ih =>
    obtain ⟨hlam, -⟩ := hT.lambda (j * tq)
    obtain ⟨x, y, z, hpos⟩ := hint (b.profile.lambda (.fin (j * tq))).lambda
    have hvisit := visit_run (t := .fin (j * tq)) (o := o) hp hpos
    have hrow : RowAt m prev b tq j ⟨b.n, o.total, .fin (j * tq),
        (b.profile.lambda (.fin (j * tq))).lambda, (b.profile.lambda (.fin (j * tq))).speed, x, y, z⟩ :=
      ⟨rfl, rfl, rfl, rfl, hpos⟩
    have hnext : j + 1 + n = k + 1 := by omega
    obtain ⟨rs, o', hrun, hrs, hext⟩ := ih hnext _
    refine ⟨_ :: rs, o', fun fuel hfuel => ?_, .cons hrow hrs,
      (extends_visit htq o _ _ _ _ _ _ _).append hext⟩
    obtain ⟨fuel, rfl⟩ := Nat.exists_eq_add_of_lt (Nat.lt_of_le_of_lt (Nat.zero_le _) hfuel)
    rw [Nat.zero_add] at hfuel ⊢
    have hin : DataArith.le (.fin (j * tq) : XReal) b.profile.dt = true :=
      (hle j).mpr (by omega)
    rw [walkWith_step hin hlam hvisit, htq, tick_succ, ← htq]
    exact hrun fuel (Nat.lt_of_succ_lt_succ hfuel)

/-! ## The rows of a program -/

/-- What is needed to walk through the block: its profile in ticks, and its path. -/
def Walkable (m : Machine XReal) (p : Program XReal) (tq : ℝ) (b : Block XReal) : Prop :=
  ∃ prev T k, PrevIn p b prev ∧ Ticks tq b T k ∧
    ∀ lam, ∃ x y z, b.interpolate m prev lam = .ok (.ofCoords x y z)

/-- The rows of some blocks of the program: one at each tick of each interpolated block. -/
inductive Sampled (m : Machine XReal) (p : Program XReal) (tq : ℝ) :
    List (Block XReal) → List (Row XReal) → Prop
  | nil : Sampled m p tq [] []
  | skip {b : Block XReal} {bs : List (Block XReal)} {rs : List (Row XReal)} :
      ¬ b.type.Interpolated → Sampled m p tq bs rs → Sampled m p tq (b :: bs) rs
  | block {b : Block XReal} {bs : List (Block XReal)} {rs rs' : List (Row XReal)}
      {prev : Option (Block XReal)} {T : Trapezoid} {k : ℕ} : b.type.Interpolated →
      PrevIn p b prev → Ticks tq b T k →
      List.Forall₂ (RowAt m prev b tq) (List.range' 0 (k + 1)) rs → Sampled m p tq bs rs' →
      Sampled m p tq (b :: bs) (rs ++ rs')

/-- A block without an interpolation has no rows, the others have one for each sample of the
machine but its last one. -/
theorem Sampled.length_eq {bs : List (Block XReal)} {rs : List (Row XReal)} (htq0 : 0 < tq)
    (h : Sampled m p tq bs rs) : rs.length =
      ((bs.filter (·.type.Interpolated)).map fun b => evaluations (.fin tq) b - 1).sum := by
  induction h with
  | nil => rfl
  | skip ht _ ih =>
    rw [List.filter_cons_of_neg (by simpa using ht)]
    exact ih
  | block ht _ hT hrs _ ih =>
    rw [List.filter_cons_of_pos (by simpa using ht), List.map_cons, List.sum_cons, ← ih,
      hT.evaluations_eq ht htq0, List.length_append, ← hrs.length_eq, List.length_range']
    rfl

section Loop

variable {skips : BlockType → Bool} {bs : List (Block XReal)}

/-- The pass of the loop for a block. -/
def pass (skips : BlockType → Bool) (m : Machine XReal) (fuel : ℕ) (p : Program XReal)
    (b : Block XReal) : OutputM XReal Unit :=
  if skips b.type then pure () else Program.walkWith (p.visit m b) m.tq b fuel (num 0)

/-- A loop that, of some blocks, skips those that are not interpolated. -/
def SkipsRest (skips : BlockType → Bool) (bs : List (Block XReal)) : Prop :=
  ∀ b ∈ bs, skips b.type = true ↔ ¬ b.type.Interpolated

/-- The passes for some blocks of the program, in any loop that skips those that are not
interpolated. -/
theorem passes_run (htq : m.tq = .fin tq) (htq0 : 0 < tq)
    (hwalk : ∀ b ∈ bs, b.type.Interpolated → Walkable m p tq b) (o : Output XReal) : ∃ n rs o',
      (∀ skips fuel, SkipsRest skips bs → n < fuel → Run (Passes (pass skips m fuel p)) o bs o') ∧
      Sampled m p tq bs rs ∧ Extends tq o rs o' := by
  induction bs generalizing o with
  | nil => exact ⟨0, [], o, fun _ _ _ _ => .nil o, .nil, .nil tq o⟩
  | cons b bs ih =>
    have hrest := ih fun c hc => hwalk c (List.mem_cons_of_mem b hc)
    have htail : ∀ skips, SkipsRest skips (b :: bs) → SkipsRest skips bs :=
      fun _ hs c hc => hs c (List.mem_cons_of_mem b hc)
    by_cases ht : b.type.Interpolated
    · obtain ⟨prev, T, k, hp, hT, hint⟩ := hwalk b (by simp) ht
      obtain ⟨rs, o₁, hrun, hrs, hext⟩ :=
        walkWith_ticks hT htq htq0 hp hint (Nat.zero_add (k + 1)) o
      obtain ⟨n, rs', o', hall, hsam, hext'⟩ := hrest o₁
      refine ⟨max n (k + 1), rs ++ rs', o', fun skips fuel hs hfuel =>
        .cons ?_ (hall skips fuel (htail skips hs) (lt_of_le_of_lt (le_max_left _ _) hfuel)),
        .block ht hp hT hrs hsam, hext.append hext'⟩
      have hno : skips b.type ≠ true := fun hskip => (hs b (by simp)).mp hskip ht
      have hzero : (num 0 : XReal) = .fin ((0 : ℕ) * tq) := by simp
      show (pass skips m fuel p b).run o = _
      rw [pass, if_neg hno, hzero]
      exact hrun fuel (lt_of_le_of_lt (le_max_right _ _) hfuel)
    · obtain ⟨n, rs, o', hall, hsam, hext⟩ := hrest o
      refine ⟨n, rs, o', fun skips fuel hs hfuel =>
        .cons ?_ (hall skips fuel (htail skips hs) hfuel), .skip ht hsam, hext⟩
      show (pass skips m fuel p b).run o = _
      rw [pass, if_pos ((hs b (by simp)).mpr ht)]
      rfl

end Loop

end Blocks

section Programs

variable {m : Machine XReal} {p : Program XReal} {b : Block XReal} {A tq : ℝ} {edits : List Edit}

theorem walkable_of_sourced (hsrc : p.Sourced m) (hw : p.Wired) (hA : m.A = .fin A) (hA0 : 0 < A)
    (htq : m.tq = .fin tq) (htq0 : 0 < tq) (hb : b ∈ p.blocks) (hd : b.Drivable)
    (ht : b.type.Interpolated) : Walkable m p tq b := by
  obtain ⟨l, F, hl, hl0, hF, hF0⟩ := hd.motion ht
  obtain ⟨T, k, hT⟩ := exists_ticks (hsrc.parsed b hb hd.parsed) ht hA hA0 htq htq0 hl hl0 hF hF0
  obtain ⟨prev, hp, hint⟩ := hsrc.interpolates hw hb hd.parsed ht
  exact ⟨prev, T, k, hp, hT, hint⟩

/-- A block of an edited program is parsed, by this machine, and lasts a whole number of
ticks. -/
theorem parsed_of_edits (hp : Run (Edited m) Program.empty edits p) (htq : m.tq = .fin tq)
    (hb : b ∈ p.blocks) : b.parsed = true ∧ b.ParsedBy m ∧ ∃ k : ℕ, b.profile.dt = .fin (k * tq) := by
  obtain ⟨i, hi⟩ := List.getElem?_of_mem hb
  obtain ⟨line, -, hmade⟩ := exists_line hp hi
  cases hmade with
  | @mk prev b₀ c next hcon _ hparse =>
    obtain ⟨hpar, hk⟩ := whole_of_parse htq hcon hparse
    exact ⟨hpar, ⟨m, prev, b₀, c, next, ⟨rfl, rfl, rfl⟩, hparse, rfl⟩, hk⟩

theorem sourced_of_edits (hp : Run (Edited m) Program.empty edits p) (htq : m.tq = .fin tq) :
    p.Sourced m :=
  ⟨fun _ hb _ => (parsed_of_edits hp htq hb).2.1,
    fun _ hb => (parsed_of_edits hp htq (List.mem_of_mem_dropLast hb)).1⟩

theorem wired_of_edits (hp : Run (Edited m) Program.empty edits p) : p.Wired :=
  hp.invariant Program.Wired (fun _ _ _ h he => wired_edit he h) (Program.wired_empty "")

/-- `is_motion_type` is true of the interpolated types. -/
theorem isMotionType_iff (t : BlockType) : Program.isMotionType t = true ↔ t.Interpolated := by
  simp [Program.isMotionType, BlockType.Interpolated, BlockType.IsArc, or_assoc]

theorem skips_bindings (bs : List (Block XReal)) :
    SkipsRest (fun t => !Program.isMotionType t) bs := by
  intro b _
  rw [Bool.not_eq_true', ← Bool.not_eq_true, isMotionType_iff]

/-- The loop in `main` skips the known types without interpolation. -/
theorem skips_main {bs : List (Block XReal)} (h : ∀ b ∈ bs, b.type.Known) :
    SkipsRest (fun t => t = .rapid || t = .noMotion) bs := by
  intro b hb
  have hk := h b hb
  simp only [BlockType.Known, List.mem_cons, List.not_mem_nil, or_false] at hk
  rcases hk with ht | ht | ht | ht | ht <;> rw [ht] <;> decide

/-- The table of the bindings: for each tick of each interpolated block a row. -/
structure Tabulates (m : Machine XReal) (p : Program XReal) (tq : ℝ) (n : ℕ)
    (rs : List (Row XReal)) : Prop where
  run : ∀ fuel, n < fuel → (Program.programWalk m fuel p).run Program.noRows =
    .ok () ⟨.fin ((rs.length : ℕ) * tq), rs⟩
  clock : rs.map (·.time) = (List.range rs.length).map fun j : ℕ => .fin (j * tq)
  sampled : Sampled m p tq p.blocks rs

theorem exists_table (htq : m.tq = .fin tq) (htq0 : 0 < tq)
    (hwalk : ∀ b ∈ p.blocks, b.type.Interpolated → Walkable m p tq b) :
    ∃ n rs, Tabulates m p tq n rs := by
  obtain ⟨n, rs, o, hrun, hsam, hext⟩ := passes_run htq htq0 hwalk Program.noRows
  obtain ⟨ho, hclock⟩ := hext.eq_of_first
  refine ⟨n, rs, fun fuel hfuel => ?_, hclock, hsam⟩
  rw [← ho]
  exact forM_eq_ok.mpr (hrun _ fuel (skips_bindings p.blocks) hfuel)

theorem walkable_of_edits (hp : Run (Edited m) Program.empty edits p) (hA : m.A = .fin A)
    (hA0 : 0 < A) (htq : m.tq = .fin tq) (htq0 : 0 < tq)
    (hd : ∀ b ∈ p.blocks, b.type.Interpolated → b.Drivable) :
    ∀ b ∈ p.blocks, b.type.Interpolated → Walkable m p tq b := fun b hb ht =>
  walkable_of_sourced (sourced_of_edits hp htq) (wired_of_edits hp) hA hA0 htq htq0 hb (hd b hb ht) ht

/-- The loop of the bindings over an accepted program whose interpolated blocks have a length and a
feedrate.  It comes to its end, with one row for each tick of each interpolated block, in the order
of the blocks; and the time in total goes on by one period from row to row, over the ends of the
blocks. -/
theorem program_rows (hp : Run (Edited m) Program.empty edits p) (hA : m.A = .fin A) (hA0 : 0 < A)
    (htq : m.tq = .fin tq) (htq0 : 0 < tq)
    (hd : ∀ b ∈ p.blocks, b.type.Interpolated → b.Drivable) :
    ∃ n rs, (∀ fuel, n < fuel → (Program.programWalk m fuel p).run Program.noRows =
        .ok () ⟨.fin ((rs.length : ℕ) * tq), rs⟩) ∧
      rs.map (·.time) = (List.range rs.length).map (fun j : ℕ => .fin (j * tq)) ∧
      rs.length = ((p.blocks.filter (·.type.Interpolated)).map fun b =>
        evaluations (.fin tq) b - 1).sum ∧
      Sampled m p tq p.blocks rs := by
  obtain ⟨n, rs, h⟩ := exists_table htq htq0 (walkable_of_edits hp hA hA0 htq htq0 hd)
  exact ⟨n, rs, h.run, h.clock, h.sampled.length_eq htq0, h.sampled⟩

/-- The table of three blocks, of which only the line has rows. -/
theorem program_rows_sample : ∃ (p : Program XReal) (a b c : Block XReal) (n : ℕ)
    (rs : List (Row XReal)),
    Run (Edited Machine.default) Program.empty [.load "part.g" (some mixedLines) false] p ∧
      p.blocks = [a, b, c] ∧ a.type = .rapid ∧ b.type = .line ∧ c.type = .noMotion ∧
      (∀ fuel, n < fuel → (Program.programWalk Machine.default fuel p).run Program.noRows =
        .ok () ⟨.fin ((rs.length : ℕ) * (1 / 1000)), rs⟩) ∧
      rs.length = evaluations (.fin (1 / 1000)) b - 1 ∧
      Sampled Machine.default p (1 / 1000) p.blocks rs := by
  obtain ⟨p, a, b, c, hload, hmix⟩ := exists_mixed
  obtain ⟨hA, htq⟩ := default_limits
  obtain ⟨n, rs, hrun, -, hlen, hsam⟩ := program_rows (.single hload) hA (by norm_num) htq
    (by norm_num) fun o ho _ => hmix.drivable o ho
  have hfilter : p.blocks.filter (·.type.Interpolated) = [b] := by
    rw [hmix.blocks, List.filter_cons_of_neg (by rw [hmix.rapid]; decide),
      List.filter_cons_of_pos (by rw [hmix.line]; decide),
      List.filter_cons_of_neg (by rw [hmix.still]; decide), List.filter_nil]
  rw [hfilter, List.map_singleton, List.sum_singleton] at hlen
  exact ⟨p, a, b, c, n, rs, .single hload, hmix.blocks, hmix.rapid, hmix.line, hmix.still, hrun, hlen,
    hsam⟩

/-- A straight line, and a block of an unknown type. -/
def markedLines : List Line := [sampleLine, "G90".toList]

theorem exists_marked : ∃ (p : Program XReal) (b c : Block XReal),
    Run (Edited Machine.default) Program.empty [.load "part.g" (some markedLines) false] p ∧
      p.blocks = [b, c] ∧ b.type = .line ∧ ¬ c.type.Known ∧
      ∀ d ∈ p.blocks, d.type.Interpolated → d.Drivable := by
  obtain ⟨p, hload⟩ := exists_load (K := XReal) Machine.default "part.g" markedLines
    (by decide +kernel) (by decide +kernel)
  obtain ⟨hlen, hmade⟩ := blocks_of_load hload
  obtain ⟨b, hb, hmb⟩ := hmade 0 sampleLine (by decide +kernel)
  obtain ⟨c, hc, hmc⟩ := hmade 1 "G90".toList (by decide +kernel)
  have htwo : p.blocks.length = 2 := hlen.trans (by decide +kernel)
  have hblocks : p.blocks = [b, c] := by
    obtain ⟨b', c', he⟩ := List.length_eq_two.mp htwo
    rw [he] at hb hc ⊢
    cases hb
    cases hc
    rfl
  obtain ⟨hpar, hl, hF⟩ := sample_motion hmb
  have hc90 : c.type = typeCode "G90".toList := hmc.type_eq
  refine ⟨p, b, c, .single hload, hblocks, hmb.type_eq.trans (by decide +kernel), ?_, ?_⟩
  · rw [hc90]
    decide +kernel
  · rw [hblocks, List.forall_mem_cons, List.forall_mem_singleton]
    refine ⟨fun _ => ⟨hpar, fun _ => ⟨_, _, hl, by norm_num, hF, by norm_num⟩⟩, fun hi => ?_⟩
    rw [hc90] at hi
    exact absurd hi (by decide +kernel)

/-- A block of an unknown type is not skipped in `main`, and throws. -/
theorem pass_throws (hp : Run (Edited m) Program.empty edits p) (htq : m.tq = .fin tq)
    (htq0 : 0 < tq) (hb : b ∈ p.blocks) (hk : ¬ b.type.Known) {fuel : ℕ} (hfuel : 0 < fuel)
    (o : Output XReal) : (pass (fun t => t = .rapid || t = .noMotion) m fuel p b).run o =
      .error (.failure (.exception (.cannotInterpolate b.line))) o := by
  obtain ⟨hpar, hby, k, hdt⟩ := parsed_of_edits hp htq hb
  obtain ⟨prev, hprev, -⟩ := exists_prevIn (wired_of_edits hp) hb
  have ht : ¬ b.type.Interpolated := by
    rintro (ht | ht | ht) <;> exact hk (by rw [ht]; decide)
  have hno : ¬ ((b.type = .rapid || b.type = .noMotion) = true) := by
    rw [Bool.or_eq_true, decide_eq_true_iff, decide_eq_true_iff]
    rintro (ht | ht) <;> exact hk (by rw [ht]; decide)
  have hle : DataArith.le (num 0 : XReal) b.profile.dt = true := by
    rw [hdt, num_def, le_def, Rat.cast_zero]
    positivity
  obtain ⟨fuel, rfl⟩ := Nat.exists_eq_add_of_lt hfuel
  rw [Nat.zero_add, pass, if_neg hno, Program.walkWith, if_pos hle, Block.lambda, if_pos hpar]
  exact bind_eq_error.mpr (.inr ⟨_, o, rfl, bind_eq_error.mpr
    (.inl (visit_throws hprev hpar hby.plotted.hasMachine ht))⟩)

/-- The loop in `main` over such a program.  Where all types are known it gives the table of
the bindings.  Otherwise it throws at the first block of an unknown type, which the bindings
skip, behind the rows of the blocks before. -/
theorem main_walk (hp : Run (Edited m) Program.empty edits p) (hA : m.A = .fin A) (hA0 : 0 < A)
    (htq : m.tq = .fin tq) (htq0 : 0 < tq)
    (hd : ∀ b ∈ p.blocks, b.type.Interpolated → b.Drivable) :
    ((∀ b ∈ p.blocks, b.type.Known) → ∃ n o, ∀ fuel, n < fuel →
      (Program.programWalk m fuel p).run Program.noRows = .ok () o ∧
        (Program.mainWalk m fuel p).run Program.noRows = .ok () o) ∧
    ∀ pre b post, p.blocks = pre ++ b :: post → (∀ c ∈ pre, c.type.Known) → ¬ b.type.Known →
      ∃ n o rs rs', Sampled m p tq pre rs ∧ ∀ fuel, n < fuel →
        (Program.programWalk m fuel p).run Program.noRows = .ok () ⟨o, rs ++ rs'⟩ ∧
        (Program.mainWalk m fuel p).run Program.noRows =
          .error (.failure (.exception (.cannotInterpolate b.line)))
            ⟨.fin ((rs.length : ℕ) * tq), rs⟩ := by
  have hwalk := walkable_of_edits hp hA hA0 htq htq0 hd
  refine ⟨fun hknown => ?_, fun pre b post hsplit hpre hk => ?_⟩
  · obtain ⟨n, rs, o, hrun, -, -⟩ := passes_run htq htq0 hwalk Program.noRows
    exact ⟨n, o, fun fuel hfuel =>
      ⟨forM_eq_ok.mpr (hrun _ fuel (skips_bindings p.blocks) hfuel),
        forM_eq_ok.mpr (hrun _ fuel (skips_main hknown) hfuel)⟩⟩
  · rw [hsplit] at hwalk
    obtain ⟨n, rs, o, hrun, hsam, hext⟩ := passes_run (p := p) htq htq0
      (fun c hc => hwalk c (List.mem_append_left _ hc)) Program.noRows
    obtain ⟨n', rs', o', hrun', -, hext'⟩ := passes_run (p := p) htq htq0
      (fun c hc => hwalk c (List.mem_append_right pre hc)) o
    obtain ⟨ho, -⟩ := hext.eq_of_first
    refine ⟨max n n', o'.total, rs, rs', hsam, fun fuel hfuel => ⟨?_, ?_⟩⟩
    · have hrows : o' = ⟨o'.total, rs ++ rs'⟩ := by
        rw [← hext'.rows.trans (congrArg (· ++ rs') (hext.rows.trans (List.nil_append rs)))]
      rw [← hrows]
      refine forM_eq_ok.mpr ?_
      rw [hsplit]
      exact (hrun _ fuel (skips_bindings pre) (lt_of_le_of_lt (le_max_left _ _) hfuel)).append
        (hrun' _ fuel (skips_bindings _) (lt_of_le_of_lt (le_max_right _ _) hfuel))
    · rw [← ho]
      have hb : b ∈ p.blocks := by rw [hsplit]; simp
      exact forM_eq_error.mpr ⟨pre, b, post, o, hsplit,
        hrun _ fuel (skips_main hpre) (lt_of_le_of_lt (le_max_left _ _) hfuel),
        pass_throws hp htq htq0 hb hk (lt_of_le_of_lt (Nat.zero_le _) hfuel) o⟩

/-- `main` gives the rows of the line, and then throws. -/
theorem main_walk_sample : ∃ (p : Program XReal) (b c : Block XReal) (n : ℕ) (o : XReal)
    (rs rs' : List (Row XReal)), p.blocks = [b, c] ∧ b.type = .line ∧
      Sampled Machine.default p (1 / 1000) [b] rs ∧ ∀ fuel, n < fuel →
        (Program.programWalk Machine.default fuel p).run Program.noRows = .ok () ⟨o, rs ++ rs'⟩ ∧
        (Program.mainWalk Machine.default fuel p).run Program.noRows =
          .error (.failure (.exception (.cannotInterpolate c.line)))
            ⟨.fin ((rs.length : ℕ) * (1 / 1000)), rs⟩ := by
  obtain ⟨p, b, c, hp, hblocks, hline, hk, hd⟩ := exists_marked
  obtain ⟨hA, htq⟩ := default_limits
  obtain ⟨-, hthrow⟩ := main_walk hp hA (by norm_num) htq (by norm_num) hd
  obtain ⟨n, o, rs, rs', hsam, hrun⟩ := hthrow [b] c [] hblocks (by
    rw [List.forall_mem_singleton, hline]
    decide) hk
  exact ⟨p, b, c, n, o, rs, rs', hblocks, hline, hsam, hrun⟩

end Programs

end

end Cncpp
