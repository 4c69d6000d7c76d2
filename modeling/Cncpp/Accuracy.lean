import Cncpp.ArcPaths
import Cncpp.Export
import Cncpp.Lib.Motion

/-! How closely the table of a program follows its paths.  From one row of a block to the next the
speed changes by what the acceleration allows, the tool goes on by what the feedrate allows (on an
arc this is its way in the plane, the rise of a helix comes on top), and on an arc the straight way
between them stays close to the circle, whatever its radius and its feedrate are. -/

namespace Cncpp

open DataArith Lib XReal Fsm

noncomputable section

/-! ## Two rows -/

/-- The straight way between two points never leaves the circle, and is at most `e` inside it. -/
def ChordNear (xc yc r e x y x' y' : ℝ) : Prop :=
  ∀ w, 0 ≤ w → w ≤ 1 → r - e ≤ chord xc yc (x + w * (x' - x)) (y + w * (y' - y)) ∧
    chord xc yc (x + w * (x' - x)) (y + w * (y' - y)) ≤ r

/-- Two rows of a block, the second one a tick behind the first. -/
structure Neighbours (b : Block XReal) (A tq : ℝ) (r r' : Row XReal) : Prop where
  speed : ∃ v v', r.speed = .fin v ∧ r'.speed = .fin v' ∧ |v' - v| ≤ A * tq * 60
  way : ∃ u u' l F, r.lambda = .fin u ∧ r'.lambda = .fin u' ∧ b.length = .fin l ∧
    b.feedrate = .fin F ∧ 0 ≤ l * (u' - u) ∧ l * (u' - u) ≤ F / 60 * tq
  line : b.type = .line → ∃ F x y z x' y' z', b.feedrate = .fin F ∧
    r.position = .ofCoords (.fin x) (.fin y) (.fin z) ∧
    r'.position = .ofCoords (.fin x') (.fin y') (.fin z') ∧
    √((x' - x) ^ 2 + (y' - y) ^ 2 + (z' - z) ^ 2) ≤ F / 60 * tq
  arc : b.type.IsArc → ∃ F xc yc ρ x y x' y', b.feedrate = .fin F ∧ b.center.x = some (.fin xc) ∧
    b.center.y = some (.fin yc) ∧ b.r = .fin ρ ∧ r.x = .fin x ∧ r.y = .fin y ∧ r'.x = .fin x' ∧
    r'.y = .fin y' ∧ chord x y x' y' ≤ F / 60 * tq ∧ ChordNear xc yc ρ (A * tq ^ 2 / 8) x y x' y'

section Chords

variable {T : Trapezoid} {A tq s t : ℝ}

/-- An arc that is as long as its law is walked in the plane at most at the speed of the law. -/
theorem chord_law_le {a : Arc} (hl : T.length = a.length) (hst : s ≤ t) :
    chord (a.xc + a.r * Real.cos (a.θ0 + a.dθ * progress T s))
      (a.yc + a.r * Real.sin (a.θ0 + a.dθ * progress T s))
      (a.xc + a.r * Real.cos (a.θ0 + a.dθ * progress T t))
      (a.yc + a.r * Real.sin (a.θ0 + a.dθ * progress T t)) ≤ T.v * (t - s) := by
  obtain ⟨hpos, hway⟩ := progress_sub_mem T hst
  have hturn : (a.r * (a.θ0 + a.dθ * progress T t - (a.θ0 + a.dθ * progress T s))) ^ 2 =
      (T.length * (progress T t - progress T s)) ^ 2 := by
    rw [hl, Arc.length, mul_pow, mul_pow, mul_pow, sq_abs]
    ring
  rw [chord, add_sub_add_left_eq_sub, add_sub_add_left_eq_sub]
  refine le_trans (Real.sqrt_le_sqrt ((chord_sq_le _ _ _).trans_eq hturn)) ?_
  rwa [Real.sqrt_sq (mul_nonneg T.length_pos.le hpos)]

/-- On a law that keeps to the centripetal acceleration, the chord of a tick stays near its arc. -/
theorem chordNear_of_law {a : Arc} (hl : T.length = a.length) (hv : T.v ^ 2 ≤ A * a.r)
    (hst : s ≤ t) (htq : t - s ≤ tq) : ChordNear a.xc a.yc a.r (A * tq ^ 2 / 8)
      (a.xc + a.r * Real.cos (a.θ0 + a.dθ * progress T s))
      (a.yc + a.r * Real.sin (a.θ0 + a.dθ * progress T s))
      (a.xc + a.r * Real.cos (a.θ0 + a.dθ * progress T t))
      (a.yc + a.r * Real.sin (a.θ0 + a.dθ * progress T t)) := by
  intro w h0 h1
  have hr := a.r_pos
  obtain ⟨hpos, hway⟩ := progress_sub_mem T hst
  obtain ⟨hlow, hup⟩ := chord_near (a := a.θ0 + a.dθ * progress T s)
    (b := a.θ0 + a.dθ * progress T t) hr.le h0 h1
  have hx : ∀ c c' : ℝ, a.xc + a.r * c + w * (a.xc + a.r * c' - (a.xc + a.r * c)) - a.xc =
      a.r * c + w * (a.r * c' - a.r * c) := fun c c' => by ring
  have hy : ∀ c c' : ℝ, a.yc + a.r * c + w * (a.yc + a.r * c' - (a.yc + a.r * c)) - a.yc =
      a.r * c + w * (a.r * c' - a.r * c) := fun c c' => by ring
  rw [chord, hx, hy]
  refine ⟨le_trans ?_ hlow, hup⟩
  -- the angle of the chord, by the way along the arc
  have hang : (a.r * (a.dθ * (progress T t - progress T s))) ^ 2 ≤ (T.v * (t - s)) ^ 2 := by
    have hturn : (a.r * (a.dθ * (progress T t - progress T s))) ^ 2 =
        (T.length * (progress T t - progress T s)) ^ 2 := by
      rw [hl, Arc.length, mul_pow, mul_pow, mul_pow, mul_pow, sq_abs]
      ring
    rw [hturn]
    exact pow_le_pow_left₀ (mul_nonneg T.length_pos.le hpos) hway 2
  have htick : (T.v * (t - s)) ^ 2 ≤ A * a.r * tq ^ 2 := by
    rw [mul_pow]
    exact mul_le_mul hv (pow_le_pow_left₀ (sub_nonneg.mpr hst) htq 2) (sq_nonneg _)
      ((sq_nonneg _).trans hv)
  have hsag : a.r * (a.dθ * (progress T t - progress T s)) ^ 2 ≤ A * tq ^ 2 := by
    refine le_of_mul_le_mul_left ?_ hr
    calc a.r * (a.r * (a.dθ * (progress T t - progress T s)) ^ 2)
        = (a.r * (a.dθ * (progress T t - progress T s))) ^ 2 := by ring
      _ ≤ A * a.r * tq ^ 2 := hang.trans htick
      _ = a.r * (A * tq ^ 2) := by ring
  have hdiff : a.θ0 + a.dθ * progress T t - (a.θ0 + a.dθ * progress T s) =
      a.dθ * (progress T t - progress T s) := by ring
  rw [hdiff]
  linarith

end Chords

/-! ## The rows of a block -/

section Blocks

variable {m : Machine XReal} {text : List Line} {line : Line} {b : Block XReal}
  {prev : Option (Block XReal)} {A tq l F : ℝ} {T : Trapezoid} {r r' : Row XReal} {j : ℕ}

/-- The profile is a law for the length of the block that keeps to its feedrate, to the
acceleration, and on an arc to the centripetal acceleration. -/
structure Keeps (m : Machine XReal) (text : List Line) (b : Block XReal) (A F : ℝ)
    (T : Trapezoid) : Prop where
  profile : ∃ dt, b.profile = ofLaw T dt
  length : b.length = .fin T.length
  feed : T.v ≤ F / 60
  up : T.v / T.t1 ≤ A
  down : T.v / T.t2 ≤ A
  line : b.type = .line → ∃ x0 y0 z0 dx dy dz,
    modalTarget m text = .ofCoords (.fin x0) (.fin y0) (.fin z0) ∧
    b.delta = .ofCoords (.fin dx) (.fin dy) (.fin dz) ∧ T.length = √(dx ^ 2 + dy ^ 2 + dz ^ 2)
  arc : b.type.IsArc → ∃ a, HasArc b a ∧ T.v ^ 2 ≤ A * a.r

theorem exists_keeps (h : MadeFrom m text line b) (ht : b.type.Interpolated) (hA : m.A = .fin A)
    (hA0 : 0 < A) (htq : m.tq = .fin tq) (htq0 : 0 < tq) (hl : b.length = .fin l) (hl0 : 0 < l)
    (hF : b.feedrate = .fin F) (hF0 : 0 < F) : ∃ T, Keeps m text b A F T := by
  cases h with
  | @mk prev b₀ c next hcon hcar hparse =>
    have harc : ∃ ρ, c.type ≠ .line → c.r = .fin ρ ∧ 0 < ρ ∧ ∃ a, HasArc c a ∧ a.r = ρ := by
      by_cases hline : c.type = .line
      · exact ⟨0, fun hne => absurd hline hne⟩
      · obtain ⟨a, ha⟩ := exists_arcOf hcon hparse (ht.resolve_left hline) hl hl0
        have hhas := hasArc_of_parse hcon hparse ha
        exact ⟨a.r, fun _ => ⟨hhas.r, a.r_pos, a, hhas, rfl⟩⟩
    obtain ⟨ρ, harc⟩ := harc
    obtain ⟨hf, -, -, hprof⟩ := law_of_parse hparse ht hA hA0 htq htq0 hl hl0 hF hF0
      fun hne => ⟨(harc hne).1, (harc hne).2.1⟩
    set G : Leg := ⟨l, A, tq, hl0, hA0, htq0⟩
    obtain ⟨hup, hdown⟩ := G.law_acc_le hf
    have hv := G.law_v_le hf
    refine ⟨G.law _ hf, ⟨_, hprof⟩, hl.trans (congrArg XReal.fin (G.law_length hf).symm), ?_,
      hup, hdown, fun hline => ?_, fun ha => ?_⟩
    · linarith [effectiveFeed_le c.type A F ρ]
    · obtain ⟨x0, y0, z0, x, y, z, h0, -, hd, -, hlen⟩ := Block.points_of_parse hparse
      -- the length is finite, so both ends are
      have hlen := (hlen fun ha => by
        rcases ha with ha | ha <;> cases ha.symm.trans hline).symm.trans hl
      obtain ⟨dx, dy, dz, hdx, hdy, hdz, hnorm⟩ := hypot3_eq_fin hlen
      obtain ⟨_, x0, rfl, rfl, rfl⟩ := sub_eq_fin hdx
      obtain ⟨_, y0, rfl, rfl, rfl⟩ := sub_eq_fin hdy
      obtain ⟨_, z0, rfl, rfl, rfl⟩ := sub_eq_fin hdz
      rw [sub_def, sub_def, sub_def] at hd
      exact ⟨x0, y0, z0, _, _, _, (Block.origin_of_carried hcar).symm.trans h0, hd,
        (G.law_length hf).trans hnorm⟩
    · have hne : c.type ≠ .line := by
        rintro hline
        rcases ha with ha | ha <;> cases hline.symm.trans ha
      obtain ⟨-, hρ, a, ⟨hx, hy, hr, h0, hd, hlen⟩, rfl⟩ := harc hne
      refine ⟨a, ⟨hx, hy, hr, h0, hd, hlen⟩, ?_⟩
      have hlimit : effectiveFeed c.type A F a.r / 60 ≤ √(A * a.r) := by
        rw [effectiveFeed, if_neg hne, div_le_iff₀ (by norm_num)]
        exact min_le_right _ _
      rw [← Real.sq_sqrt (mul_nonneg hA0.le hρ.le)]
      exact pow_le_pow_left₀ (G.law _ hf).v_pos.le (hv.trans hlimit) 2

theorem Keeps.neighbours (h : Keeps m text b A F T) (hb : b.Plotted) (hF : b.feedrate = .fin F)
    (ho : Block.origin m prev = modalTarget m text) {x0 y0 z0 : XReal}
    (h0 : Block.origin m prev = .ofCoords x0 y0 z0) (htq0 : 0 < tq)
    (hr : RowAt m prev b tq j r) (hr' : RowAt m prev b tq (j + 1) r') : Neighbours b A tq r r' := by
  obtain ⟨dt, hprof⟩ := h.profile
  have hle : (j : ℝ) * tq ≤ (j + 1 : ℕ) * tq := by
    push_cast
    nlinarith
  have hsub : ((j + 1 : ℕ) : ℝ) * tq - j * tq = tq := by
    push_cast
    ring
  have hlam : ∀ {i : ℕ} {q : Row XReal}, RowAt m prev b tq i q →
      q.lambda = .fin (progress T (i * tq)) := fun hq => by
    rw [hq.lambda, hprof, lambda_ofLaw]
  have hspeed : ∀ {i : ℕ} {q : Row XReal}, RowAt m prev b tq i q →
      q.speed = .fin (T.speed (i * tq) * 60) := fun hq => by
    rw [hq.speed, hprof, speed_ofLaw]
  refine ⟨⟨_, _, hspeed hr, hspeed hr', ?_⟩, ⟨_, _, _, _, hlam hr, hlam hr', h.length, hF, ?_⟩,
    fun hline => ?_, fun ha => ?_⟩
  · have hrate := T.abs_speed_sub_le h.up h.down (j * tq) ((j + 1 : ℕ) * tq)
    rw [hsub, abs_of_pos htq0] at hrate
    rw [← sub_mul, abs_mul, abs_of_pos (by norm_num : (0 : ℝ) < 60)]
    exact mul_le_mul_of_nonneg_right hrate (by norm_num)
  · obtain ⟨hpos, hway⟩ := progress_sub_mem T hle
    rw [hsub] at hway
    exact ⟨mul_nonneg T.length_pos.le hpos,
      hway.trans (mul_le_mul_of_nonneg_right h.feed htq0.le)⟩
  · obtain ⟨u0, v0, w0, dx, dy, dz, htgt, hd, hlen⟩ := h.line hline
    have hpoint : ∀ {i : ℕ} {q : Row XReal}, RowAt m prev b tq i q → q.position =
        .ofCoords (.fin (u0 + dx * progress T (i * tq))) (.fin (v0 + dy * progress T (i * tq)))
          (.fin (w0 + dz * progress T (i * tq))) := fun hq => by
      have hP := hq.position
      rw [hlam hq, interpolate_line hb.parsed hb.hasMachine hline (ho.trans htgt) hd] at hP
      injection hP with hP
      exact hP.symm
    have hfeed : T.v * (((j + 1 : ℕ) : ℝ) * tq - j * tq) ≤ F / 60 * tq := by
      rw [hsub]
      exact mul_le_mul_of_nonneg_right h.feed htq0.le
    exact ⟨F, _, _, _, _, _, _, hF, hpoint hr, hpoint hr', (line_paced T hlen hle).trans hfeed⟩
  · obtain ⟨a, harc, hv⟩ := h.arc ha
    obtain ⟨dx, dy, dz, hd⟩ := hb.delta
    have hpoint : ∀ {i : ℕ} {q : Row XReal}, RowAt m prev b tq i q →
        q.x = .fin (a.xc + a.r * Real.cos (a.θ0 + a.dθ * progress T (i * tq))) ∧
        q.y = .fin (a.yc + a.r * Real.sin (a.θ0 + a.dθ * progress T (i * tq))) := fun hq => by
      have hP := hq.position
      rw [hlam hq, interpolate_of_center hb.parsed hb.hasMachine ha h0 hd harc.xc harc.yc, harc.r,
        harc.theta0, harc.dtheta] at hP
      injection hP with hP
      injection hP with hx hy hz
      injection hx with hx
      injection hy with hy
      exact ⟨hx.symm, hy.symm⟩
    have hal : T.length = a.length := by
      have hlen := h.length.symm.trans harc.length
      injection hlen
    have hway := chord_law_le hal hle
    rw [hsub] at hway
    exact ⟨F, _, _, _, _, _, _, _, hF, harc.xc, harc.yc, harc.r, (hpoint hr).1, (hpoint hr).2,
      (hpoint hr').1, (hpoint hr').2, hway.trans (mul_le_mul_of_nonneg_right h.feed htq0.le),
      chordNear_of_law hal hv hle hsub.le⟩

/-- What holds of each two rows in a tick's distance holds along all rows of the block. -/
theorem chain_of_rows {N : Row XReal → Row XReal → Prop}
    (hN : ∀ j r r', RowAt m prev b tq j r → RowAt m prev b tq (j + 1) r' → N r r') {n : ℕ}
    {rs : List (Row XReal)} (h : List.Forall₂ (RowAt m prev b tq) (List.range' j n) rs) :
    rs.IsChain N := by
  induction n generalizing j rs with
  | zero =>
    cases h
    exact .nil
  | succ n ih =>
    rw [List.range'_succ] at h
    cases h with
    | @cons _ r _ rs hr hrs =>
      cases n with
      | zero =>
        cases hrs
        exact .singleton r
      | succ n =>
        have hrest := ih hrs
        rw [List.range'_succ] at hrs
        cases hrs with
        | cons hr' _ => exact .cons_cons (hN j _ _ hr hr') hrest

end Blocks

/-! ## The rows of a program -/

section Programs

variable {m : Machine XReal} {p : Program XReal} {edits : List Edit} {A tq : ℝ}

/-- The table in parts, one for each block. -/
def Parts (A tq : ℝ) (bs : List (Block XReal)) (parts : List (List (Row XReal))) : Prop :=
  List.Forall₂ (fun b part => (part ≠ [] ↔ b.type.Interpolated) ∧
    part.IsChain (Neighbours b A tq)) bs parts

theorem Sampled.parts {bs : List (Block XReal)} {rs : List (Row XReal)} (h : Sampled m p tq bs rs)
    (hN : ∀ b ∈ bs, b.type.Interpolated → ∀ prev, PrevIn p b prev → ∀ j r r',
      RowAt m prev b tq j r → RowAt m prev b tq (j + 1) r' → Neighbours b A tq r r') :
    ∃ parts, parts.flatten = rs ∧ Parts A tq bs parts := by
  induction h with
  | nil => exact ⟨[], rfl, .nil⟩
  | skip ht _ ih =>
    obtain ⟨parts, hflat, hparts⟩ := ih fun c hc => hN c (List.mem_cons_of_mem _ hc)
    exact ⟨[] :: parts, hflat, .cons ⟨iff_of_false (· rfl) ht, .nil⟩ hparts⟩
  | block ht hprev _ hrs _ ih =>
    obtain ⟨parts, hflat, hparts⟩ := ih fun c hc => hN c (List.mem_cons_of_mem _ hc)
    refine ⟨_ :: parts, by rw [List.flatten_cons, hflat], .cons ⟨iff_of_true ?_ ht,
      chain_of_rows (hN _ (List.mem_cons_self ..) ht _ hprev) hrs⟩ hparts⟩
    rintro rfl
    cases hrs

theorem exists_origin (hp : Run (Edited m) Program.empty edits p) (htq : m.tq = .fin tq)
    {b : Block XReal} {prev : Option (Block XReal)} (hb : b ∈ p.blocks) (hprev : PrevIn p b prev) :
    ∃ x0 y0 z0, Block.origin m prev = .ofCoords x0 y0 z0 := by
  obtain ⟨prev', hprev', hmem⟩ := exists_prevIn (wired_of_edits hp) hb
  obtain rfl := hprev.unique hprev'
  cases prev with
  | none => exact (Point.isComplete_iff _).mp m.zero_complete
  | some r =>
    exact (parsed_of_edits hp htq (List.mem_of_mem_dropLast (hmem r rfl))).2.1.plotted.target

/-- The table of an accepted program.  Its rows are those of the interpolated blocks, in order.
Within a block the speed changes from row to row by no more than the acceleration allows in a tick,
the tool goes on by no more than the feedrate allows, in space along a line and in the plane along
an arc, and the straight way from one row of an arc to the next is nowhere further from the circle
than an eighth of `A` times the tick squared. -/
theorem table_accuracy (hp : Run (Edited m) Program.empty edits p) (hA : m.A = .fin A) (hA0 : 0 < A)
    (htq : m.tq = .fin tq) (htq0 : 0 < tq)
    (hd : ∀ b ∈ p.blocks, b.type.Interpolated → b.Drivable) :
    ∃ n t parts, (∀ fuel, n < fuel → (Program.programWalk m fuel p).run Program.noRows =
        .ok () ⟨t, parts.flatten⟩) ∧ Parts A tq p.blocks parts := by
  obtain ⟨n, rs, htab⟩ := exists_table htq htq0 (walkable_of_edits hp hA hA0 htq htq0 hd)
  have hN : ∀ b ∈ p.blocks, b.type.Interpolated → ∀ prev, PrevIn p b prev → ∀ j r r',
      RowAt m prev b tq j r → RowAt m prev b tq (j + 1) r' → Neighbours b A tq r r' := by
    intro b hb ht prev hprev j r r' hr hr'
    obtain ⟨i, hi⟩ := List.getElem?_of_mem hb
    obtain ⟨line, -, hmade⟩ := exists_line hp hi
    obtain ⟨l, F, hl, hl0, hF, hF0⟩ := (hd b hb ht).motion ht
    obtain ⟨T, hT⟩ := exists_keeps hmade ht hA hA0 htq htq0 hl hl0 hF hF0
    obtain ⟨x0, y0, z0, h0⟩ := exists_origin hp htq hb hprev
    exact hT.neighbours (parsed_of_edits hp htq hb).2.1.plotted hF
      (origin_of_prevIn hp rfl hi hprev rfl) h0 htq0 hr hr'
  obtain ⟨parts, rfl, hparts⟩ := htab.sampled.parts hN
  exact ⟨n, _, parts, htab.run, hparts⟩

/-- Half a turn, given by its radius. -/
theorem exists_half_turn : ∃ (p : Program XReal) (b : Block XReal),
    Run (Edited Machine.default) Program.empty [.push flatLine] p ∧ p.blocks = [b] ∧
      b.type = .cwa ∧ b.Drivable := by
  obtain ⟨c, h, hty, hF, -, hl, -⟩ := halfTurn_flat.parsed
  have hb : Block.Constructed flatLine none (Block.ofLine (K := XReal) 0 flatLine) := .first 0
  have happ : Program.Accepted Machine.default flatLine Program.empty
      { Program.empty with blocks := [c], fresh := 1 } :=
    Program.append_iff.mpr ⟨_, c, ⟨hb, rfl, h⟩, rfl⟩
  refine ⟨_, c, .single (edited_push.mpr happ), rfl, hty, ?_,
    fun _ => ⟨_, _, hl, mul_pos (by norm_num) Real.pi_pos, hF, by norm_num⟩⟩
  exact (Block.profile_of_parse h (.inr (.inl hty))).1

theorem table_accuracy_sample : ∃ (p : Program XReal) (b : Block XReal) (n : ℕ) (t : XReal)
    (part : List (Row XReal)), p.blocks = [b] ∧ b.type = .cwa ∧ part ≠ [] ∧
      (∀ fuel, n < fuel → (Program.programWalk Machine.default fuel p).run Program.noRows =
        .ok () ⟨t, part⟩) ∧ part.IsChain (Neighbours b 5 (1 / 1000)) := by
  obtain ⟨p, b, hp, hblocks, hty, hd⟩ := exists_half_turn
  obtain ⟨n, t, parts, hrun, hparts⟩ := table_accuracy hp default_limits.1 (by norm_num)
    default_limits.2 (by norm_num) fun c hc _ => by
      rw [hblocks, List.mem_singleton] at hc
      rw [hc]
      exact hd
  rw [hblocks] at hparts
  cases hparts with
  | @cons _ part _ _ hpart hrest =>
    cases hrest
    rw [List.flatten_singleton] at hrun
    exact ⟨p, b, n, t, part, hblocks, hty, hpart.1.mpr (.inr (.inl hty)), hrun, hpart.2⟩

end Programs

end

end Cncpp
