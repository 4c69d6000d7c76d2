import Cncpp.Appending
import Cncpp.Arcs

/-! Parsing a block again.  The second pass reads the words of the line over the results
of the first one; the radius is an input and a result in one field, so an arc that was
given by I and J is taken for one that is given by its radius. -/

namespace Cncpp

open DataArith Lib Lib.ExceptState

namespace Block

section Reread

variable {K : Type} [DataArith K] {m m' : Machine K} {prev : Option (Block K)} {b c d : Block K}

/-- The machines have the same parameters, as far as blocks read them. -/
structure SameSetup (m m' : Machine K) : Prop where
  zero : m'.zero = m.zero
  A : m'.A = m.A
  tq : m'.tq = m.tq

/-- The geometry and the kinematics of two blocks. -/
structure SameGeometry (c d : Block K) : Prop where
  type : d.type = c.type
  n : d.n = c.n
  target : d.target = c.target
  center : d.center = c.center
  delta : d.delta = c.delta
  length : d.length = c.length
  r : d.r = c.r
  theta0 : d.theta0 = c.theta0
  dtheta : d.dtheta = c.dtheta
  feedrate : d.feedrate = c.feedrate
  arcFeedrate : d.arcFeedrate = c.arcFeedrate
  profile : d.profile = c.profile

/-- The block of a line once it was parsed `k` times. -/
inductive Reparsed (m : Machine K) (prev : Option (Block K)) (line : Line) : ℕ → Block K → Prop
  | first {m' : Machine K} {b c : Block K} : SameSetup m m' → Constructed line prev b →
      (parse m' prev).run b = .ok () c → Reparsed m prev line 1 c
  | again {k : ℕ} {m' : Machine K} {c d : Block K} : SameSetup m m' → Reparsed m prev line k c →
      (parse m' prev).run c = .ok () d → Reparsed m prev line (k + 1) d

omit [DataArith K] in
theorem SameSetup.origin (h : SameSetup m m') (prev : Option (Block K)) :
    origin m' prev = Block.origin m prev := by
  cases prev with
  | none => exact h.zero
  | some p => rfl

theorem SameSetup.motionProfile (h : SameSetup m m') (l A f : K) :
    motionProfile m' l A f = Block.motionProfile m l A f := by
  simp only [Block.motionProfile, Machine.quantize, h.tq]

omit [DataArith K] in
theorem SameSetup.between {m1 m2 : Machine K} (h1 : SameSetup m m1) (h2 : SameSetup m m2) :
    SameSetup m2 m1 :=
  ⟨h1.zero.trans h2.zero.symm, h1.A.trans h2.A.symm, h1.tq.trans h2.tq.symm⟩

theorem SameSetup.compute (h : SameSetup m m') (b : Block K) : compute m' b = Block.compute m b := by
  simp only [Block.compute, h.motionProfile]

/-- The radius that the next pass starts from. -/
def radiusInput (c : Block K) : K := (lastOf (dataWord 'R') (commands c.line)).getD c.r

/-- The words of the line are already in the block, the radius apart. -/
theorem reread (h : Parsed m prev b c) :
    updateAll (commands c.line) c.attach = { c with r := radiusInput c } := by
  have hid : ∀ {α : Type} (o : Option α) (v : α), o.getD (o.getD v) = o.getD v := by
    intro α o v
    cases o <;> rfl
  obtain ⟨x0, y0, z0, _, _, _, _, _, _, _, -, rfl⟩ := h.frame
  simp [updateAll, attach, fill, radiusInput, hid, Point.ofCoords]

/-- The points of a parsed block. -/
theorem refill {x0 y0 z0 x y z : K} (hA : c.acc = m'.A) (ht : c.target = .ofCoords x y z)
    (hd : c.delta = .ofCoords (x - x0) (y - y0) (z - z0)) (r : K) :
    fill m' x0 y0 z0 { c with r := r } =
      { c with r := r, length := hypot3 (x - x0) (y - y0) (z - z0) } := by
  have hx : c.target.x = some x ∧ c.target.y = some y ∧ c.target.z = some z := by
    rw [ht]
    exact ⟨rfl, rfl, rfl⟩
  simp only [fill, hx.1, hx.2.1, hx.2.2, Option.getD_some, ← hA, ← ht, ← hd]

/-- What a block holds between its points, once it was parsed. -/
structure Laid (m : Machine K) (prev : Option (Block K)) (x0 y0 z0 x y z : K) (c : Block K) :
    Prop where
  origin : origin m prev = .ofCoords x0 y0 z0
  target : c.target = .ofCoords x y z
  delta : c.delta = .ofCoords (x - x0) (y - y0) (z - z0)
  acc : c.acc = m.A
  parsed : c.parsed = true
  hasMachine : c.hasMachine = true

theorem exists_laid (hs : SameSetup m m') (h : Parsed m' prev b c) :
    ∃ x0 y0 z0 x y z, Laid m prev x0 y0 z0 x y z c := by
  obtain ⟨x0, y0, z0, _, _, _, _, _, _, _, h0, rfl⟩ := h.frame
  exact ⟨x0, y0, z0, _, _, _, (hs.origin prev).symm.trans h0, rfl, rfl, hs.A, rfl, rfl⟩

/-- The block that the second pass plans. -/
def again (x0 y0 z0 x y z : K) (c : Block K) : Block K :=
  { c with r := radiusInput c, length := hypot3 (x - x0) (y - y0) (z - z0) }

/-- What a second pass does is decided by the plan. -/
theorem reparse_iff {x0 y0 z0 x y z : K} (h : Parsed m' prev b c)
    (hl : Laid m prev x0 y0 z0 x y z c) :
    Parsed m prev c d ↔ Planned m prev (again x0 y0 z0 x y z c) d := by
  have hline : c.line = b.line := by
    obtain ⟨_, _, _, _, _, _, _, _, _, _, -, rfl⟩ := h.frame
    rfl
  have hkeep : ∀ {e : Block K}, Planned m prev (again x0 y0 z0 x y z c) e →
      { e with parsed := true } = e := by
    intro e he
    obtain ⟨_, _, _, _, _, _, _, rfl⟩ := he.frame
    simp [again, hl.parsed]
  constructor
  · rintro ⟨-, -, x0', y0', z0', e, h0, he, rfl⟩
    cases hl.origin.symm.trans h0
    rw [reread h, refill hl.acc hl.target hl.delta] at he
    rw [hkeep he]
    exact he
  · intro he
    refine ⟨?_, ?_, x0, y0, z0, d, hl.origin, ?_, (hkeep he).symm⟩
    · rw [hline]
      exact h.words
    · rw [hline]
      exact h.number
    · rw [reread h, refill hl.acc hl.target hl.delta]
      exact he

/-- A second pass over a block that is no arc changes nothing. -/
theorem reparse_motion (hs : SameSetup m m') (h : Parsed m' prev b c) (ht : ¬ c.type.IsArc) :
    Parsed m prev c c := by
  obtain ⟨x0, y0, z0, x, y, z, hl⟩ := exists_laid hs h
  have hp := parse_iff.mpr h
  obtain ⟨x0', y0', z0', x', y', z', h0, htg, -, -, hlen⟩ := points_of_parse hp
  cases (hs.origin prev).symm.trans h0 |>.symm.trans hl.origin
  cases htg.symm.trans hl.target
  have hr : radiusInput c = c.r := by
    have hid : ∀ (o : Option K) (v : K), o.getD (o.getD v) = o.getD v := by
      intro o v
      cases o <;> rfl
    obtain ⟨-, -, _, _, _, e, -, he, rfl⟩ := h
    have her := he.r_eq
    obtain ⟨_, _, _, _, _, _, _, rfl⟩ := he.frame
    have her := her.trans (if_neg ht)
    dsimp only at her
    subst her
    exact hid _ _
  have hag : again x0 y0 z0 x y z c = c := by
    rw [again, hr, ← hlen ht]
  rw [reparse_iff h hl, hag]
  by_cases hline : c.type = .line
  · obtain ⟨-, -, hprof, hfeed⟩ := profile_of_parse hp (.inl hline)
    rw [if_pos hline] at hfeed
    have hp' : Block.motionProfile m c.length c.acc (c.feedrate / num 60) = c.profile := by
      rw [← hfeed, ← hs.motionProfile, ← hprof]
    have hsame : ∀ (f : K) (p : Profile K), f = c.arcFeedrate → p = c.profile →
        { c with arcFeedrate := f, profile := p } = c := by
      rintro _ _ rfl rfl
      rfl
    have hc : Block.compute m { c with arcFeedrate := c.feedrate } = c := hsame _ _ hfeed.symm hp'
    have hplan : Planned m prev c (Block.compute m { c with arcFeedrate := c.feedrate }) := .line hline
    rwa [hc] at hplan
  · exact .other hline (fun hc => ht (.inl hc)) (fun hc => ht (.inr hc))

/-! ## The centre that a radius stands for -/

section Sides

open XReal

/-- The ends of the chord differ, and the centre at `(i, j)` from the start is the one that
the radius stands for: it is on the perpendicular bisector of the chord, on the side of a
sweep of at most half a turn. -/
structure RadiusSide (type : BlockType) (x0 y0 x y i j : ℝ) : Prop where
  ends : 0 < chord x0 y0 x y
  bisector : 2 * ((x - x0) * i + (y - y0) * j) = (x - x0) ^ 2 + (y - y0) ^ 2
  side : 0 ≤ (if type = .ccwa then 1 else -1) * ((x - x0) * j - (y - y0) * i)

variable {type : BlockType} {x0 y0 x y i j h : ℝ}

theorem chord_sq (x0 y0 x y : ℝ) :
    chord x0 y0 x y ^ 2 = (x - x0) ^ 2 + (y - y0) ^ 2 := Real.sq_sqrt (by positivity)

theorem side_pos (hh : 0 < h) : side type h = if type = .ccwa then 1 else -1 := by
  rw [side, if_pos hh, one_mul]

/-- The chord of a circle is at most as long as its diameter. -/
theorem RadiusSide.chord_le (hs : RadiusSide type x0 y0 x y i j) (hh : 0 ≤ h)
    (hij : h ^ 2 = i ^ 2 + j ^ 2) : chord x0 y0 x y ≤ 2 * h := by
  have hb := hs.bisector
  have hc := chord_sq x0 y0 x y
  have hsq : chord x0 y0 x y ^ 2 * chord x0 y0 x y ^ 2 ≤ (2 * h) ^ 2 * chord x0 y0 x y ^ 2 := by
    rw [hc, mul_pow, hij, ← hb]
    nlinarith [sq_nonneg ((x - x0) * j - (y - y0) * i)]
  refine abs_le_of_sq_le_sq' ?_ (by positivity) |>.2
  exact le_of_mul_le_mul_right hsq (pow_pos hs.ends 2)

theorem center_eq_iff (hd : 0 < chord x0 y0 x y) (hh : 0 < h) (hle : chord x0 y0 x y ≤ 2 * h)
    (hij : h ^ 2 = i ^ 2 + j ^ 2) :
    (centerX type h x0 y0 x y = x0 + i ∧ centerY type h x0 y0 x y = y0 + j) ↔
      RadiusSide type x0 y0 x y i j := by
  have hc := chord_sq x0 y0 x y
  have hsd := side_sq type h
  have hroot : 0 ≤ h ^ 2 - chord x0 y0 x y ^ 2 / 4 := by nlinarith
  set q := √(h ^ 2 - chord x0 y0 x y ^ 2 / 4) / chord x0 y0 x y with hq
  have hq0 : 0 ≤ q := by positivity
  have hqd : q ^ 2 * ((x - x0) ^ 2 + (y - y0) ^ 2) =
      h ^ 2 - ((x - x0) ^ 2 + (y - y0) ^ 2) / 4 := by
    rw [← hc, hq, div_pow, Real.sq_sqrt hroot]
    field_simp
  have hx : centerX type h x0 y0 x y = (x0 + x) / 2 - side type h * (y - y0) * q := rfl
  have hy : centerY type h x0 y0 x y = (y0 + y) / 2 + side type h * (x - x0) * q := rfl
  have hpos : 0 < (x - x0) ^ 2 + (y - y0) ^ 2 := by rw [← hc]; positivity
  rw [hx, hy]
  constructor
  · rintro ⟨h1, h2⟩
    have hi : i = (x - x0) / 2 - side type h * (y - y0) * q := by linarith
    have hj : j = (y - y0) / 2 + side type h * (x - x0) * q := by linarith
    refine ⟨hd, by rw [hi, hj]; ring, ?_⟩
    have he : side type h * ((x - x0) * j - (y - y0) * i) =
        side type h ^ 2 * (q * ((x - x0) ^ 2 + (y - y0) ^ 2)) := by rw [hi, hj]; ring
    rw [← side_pos hh, he, hsd, one_mul]
    positivity
  · intro hs
    have hb := hs.bisector
    have hside := hs.side
    rw [← side_pos hh] at hside
    -- across the chord, the centre is at the distance that the root gives
    have hcross : side type h * ((x - x0) * j - (y - y0) * i) =
        q * ((x - x0) ^ 2 + (y - y0) ^ 2) := by
      refine (sq_eq_sq₀ hside (by positivity)).mp ?_
      have hl : ((x - x0) * j - (y - y0) * i) ^ 2 = ((x - x0) ^ 2 + (y - y0) ^ 2) *
          (i ^ 2 + j ^ 2) - ((x - x0) * i + (y - y0) * j) ^ 2 := by ring
      rw [mul_pow, hsd, one_mul, hl, ← hij]
      have hb2 : (x - x0) * i + (y - y0) * j = ((x - x0) ^ 2 + (y - y0) ^ 2) / 2 := by linarith
      rw [hb2, mul_pow, pow_two ((x - x0) ^ 2 + (y - y0) ^ 2), ← mul_assoc, hqd]
      ring
    have hcr : (x - x0) * j - (y - y0) * i =
        side type h * (q * ((x - x0) ^ 2 + (y - y0) ^ 2)) := by
      rw [← hcross, ← mul_assoc, ← pow_two, hsd, one_mul]
    constructor
    · refine mul_right_cancel₀ hpos.ne' ?_
      linear_combination (y - y0) * hcr - (x - x0) / 2 * hb
    · refine mul_right_cancel₀ hpos.ne' ?_
      linear_combination -(x - x0) * hcr - (y - y0) / 2 * hb

end Sides

/-! ## Arcs -/

/-- The signed radius and the centre from the inputs of an arc. -/
def found (type : BlockType) (R I J x0 y0 x y : K) : K × K × K :=
  if nonzero R = true then (R, radiusCenter type R x0 y0 x y (x - x0) (y - y0))
  else (hypot I J, x0 + I, y0 + J)

/-- The target is reached, where it is checked. -/
def Reached (m : Machine K) (R I J x0 y0 x y : K) : Prop :=
  nonzero R = true ∨ lt m.error (fabs (hypot I J - hypot (x - (x0 + I)) (y - (y0 + J)))) = false

/-- The block with the arc of a signed radius and a centre. -/
def withArc (m : Machine K) (x0 y0 x y : K) (f : K × K × K) (b : Block K) : Block K :=
  Block.compute m { setArc x0 y0 x y f.2.1 f.2.2 { b with r := f.1 } with
    arcFeedrate := DataArith.min b.feedrate (arcLimit m.A (fabs f.1)) }

theorem centerOf_iff {type : BlockType} {R I J x0 y0 x y r xc yc : K} :
    CenterOf m type R I J x0 y0 x y r xc yc ↔
      (r, xc, yc) = found type R I J x0 y0 x y ∧ Reached m R I J x0 y0 x y := by
  unfold CenterOf found Reached
  split
  · next hR =>
    constructor
    · rintro ⟨rfl, hc⟩
      exact ⟨Prod.ext rfl hc, .inl hR⟩
    · rintro ⟨he, -⟩
      exact ⟨congrArg Prod.fst he, congrArg Prod.snd he⟩
  · next hR =>
    constructor
    · rintro ⟨rfl, hc, hlt⟩
      cases hc
      exact ⟨rfl, .inr hlt⟩
    · rintro ⟨he, hlt⟩
      cases he
      exact ⟨rfl, rfl, hlt.resolve_left hR⟩

theorem Planned.unique (hc : Planned m prev b c) (hd : Planned m prev b d) : c = d := by
  have h := (calcProfile_iff.mpr hc).symm.trans (calcProfile_iff.mpr hd)
  cases h
  rfl

/-- The radius is a number. -/
def Valid (r : K) : Prop := isnan (fabs r) = false ∧ isinf (fabs r) = false

/-- The plan of an arc. -/
theorem planned_arc_iff {x0 y0 z0 x y z : K} (ha : b.type.IsArc) (hm : b.hasMachine = true)
    (h0 : origin m prev = .ofCoords x0 y0 z0) (ht : b.target = .ofCoords x y z)
    (hd : b.delta = .ofCoords (x - x0) (y - y0) (z - z0)) :
    Planned m prev b d ↔ Reached m b.r b.i b.j x0 y0 x y ∧
      Valid (found b.type b.r b.i b.j x0 y0 x y).1 ∧
      d = withArc m x0 y0 x y (found b.type b.r b.i b.j x0 y0 x y) b := by
  have hs : b.startPoint m prev = .ok (.ofCoords x0 y0 z0) := startPoint_eq_ok.mpr ⟨hm, h0⟩
  have hplan : ∀ {f : K × K × K}, f = found b.type b.r b.i b.j x0 y0 x y →
      Reached m b.r b.i b.j x0 y0 x y → Valid f.1 → Planned m prev b (withArc m x0 y0 x y f b) := by
    rintro ⟨r, xc, yc⟩ hf hr hv
    have hcen := centerOf_iff.mpr ⟨hf, hr⟩
    exact .arc ha (calcArc_iff.mpr ⟨x0, y0, z0, x, y, z, r, xc, yc, hs, ht, hcen.arcCenter hd,
      hv.1, hv.2, rfl⟩)
  constructor
  · intro hp
    obtain ⟨r, xc, yc, hcen, hst⟩ := hp.arc_eq ha h0 ht hd
    obtain ⟨hf, hr⟩ := centerOf_iff.mp hcen
    rw [← hf]
    exact ⟨hr, hst.valid, hp.unique (hplan hf hr hst.valid)⟩
  · rintro ⟨hr, hv, rfl⟩
    exact hplan rfl hr hv

/-- The radius that a pass finds in the block when it comes to the arc. -/
def passRadius (b : Block K) : K := (updateAll (commands b.line) b.attach).r

/-- An arc is what a pass makes of the inputs that are still in it. -/
theorem exists_drawn (hs : SameSetup m m') (h : Parsed m' prev b c) (ha : c.type.IsArc) :
    ∃ x0 y0 z0 x y z, Laid m prev x0 y0 z0 x y z c ∧
      Valid (found c.type (passRadius b) c.i c.j x0 y0 x y).1 ∧
      c = withArc m x0 y0 x y (found c.type (passRadius b) c.i c.j x0 y0 x y) c := by
  obtain ⟨-, -, x0, y0, z0, e, h0, hp, rfl⟩ := h
  have hf := hp.frame
  obtain ⟨_, _, _, _, _, _, _, he⟩ := hf
  obtain ⟨-, hv, rfl⟩ := (planned_arc_iff (by rw [he] at ha; exact ha) rfl h0 rfl rfl).mp hp
  refine ⟨x0, y0, z0, _, _, _, ⟨(hs.origin prev).symm.trans h0, rfl, rfl, hs.A, rfl, rfl⟩, hv, ?_⟩
  simp only [withArc, compute, hs.A, hs.motionProfile]
  rfl

/-- What a second pass makes of an arc. -/
theorem reparse_arc_iff {x0 y0 z0 x y z : K} (h : Parsed m' prev b c)
    (hl : Laid m prev x0 y0 z0 x y z c) (ha : c.type.IsArc) :
    Parsed m prev c d ↔ Reached m (radiusInput c) c.i c.j x0 y0 x y ∧
      Valid (found c.type (radiusInput c) c.i c.j x0 y0 x y).1 ∧
      d = withArc m x0 y0 x y (found c.type (radiusInput c) c.i c.j x0 y0 x y) c := by
  rw [reparse_iff h hl, planned_arc_iff (b := again x0 y0 z0 x y z c) ha hl.hasMachine hl.origin
    hl.target hl.delta]
  rfl

theorem sameGeometry_withArc {x0 y0 x y : K} {f g : K × K × K} (hc : c = withArc m x0 y0 x y f c)
    (h1 : g.1 = f.1) : SameGeometry c (withArc m x0 y0 x y g c) ↔ g.2 = f.2 := by
  constructor
  · intro h
    have hcen : (withArc m x0 y0 x y g c).center = (withArc m x0 y0 x y f c).center := by
      rw [← hc]
      exact h.center
    simp only [withArc, compute, setArc, Point.mk.injEq, Option.some.injEq] at hcen
    exact Prod.ext hcen.1 hcen.2.1
  · intro h2
    rw [show g = f from Prod.ext h1 h2, ← hc]
    exact ⟨rfl, rfl, rfl, rfl, rfl, rfl, rfl, rfl, rfl, rfl, rfl, rfl⟩

theorem Parsed.line_eq (h : Parsed m prev b c) : c.line = b.line := by
  obtain ⟨_, _, _, _, _, _, _, _, _, _, -, rfl⟩ := h.frame
  rfl

theorem Reparsed.line_eq {line : Line} {k : ℕ} (h : Reparsed m prev line k c) : c.line = line := by
  induction h with
  | first _ hb hp => exact (parse_iff.mp hp).line_eq.trans hb.line_eq
  | again _ _ hp ih => exact (parse_iff.mp hp).line_eq.trans ih

/-- Every pass is a `parse` over the block that the one before has left. -/
theorem Reparsed.last_pass {line : Line} {k : ℕ} (h : Reparsed m prev line k c) :
    ∃ m' b, SameSetup m m' ∧ Parsed m' prev b c := by
  cases h with
  | first hs _ hp => exact ⟨_, _, hs, parse_iff.mp hp⟩
  | again hs _ hp => exact ⟨_, _, hs, parse_iff.mp hp⟩

/-- The inputs of the arc stay in the block. -/
theorem Parsed.inputs (hs : SameSetup m m') (h : Parsed m' prev b c)
    (hd : Parsed m prev c d) : d.type = c.type ∧ d.i = c.i ∧ d.j = c.j := by
  obtain ⟨x0, y0, z0, x, y, z, hl⟩ := exists_laid hs h
  obtain ⟨_, _, _, _, _, _, _, rfl⟩ := ((reparse_iff h hl).mp hd).frame
  exact ⟨rfl, rfl, rfl⟩

theorem passRadius_again (h : Parsed m prev b c) : passRadius c = radiusInput c := by
  rw [passRadius, reread h]

end Reread

section Exact

open XReal

variable {m m' : Machine XReal} {prev : Option (Block XReal)} {line : Line} {k : ℕ}
  {b c d : Block XReal}

theorem exists_fin_of_valid {r : XReal} (h : Valid r) : ∃ v, r = .fin v := by
  cases r with
  | fin v => exact ⟨v, rfl⟩
  | posInf => cases h.2
  | negInf => cases h.2
  | nan => cases h.1

/-- The inputs give one radius, also where I and J have left it in the block. -/
theorem found_fst {type : BlockType} {R I J x0 y0 x y : XReal}
    (hR : R = .fin 0 ∨ R = DataArith.hypot I J) :
    (found type R I J x0 y0 x y).1 = DataArith.hypot I J := by
  unfold found
  split
  · next hnz =>
    rcases hR with rfl | rfl
    · simp at hnz
    · rfl
  · rfl

/-- A pass that reads no radius leaves the distance of I and J. -/
theorem r_of_pass (hs : SameSetup m m') (h : Parsed m' prev b c) (ha : c.type.IsArc)
    (hr : passRadius b = .fin 0 ∨ passRadius b = DataArith.hypot c.i c.j) :
    ∃ i j : ℝ, c.i = .fin i ∧ c.j = .fin j ∧ c.r = .fin √(i ^ 2 + j ^ 2) := by
  obtain ⟨x0, y0, z0, x, y, z, -, hv, hc⟩ := exists_drawn hs h ha
  have hcr : c.r = fabs (found c.type (passRadius b) c.i c.j x0 y0 x y).1 := congrArg Block.r hc
  rw [found_fst hr] at hv hcr
  obtain ⟨v, hh⟩ := exists_fin_of_valid hv
  obtain ⟨i, j, hi, hj, rfl⟩ := hypot_eq_fin hh
  refine ⟨i, j, hi, hj, ?_⟩
  rw [hcr, hh, fabs_def, abs_of_nonneg (Real.sqrt_nonneg _)]

theorem passRadius_of_constructed (hb : Constructed line prev b) :
    passRadius b = ownWord 'R' line := by
  obtain ⟨-, -, hi, hj, hr⟩ := hb.updateAll_own
  exact hr

/-- The radius of an arc whose line has got none. -/
theorem Reparsed.r_eq (h : Reparsed m prev line k c) (ha : c.type.IsArc)
    (hR : lastOf (dataWord (K := XReal) 'R') (commands line) = none) :
    ∃ i j : ℝ, c.i = .fin i ∧ c.j = .fin j ∧ c.r = .fin √(i ^ 2 + j ^ 2) := by
  induction h with
  | first hs hb hp =>
    refine r_of_pass hs (parse_iff.mp hp) ha (.inl ?_)
    rw [passRadius_of_constructed hb, ownWord, hR]
    simp
  | @again k m' c d hs h hp ih =>
    obtain ⟨m1, b, hs1, hc⟩ := h.last_pass
    obtain ⟨ht, hi, hj⟩ := Parsed.inputs (hs1.between hs) hc (parse_iff.mp hp)
    obtain ⟨i, j, hci, hcj, hcr⟩ := ih (ht ▸ ha)
    refine r_of_pass hs (parse_iff.mp hp) ha (.inr ?_)
    rw [passRadius_again hc, radiusInput, h.line_eq, hR, hi, hj, hci, hcj]
    exact hcr

/-- The centre at `(i, j)` from the start is the one that its distance stands for as a
radius.  Without a start there is no centre in either case. -/
inductive CenterFits (type : BlockType) : XReal → XReal → XReal → XReal → XReal → XReal → Prop
  | real {x0 y0 x y i j : ℝ} : RadiusSide type x0 y0 x y i j →
      CenterFits type (.fin x0) (.fin y0) (.fin x) (.fin y) (.fin i) (.fin j)
  | nan {x y i j : XReal} : CenterFits type .nan .nan x y i j

theorem radiusCenter_eq_iff {type : BlockType} {x0 y0 x y : XReal} {i j : ℝ}
    (hh : 0 < √(i ^ 2 + j ^ 2)) :
    radiusCenter type (.fin √(i ^ 2 + j ^ 2)) x0 y0 x y (x - x0) (y - y0) =
      (x0 + .fin i, y0 + .fin j) ↔ CenterFits type x0 y0 x y (.fin i) (.fin j) := by
  have hij : √(i ^ 2 + j ^ 2) ^ 2 = i ^ 2 + j ^ 2 := Real.sq_sqrt (by positivity)
  rcases radiusCenter_cases type hh.ne' x0 y0 x y with
    ⟨x0, y0, x, y, rfl, rfl, rfl, rfl, hd, hle, hc⟩ | ⟨hno, hnan⟩
  · rw [abs_of_pos hh] at hle
    rw [hc, add_def, add_def, Prod.mk.injEq, Lib.XReal.fin.injEq, Lib.XReal.fin.injEq,
      center_eq_iff hd hh hle hij]
    constructor
    · exact .real
    · intro hf
      cases hf
      assumption
  · rw [hnan]
    constructor
    · intro he
      cases x0 <;> cases y0 <;> cases he
      exact .nan
    · intro hf
      cases hf with
      | real hs =>
        refine absurd ⟨_, _, _, _, rfl, rfl, rfl, rfl, hs.ends, ?_⟩ hno
        rw [abs_of_pos hh]
        exact hs.chord_le hh.le hij
      | nan => rfl

/-- The radius field gives the centre back: a radius is in the line, or was taken for one
before, or I and J are zero, or their centre is the one that the radius stands for. -/
def Settled (line : Line) (k : ℕ) (c : Block XReal) (x0 y0 x y : XReal) : Prop :=
  (lastOf (dataWord (K := XReal) 'R') (commands line)).isSome ∨ 2 ≤ k ∨
    DataArith.hypot c.i c.j = .fin 0 ∨ CenterFits c.type x0 y0 x y c.i c.j

theorem found_of_zero {type : BlockType} {I J x0 y0 x y : XReal} :
    found type (.fin 0) I J x0 y0 x y = (DataArith.hypot I J, x0 + I, y0 + J) := by
  rw [found, if_neg (by simp)]

/-- What a pass finds, against what the pass before has found. -/
theorem Reparsed.found_again (h : Reparsed m prev line k c) (ha : c.type.IsArc) :
    ∃ m' b, SameSetup m m' ∧ Parsed m' prev b c ∧ ∀ x0 y0 x y,
      (found c.type (radiusInput c) c.i c.j x0 y0 x y).1 =
        (found c.type (passRadius b) c.i c.j x0 y0 x y).1 ∧
      ((found c.type (radiusInput c) c.i c.j x0 y0 x y).2 =
        (found c.type (passRadius b) c.i c.j x0 y0 x y).2 ↔ Settled line k c x0 y0 x y) := by
  have hr := h.r_eq ha
  have hline := h.line_eq
  cases h with
  | @first m' b c hs hb hp =>
    refine ⟨m', b, hs, parse_iff.mp hp, fun x0 y0 x y => ?_⟩
    rw [passRadius_of_constructed hb, ownWord, radiusInput, hline]
    cases hw : lastOf (dataWord (K := XReal) 'R') (commands line) with
    | some R => exact ⟨rfl, iff_of_true rfl (.inl (by rw [hw]; rfl))⟩
    | none =>
      obtain ⟨i, j, hi, hj, hcr⟩ := hr hw
      have hh : DataArith.hypot c.i c.j = .fin √(i ^ 2 + j ^ 2) := by rw [hi, hj, hypot_def]
      have hz : (num 0 : XReal) = .fin 0 := by simp
      rw [Option.getD_none, Option.getD_none, hz, found_of_zero, hh, hcr]
      rcases (Real.sqrt_nonneg (i ^ 2 + j ^ 2)).eq_or_lt with h0 | hpos
      · rw [← h0, found_of_zero, hh, ← h0]
        exact ⟨rfl, iff_of_true rfl (.inr (.inr (.inl (by rw [hh, ← h0]))))⟩
      · rw [found, if_pos ((nonzero_def _).mpr hpos.ne')]
        refine ⟨rfl, ?_⟩
        rw [Settled, hw, hh, hi, hj, radiusCenter_eq_iff hpos]
        simp [hpos.ne']
  | @again k m' b c hs h hp =>
    refine ⟨m', b, hs, parse_iff.mp hp, fun x0 y0 x y => ?_⟩
    obtain ⟨m1, a, hs1, hb⟩ := h.last_pass
    obtain ⟨ht, hi, hj⟩ := Parsed.inputs (hs1.between hs) hb (parse_iff.mp hp)
    have hk : 2 ≤ k + 1 := by
      cases h <;> omega
    have hsame : radiusInput c = passRadius b := by
      rw [passRadius_again hb, radiusInput, radiusInput, hline, h.line_eq]
      cases hw : lastOf (dataWord (K := XReal) 'R') (commands line) with
      | some R => rfl
      | none =>
        obtain ⟨i, j, hi', hj', hcr⟩ := hr hw
        obtain ⟨i', j', hbi, hbj, hbr⟩ := h.r_eq (ht ▸ ha) hw
        rw [hi, hbi] at hi'
        rw [hj, hbj] at hj'
        cases hi'
        cases hj'
        rw [Option.getD_none, Option.getD_none, hcr, hbr]
    rw [hsame]
    exact ⟨rfl, iff_of_true rfl (.inr (.inl hk))⟩

/-- A further pass over an arc. -/
theorem Reparsed.same_arc_iff (h : Reparsed m prev line k c) (ha : c.type.IsArc) :
    ∃ x0 y0 z0 x y z, Laid m prev x0 y0 z0 x y z c ∧
      ((∃ d, (parse m prev).run c = .ok () d ∧ SameGeometry c d) ↔
        Reached m (radiusInput c) c.i c.j x0 y0 x y ∧ Settled line k c x0 y0 x y) := by
  obtain ⟨m', b, hs, hc, hf⟩ := h.found_again ha
  obtain ⟨x0, y0, z0, x, y, z, hl, hv, hfix⟩ := exists_drawn hs hc ha
  obtain ⟨h1, h2⟩ := hf x0 y0 x y
  have hsame := (sameGeometry_withArc hfix h1).trans h2
  refine ⟨x0, y0, z0, x, y, z, hl, ?_⟩
  constructor
  · rintro ⟨d, hd, hg⟩
    obtain ⟨hr, -, rfl⟩ := (reparse_arc_iff hc hl ha).mp (parse_iff.mp hd)
    exact ⟨hr, hsame.mp hg⟩
  · rintro ⟨hr, hst⟩
    rw [← h1] at hv
    exact ⟨_, parse_iff.mpr ((reparse_arc_iff hc hl ha).mpr ⟨hr, hv, rfl⟩), hsame.mpr hst⟩

/-- The blocks that a further pass leaves as they are. -/
theorem parse_again_iff (h : Reparsed m prev line k c) :
    (∃ d, (parse m prev).run c = .ok () d ∧ SameGeometry c d) ↔
      ∀ x0 y0 z0 x y z, c.type.IsArc → origin m prev = .ofCoords x0 y0 z0 →
        c.target = .ofCoords x y z →
          Reached m (radiusInput c) c.i c.j x0 y0 x y ∧ Settled line k c x0 y0 x y := by
  by_cases ha : c.type.IsArc
  · obtain ⟨x0, y0, z0, x, y, z, hl, hiff⟩ := h.same_arc_iff ha
    rw [hiff]
    constructor
    · rintro hst x0' y0' z0' x' y' z' - h0 ht
      cases h0.symm.trans hl.origin
      cases ht.symm.trans hl.target
      exact hst
    · intro hall
      exact hall x0 y0 z0 x y z ha hl.origin hl.target
  · obtain ⟨m', b, hs, hc⟩ := h.last_pass
    refine iff_of_true ⟨c, parse_iff.mpr (reparse_motion hs hc ha), ?_⟩ fun _ _ _ _ _ _ hty =>
      absurd hty ha
    exact ⟨rfl, rfl, rfl, rfl, rfl, rfl, rfl, rfl, rfl, rfl, rfl, rfl⟩

/-! ## A quarter turn and its complement -/

/-- From `(0, 0)` to `(1, 1)` around `(1, 0)`. -/
def quarterLine : Line := "G2 X1 Y1 I1 J0 F100".toList
def complementLine : Line := "G3 X1 Y1 I1 J0 F100".toList

/-- The words of the two lines, the type apart. -/
structure TurnWords (line : Line) : Prop where
  words : ∀ t ∈ commands line, IsWord t
  x : lastOf (numeralWord 'X') (commands line) = some (.finite 1)
  y : lastOf (numeralWord 'Y') (commands line) = some (.finite 1)
  i : lastOf (numeralWord 'I') (commands line) = some (.finite 1)
  j : lastOf (numeralWord 'J') (commands line) = some (.finite 0)
  r : lastOf (numeralWord 'R') (commands line) = none

theorem turnWords_quarter : TurnWords quarterLine := by
  constructor <;> decide +kernel

theorem turnWords_complement : TurnWords complementLine := by
  constructor <;> decide +kernel

theorem TurnWords.own (hw : TurnWords line) : (ownWord 'R' line : XReal) = .fin 0 ∧
    (ownWord 'I' line : XReal) = .fin 1 ∧ (ownWord 'J' line : XReal) = .fin 0 := by
  simp [ownWord, lastOf_dataWord, hw.r, hw.i, hw.j, ofNumeral]

theorem exists_turn (hw : TurnWords line) : ∃ c : Block XReal,
    Reparsed .default none line 1 c ∧ c.type = typeCode line ∧ c.i = .fin 1 ∧ c.j = .fin 0 ∧
      ∃ z, c.target = .ofCoords (.fin 1) (.fin 1) z := by
  obtain ⟨hR, hI, hJ⟩ := hw.own
  have hacc : Acceptable (K := XReal) .default none line := by
    refine ⟨hw.words, fun o ho => (nomatch ho), _, _, _, rfl, fun _ => ?_⟩
    rw [ArcAccepted, hR, if_neg (by simp), hI, hJ]
    exact ⟨rfl, rfl, rfl⟩
  obtain ⟨c, hc⟩ := (acceptable_iff 0 0).mpr hacc
  have hfirst : Reparsed .default none line 1 c :=
    .first ⟨rfl, rfl, rfl⟩ (.first 0) (parse_iff.mpr hc)
  refine ⟨c, hfirst, ?_⟩
  obtain ⟨x0, y0, z0, _, _, _, _, _, _, _, h0, rfl⟩ := hc.frame
  cases h0
  have hx : lastOf (dataWord (K := XReal) 'X') (commands line) = some (.fin 1) := by
    simp [lastOf_dataWord, hw.x, ofNumeral]
  have hy : lastOf (dataWord (K := XReal) 'Y') (commands line) = some (.fin 1) := by
    simp [lastOf_dataWord, hw.y, ofNumeral]
  obtain ⟨hty, -, hi, hj, ht, -⟩ :=
    filled_inputs (K := XReal) .default (num 0) (num 0) (num 0) 0 line none
  rw [hx, hy] at ht
  exact ⟨hty, hi.trans hI, hj.trans hJ, _, ht⟩

/-- The quarter turn is on the side that its radius stands for. -/
theorem parse_again_quarter : ∃ c : Block XReal, Reparsed .default none quarterLine 1 c ∧
    ∃ d, (parse .default none).run c = .ok () d ∧ SameGeometry c d := by
  obtain ⟨c, hc, hty, hi, hj, z1, htgt⟩ := exists_turn turnWords_quarter
  refine ⟨c, hc, (parse_again_iff hc).mpr fun x0 y0 z0 x y z _ h0 ht => ⟨.inr rfl, ?_⟩⟩
  cases h0
  cases htgt.symm.trans ht
  have hcwa : c.type ≠ .ccwa := by
    rw [hty]
    decide +kernel
  have hside : RadiusSide c.type 0 0 1 1 1 0 :=
    ⟨by rw [chord]; positivity, by norm_num, by rw [if_neg hcwa]; norm_num⟩
  refine .inr (.inr (.inr ?_))
  have hz : (num 0 : XReal) = .fin 0 := by simp
  rw [hi, hj, hz]
  exact .real hside

/-- The second pass over the complement takes its radius for the one of the quarter. -/
theorem parse_again_moves : ∃ c : Block XReal, Reparsed .default none complementLine 1 c ∧
    ¬ ∃ d, (parse .default none).run c = .ok () d ∧ SameGeometry c d := by
  obtain ⟨c, hc, hty, hi, hj, z1, htgt⟩ := exists_turn turnWords_complement
  have hccwa : c.type = .ccwa := by
    rw [hty]
    decide +kernel
  refine ⟨c, hc, fun hsame => ?_⟩
  obtain ⟨x0, y0, z0, x, y, z, hl, hiff⟩ := hc.same_arc_iff (.inr hccwa)
  obtain ⟨-, hst⟩ := hiff.mp hsame
  cases hl.origin
  cases htgt.symm.trans hl.target
  have hz : (num 0 : XReal) = .fin 0 := by simp
  rw [Settled, lastOf_dataWord, turnWords_complement.r, hi, hj, hz] at hst
  rcases hst with h | h | h | h
  · cases h
  · omega
  · simp [hypot_def] at h
  · cases h with
    | real hs =>
      have hside := hs.side
      rw [if_pos hccwa] at hside
      norm_num at hside

end Exact

end Block

end Cncpp
