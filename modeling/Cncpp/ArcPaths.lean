import Cncpp.Sweeps

/-! The paths of arcs.  A radius that fits the chord is drawn as the arc it stands for, and an
arc and the opposite one back to its start run over the same points. -/

namespace Cncpp

open DataArith Lib XReal

noncomputable section

/-! ## The side of the centre -/

section Side

variable {type : BlockType} {R x0 y0 x y a b : ℝ}

/-- The ends of the chord, seen from the centre, span a parallelogram on the side that the sign
table gives. -/
theorem center_cross (type : BlockType) (hd : 0 < chord x0 y0 x y) :
    (x0 - centerX type R x0 y0 x y) * (y - centerY type R x0 y0 x y) -
      (y0 - centerY type R x0 y0 x y) * (x - centerX type R x0 y0 x y) =
    side type R * (√(R ^ 2 - chord x0 y0 x y ^ 2 / 4) * chord x0 y0 x y) := by
  have hch : chord x0 y0 x y ^ 2 = (x - x0) ^ 2 + (y - y0) ^ 2 := Real.sq_sqrt (by positivity)
  set q := √(R ^ 2 - chord x0 y0 x y ^ 2 / 4) / chord x0 y0 x y with hq
  have hx : centerX type R x0 y0 x y = (x0 + x) / 2 - side type R * (y - y0) * q := rfl
  have hy : centerY type R x0 y0 x y = (y0 + y) / 2 + side type R * (x - x0) * q := rfl
  have hroot : √(R ^ 2 - chord x0 y0 x y ^ 2 / 4) * chord x0 y0 x y = q * chord x0 y0 x y ^ 2 := by
    rw [hq]
    field_simp
  rw [hx, hy, hroot, hch]
  ring

/-- The sign of the radius decides to which side of the first end the second one lies. -/
theorem sin_between_ends (type : BlockType) (hR : R ≠ 0) (hd : 0 < chord x0 y0 x y)
    (hle : chord x0 y0 x y ≤ 2 * |R|) : ∃ k, 0 ≤ k ∧
      (if type = .ccwa then 1 else -1) * Real.sin
        (Complex.arg ⟨x - centerX type R x0 y0 x y, y - centerY type R x0 y0 x y⟩ -
          Complex.arg ⟨x0 - centerX type R x0 y0 x y, y0 - centerY type R x0 y0 x y⟩) =
        (if 0 < R then 1 else -1) * k := by
  have hcross := center_cross (R := R) type hd
  obtain ⟨h0, h1⟩ := center_dist type hd hle
  rw [cross_eq, h0, h1, Real.sqrt_sq_eq_abs, abs_mul_abs_self] at hcross
  set k := √(R ^ 2 - chord x0 y0 x y ^ 2 / 4) * chord x0 y0 x y
  set d := Complex.arg ⟨x - centerX type R x0 y0 x y, y - centerY type R x0 y0 x y⟩ -
    Complex.arg ⟨x0 - centerX type R x0 y0 x y, y0 - centerY type R x0 y0 x y⟩
  have hRR : 0 < R * R := mul_self_pos.mpr hR
  have hk : 0 ≤ k := by positivity
  refine ⟨k / (R * R), by positivity, ?_⟩
  have hsin : Real.sin d = side type R * (k / (R * R)) := by
    rw [← mul_div_assoc, eq_div_iff hRR.ne', mul_comm]
    exact hcross
  rw [hsin, side]
  split <;> split <;> ring

/-- A turn to the side of its direction is the shorter one, -/
theorem abs_sweepAngle_le (ha : type.IsArc) (h0 : 0 < turn a b) (h1 : turn a b < 2 * Real.pi)
    (hs : 0 ≤ (if type = .ccwa then 1 else -1) * Real.sin (b - a)) :
    |sweepAngle type a b| ≤ Real.pi := by
  rcases ha with rfl | rfl
  · rw [if_neg (by decide)] at hs
    have h := pi_le_turn h0 (by linarith)
    rw [sweepAngle, if_pos rfl, abs_neg, abs_of_pos (by linarith)]
    linarith
  · rw [if_pos rfl, one_mul] at hs
    rw [sweepAngle, if_neg (by decide), abs_of_pos h0]
    exact turn_le_pi h1 hs

/-- and a turn to the other side is the longer one. -/
theorem le_abs_sweepAngle (ha : type.IsArc) (h0 : 0 < turn a b) (h1 : turn a b < 2 * Real.pi)
    (hs : (if type = .ccwa then 1 else -1) * Real.sin (b - a) ≤ 0) :
    Real.pi ≤ |sweepAngle type a b| := by
  rcases ha with rfl | rfl
  · rw [if_neg (by decide)] at hs
    have h := turn_le_pi h1 (by linarith)
    rw [sweepAngle, if_pos rfl, abs_neg, abs_of_pos (by linarith)]
    linarith
  · rw [if_pos rfl, one_mul] at hs
    rw [sweepAngle, if_neg (by decide), abs_of_pos h0]
    exact pi_le_turn h0 hs

end Side

/-! ## Arcs of a radius -/

section Radius

variable {m : Machine XReal} {prev : Option (Block XReal)} {line : Line} {b c : Block XReal}
  {R x0 y0 z0 x y z : ℝ}

/-- The points of a parsed arc. -/
theorem interpolate_of_hasArc {a : Arc} (h : (Block.parse m prev).run b = .ok () c)
    (ha : c.type.IsArc) (h0 : Block.origin m prev = .ofCoords (.fin x0) (.fin y0) (.fin z0))
    (h1 : c.target = .ofCoords (.fin x) (.fin y) (.fin z)) (harc : HasArc c a) (u : ℝ) :
    c.interpolate m prev (.fin u) =
      .ok (.ofCoords (.fin (a.xc + a.r * Real.cos (a.θ0 + a.dθ * u)))
        (.fin (a.yc + a.r * Real.sin (a.θ0 + a.dθ * u))) (.fin (z0 + (z - z0) * u))) := by
  obtain ⟨x0', y0', z0', x', y', z', h0', h1', hd, hma, -⟩ := Block.points_of_parse h
  cases h0.symm.trans h0'
  cases h1.symm.trans h1'
  rw [sub_def, sub_def, sub_def] at hd
  exact interpolate_arc (Block.profile_of_parse h (.inr ha)).1 hma ha h0 hd harc u

/-- The block draws the arc of radius `|R|` around `(xc, yc)` that turns by `dθ`, from
`(x0, y0, z0)` to `(x, y, z)`. -/
structure DrawsRadius (m : Machine XReal) (prev : Option (Block XReal)) (c : Block XReal)
    (R x0 y0 z0 x y z xc yc dθ : ℝ) : Prop where
  center : c.center.x = some (.fin xc) ∧ c.center.y = some (.fin yc)
  dtheta : c.dtheta = .fin dθ
  start_dist : chord xc yc x0 y0 = |R|
  target_dist : chord xc yc x y = |R|
  ccwa : c.type = .ccwa → 0 < dθ ∧ dθ < 2 * Real.pi
  cwa : c.type = .cwa → -(2 * Real.pi) < dθ ∧ dθ < 0
  minor : 0 < R → |dθ| ≤ Real.pi
  major : R < 0 → Real.pi ≤ |dθ|
  length : c.length = .fin (|R| * |dθ|)
  first : c.interpolate m prev (.fin 0) = .ok (.ofCoords (.fin x0) (.fin y0) (.fin z0))
  last : c.interpolate m prev (.fin 1) = .ok (.ofCoords (.fin x) (.fin y) (.fin z))
  onCircle : ∀ u : ℝ, ∃ X Y Z : ℝ,
    c.interpolate m prev (.fin u) = .ok (.ofCoords (.fin X) (.fin Y) (.fin Z)) ∧ chord xc yc X Y = |R|

/-- The points of a circle are at the distance of its radius. -/
theorem chord_polar {xc yc r θ : ℝ} (hr : 0 ≤ r) :
    chord xc yc (xc + r * Real.cos θ) (yc + r * Real.sin θ) = r := by
  have hsq : (xc + r * Real.cos θ - xc) ^ 2 + (yc + r * Real.sin θ - yc) ^ 2 = r ^ 2 := by
    linear_combination r ^ 2 * Real.sin_sq_add_cos_sq θ
  rw [chord, hsq, Real.sqrt_sq hr]

/-- An accepted arc with a radius that fits its chord is the one the radius stands for. -/
theorem draws_radius (hb : Block.Constructed line prev b)
    (h : (Block.parse m prev).run b = .ok () c) (ha : c.type.IsArc)
    (hR : (ownWord 'R' line : XReal) = .fin R) (hR0 : R ≠ 0)
    (h0 : Block.origin m prev = .ofCoords (.fin x0) (.fin y0) (.fin z0))
    (h1 : c.target = .ofCoords (.fin x) (.fin y) (.fin z)) (hd : 0 < chord x0 y0 x y)
    (hle : chord x0 y0 x y ≤ 2 * |R|) :
    ∃ xc yc dθ, DrawsRadius m prev c R x0 y0 z0 x y z xc yc dθ := by
  have hof : ArcOf c.type (.ofCoords (.fin x0) (.fin y0) (.fin z0))
      (.ofCoords (.fin x) (.fin y) (.fin z)) (ownWord 'R' line) (ownWord 'I' line)
      (ownWord 'J' line) (.ofRadius c.type hR0 hd hle) := .radius hR0 hd hle ha hR rfl rfl
  have harc := hasArc_of_parse hb h (by rw [h0, h1]; exact hof)
  have hpath := interpolate_of_hasArc h ha h0 h1 harc
  obtain ⟨hdist0, hdist⟩ := center_dist c.type hd hle
  obtain ⟨k, hk, hsin⟩ := sin_between_ends c.type hR0 hd hle
  set a := Arc.ofRadius c.type hR0 hd hle
  set θ0 := Complex.arg ⟨x0 - centerX c.type R x0 y0 x y, y0 - centerY c.type R x0 y0 x y⟩
  set θf := Complex.arg ⟨x - centerX c.type R x0 y0 x y, y - centerY c.type R x0 y0 x y⟩
  have hlt : turn θ0 θf < 2 * Real.pi := turn_lt (Complex.neg_pi_lt_arg _) (Complex.arg_le_pi _)
  have hpos : 0 < turn θ0 θf :=
    turn_pos (Complex.arg_le_pi _) (Complex.neg_pi_lt_arg _) (arg_ne_of_chord hdist0 hdist hd)
  have hdθ : a.dθ = sweepAngle c.type θ0 θf := rfl
  refine ⟨a.xc, a.yc, a.dθ, ⟨harc.xc, harc.yc⟩, harc.dtheta, ?_, ?_, fun hty => ?_, fun hty => ?_,
    fun hR1 => ?_, fun hR1 => ?_, ?_, ?_, ?_, fun u => ?_⟩
  · rw [chord, ← Real.sqrt_sq_eq_abs]
    exact congrArg Real.sqrt hdist0
  · rw [chord, ← Real.sqrt_sq_eq_abs]
    exact congrArg Real.sqrt hdist
  · rw [hdθ, hty, sweepAngle, if_neg (by decide)]
    exact ⟨hpos, hlt⟩
  · rw [hdθ, hty, sweepAngle, if_pos rfl]
    constructor <;> linarith
  · rw [if_pos hR1, one_mul] at hsin
    exact abs_sweepAngle_le ha hpos hlt (hsin.symm ▸ hk)
  · rw [if_neg (not_lt.mpr hR1.le)] at hsin
    exact le_abs_sweepAngle ha hpos hlt (by rw [hsin]; linarith)
  · rw [harc.length, Arc.length, mul_comm]
    rfl
  · rw [hpath, mul_zero, mul_zero, add_zero, add_zero, hof.leads.start.1, hof.leads.start.2]
  · obtain ⟨hx, hy⟩ := hof.leads.target (hdist.trans (sq_abs R).symm)
    rw [hpath, mul_one, mul_one, hx, hy, add_sub_cancel]
  · exact ⟨_, _, _, hpath u, chord_polar a.r_pos.le⟩

theorem draws_radius_diameter : ∃ c : Block XReal,
    (Block.parse .default none).run (Block.ofLine 0 diameterLine) = .ok () c ∧
      ∃ xc yc dθ, DrawsRadius .default none c 5 0 0 0 10 0 0 xc yc dθ := by
  have hR := radius_diameter
  have h5 : (5 : ℝ) ≠ 0 := by norm_num
  obtain ⟨c, h, hty, ht⟩ := arcLine_diameter.exists_radius (.first 0) origin_default hR h5
  rw [Rat.cast_ofNat, Rat.cast_zero] at ht
  have hch : chord 0 0 10 0 = 10 := by
    rw [chord, show ((10 : ℝ) - 0) ^ 2 + (0 - 0) ^ 2 = 10 ^ 2 by norm_num]
    exact Real.sqrt_sq (by norm_num)
  exact ⟨c, h, draws_radius (.first 0) h (.inl hty) hR h5 origin_default ht (by rw [hch]; norm_num)
    (by rw [hch]; norm_num)⟩

end Radius

/-! ## Opposite arcs -/

section Opposite

variable {m m' : Machine XReal} {prev prev' : Option (Block XReal)} {line line' : Line}
  {b b' c c' : Block XReal} {type : BlockType} {x0 y0 z0 x y z xc yc : ℝ} {a a' : Arc}

/-- The lines describe arcs between the two points, by one radius or around one centre. -/
inductive Opposite (line line' : Line) (x0 y0 x y : ℝ) : Prop
  | radius {R : ℝ} : R ≠ 0 → chord x0 y0 x y ≤ 2 * |R| → (ownWord 'R' line : XReal) = .fin R →
      (ownWord 'R' line' : XReal) = .fin R → Opposite line line' x0 y0 x y
  | center {xc yc : ℝ} : (x - xc) ^ 2 + (y - yc) ^ 2 = (x0 - xc) ^ 2 + (y0 - yc) ^ 2 →
      (ownWord 'R' line : XReal) = .fin 0 → (ownWord 'I' line : XReal) = .fin (xc - x0) →
      (ownWord 'J' line : XReal) = .fin (yc - y0) → (ownWord 'R' line' : XReal) = .fin 0 →
      (ownWord 'I' line' : XReal) = .fin (xc - x) → (ownWord 'J' line' : XReal) = .fin (yc - y) →
      Opposite line line' x0 y0 x y

theorem chord_comm (x0 y0 x y : ℝ) : chord x y x0 y0 = chord x0 y0 x y := by
  rw [chord, chord]
  congr 1
  ring

/-- The centre of a radius does not depend on the way that the chord is followed. -/
theorem center_opposite (R x0 y0 x y : ℝ) :
    centerX .ccwa R x y x0 y0 = centerX .cwa R x0 y0 x y ∧
      centerY .ccwa R x y x0 y0 = centerY .cwa R x0 y0 x y := by
  have hs : side .ccwa R = -side .cwa R := by
    rw [side, side, if_pos rfl, if_neg (by decide : BlockType.cwa ≠ .ccwa)]
    ring
  rw [centerX, centerX, centerY, centerY, chord_comm, hs]
  constructor <;> ring

/-- The arc between two points of a circle, around its centre. -/
theorem exists_arcOf_center {I J : XReal} (z0 z : ℝ) (ha : type.IsArc) (hd : 0 < chord x0 y0 x y)
    (hon : (x - xc) ^ 2 + (y - yc) ^ 2 = (x0 - xc) ^ 2 + (y0 - yc) ^ 2)
    (hI : I = .fin (xc - x0)) (hJ : J = .fin (yc - y0)) :
    ∃ a, ArcOf type (.ofCoords (.fin x0) (.fin y0) (.fin z0)) (.ofCoords (.fin x) (.fin y) (.fin z))
      (.fin 0) I J a ∧ a.xc = xc ∧ a.yc = yc ∧
      a.r = √((x0 - xc) ^ 2 + (y0 - yc) ^ 2) := by
  have hsq : (xc - x0) ^ 2 + (yc - y0) ^ 2 = (x0 - xc) ^ 2 + (y0 - yc) ^ 2 := by ring
  have hne := arg_ne_of_chord rfl hon hd
  have hr : 0 < √((xc - x0) ^ 2 + (yc - y0) ^ 2) := by
    rw [hsq, Real.sqrt_pos]
    refine lt_of_le_of_ne (by positivity) fun h0 => hne ?_
    rw [← h0] at hon
    have hx0 : x0 - xc = 0 := by nlinarith [sq_nonneg (x0 - xc), sq_nonneg (y0 - yc)]
    have hy0 : y0 - yc = 0 := by nlinarith [sq_nonneg (x0 - xc), sq_nonneg (y0 - yc)]
    have hx : x - xc = 0 := by nlinarith [sq_nonneg (x - xc), sq_nonneg (y - yc)]
    have hy : y - yc = 0 := by nlinarith [sq_nonneg (x - xc), sq_nonneg (y - yc)]
    rw [hx0, hy0, hx, hy]
  have hxc : x0 + (xc - x0) = xc := by ring
  have hyc : y0 + (yc - y0) = yc := by ring
  have hx : -(xc - x0) = x0 - xc := by ring
  have hy : -(yc - y0) = y0 - yc := by ring
  have hturn : type ≠ .cwa → turn (Complex.arg ⟨-(xc - x0), -(yc - y0)⟩)
      (Complex.arg ⟨x - xc, y - yc⟩) ≠ 0 := by
    intro _
    rw [hx, hy, Ne, turn_eq_zero (Complex.arg_le_pi _) (Complex.neg_pi_lt_arg _)]
    exact hne
  refine ⟨_, .center hr (Complex.arg_le_pi _) hturn ha rfl hI hJ rfl rfl ?_, hxc, hyc, ?_⟩
  · rw [hxc, hyc, sub_def, sub_def, atan2_def]
  · rw [← hsq]
    rfl

/-- Both arcs, on one circle. -/
theorem Opposite.arcs (h : Opposite line line' x0 y0 x y) (hd : 0 < chord x0 y0 x y) (z0 z : ℝ) :
    ∃ a a', ArcOf .cwa (.ofCoords (.fin x0) (.fin y0) (.fin z0))
        (.ofCoords (.fin x) (.fin y) (.fin z)) (ownWord 'R' line) (ownWord 'I' line)
        (ownWord 'J' line) a ∧
      ArcOf .ccwa (.ofCoords (.fin x) (.fin y) (.fin z))
        (.ofCoords (.fin x0) (.fin y0) (.fin z0)) (ownWord 'R' line') (ownWord 'I' line')
        (ownWord 'J' line') a' ∧
      a'.xc = a.xc ∧ a'.yc = a.yc ∧ a'.r = a.r := by
  have hd' : 0 < chord x y x0 y0 := by rwa [chord_comm]
  cases h with
  | @radius R hR hle hw hw' =>
    obtain ⟨hx, hy⟩ := center_opposite R x0 y0 x y
    have hle' : chord x y x0 y0 ≤ 2 * |R| := by rwa [chord_comm]
    exact ⟨_, _, .radius hR hd hle (.inl rfl) hw rfl rfl, .radius hR hd' hle' (.inr rfl) hw' rfl rfl,
      hx, hy, rfl⟩
  | center hon hR hI hJ hR' hI' hJ' =>
    obtain ⟨a, ha, hx, hy, hr⟩ := exists_arcOf_center z0 z (.inl rfl : BlockType.cwa.IsArc) hd
      hon hI hJ
    obtain ⟨a', ha', hx', hy', hr'⟩ := exists_arcOf_center z z0
      (.inr rfl : BlockType.ccwa.IsArc) hd' hon.symm hI' hJ'
    rw [← hR] at ha
    rw [← hR'] at ha'
    exact ⟨a, a', ha, ha', hx'.trans hx.symm, hy'.trans hy.symm, by rw [hr, hr', hon]⟩

/-- The opposite arc turns back to where the arc began. -/
theorem Arc.Leads.opposite (h : a.Leads .cwa x0 y0 x y) (h' : a'.Leads .ccwa x y x0 y0)
    (hx : a'.xc = a.xc) (hy : a'.yc = a.yc) (hr : a'.r = a.r) (hd : 0 < chord x0 y0 x y) :
    a'.dθ = -a.dθ ∧ ∀ u, Real.cos (a'.θ0 + a'.dθ * (1 - u)) = Real.cos (a.θ0 + a.dθ * u) ∧
      Real.sin (a'.θ0 + a'.dθ * (1 - u)) = Real.sin (a.θ0 + a.dθ * u) := by
  have hdist := h'.dist
  have hθ := h'.θ0
  have hdθ' := h'.dθ
  rw [hx, hy, hr] at hdist
  rw [hx, hy] at hθ hdθ'
  rw [← h.θ0] at hdθ'
  have hdθ := h.dθ
  rw [← hθ] at hdθ
  have hne : a.θ0 ≠ a'.θ0 := by
    rw [h.θ0, hθ]
    exact (arg_ne_of_chord h.dist hdist hd).symm
  have hsum := turn_add_turn hne
  have hneg : a'.dθ = -a.dθ := by
    rw [hdθ, hdθ', sweepAngle, sweepAngle, if_pos rfl, if_neg (by decide)]
    linarith
  refine ⟨hneg, fun u => ?_⟩
  obtain ⟨hcos, hsin⟩ := cos_sin_sweepAngle .ccwa a'.θ0 a.θ0
  have hback : a'.θ0 + a'.dθ * (1 - u) = a'.θ0 + a'.dθ + a.dθ * u := by
    rw [hneg]
    ring
  rw [hback, hdθ', Real.cos_add _ (a.dθ * u), Real.sin_add _ (a.dθ * u), hcos, hsin, Real.cos_add,
    Real.sin_add]
  exact ⟨rfl, rfl⟩

/-- A clockwise arc and the counterclockwise one back to its start are on one circle, are equally
long, and run over the same points. -/
theorem opposite_arcs (hb : Block.Constructed line prev b)
    (h : (Block.parse m prev).run b = .ok () c) (hb' : Block.Constructed line' prev' b')
    (h' : (Block.parse m' prev').run b' = .ok () c') (hcwa : c.type = .cwa) (hccwa : c'.type = .ccwa)
    (h0 : Block.origin m prev = .ofCoords (.fin x0) (.fin y0) (.fin z0))
    (h1 : c.target = .ofCoords (.fin x) (.fin y) (.fin z))
    (h0' : Block.origin m' prev' = c.target) (h1' : c'.target = Block.origin m prev)
    (hne : ¬ (x = x0 ∧ y = y0)) (ho : Opposite line line' x0 y0 x y) :
    c'.center.x = c.center.x ∧ c'.center.y = c.center.y ∧ c'.r = c.r ∧ c'.length = c.length ∧
      ∀ u : ℝ, ∃ P, c.interpolate m prev (.fin u) = .ok P ∧
        c'.interpolate m' prev' (.fin (1 - u)) = .ok P := by
  rw [h1] at h0'
  rw [h0] at h1'
  have hd : 0 < chord x0 y0 x y := by
    rw [chord, Real.sqrt_pos]
    refine lt_of_le_of_ne (by positivity) fun hz => hne ?_
    constructor <;> nlinarith [sq_nonneg (x - x0), sq_nonneg (y - y0)]
  obtain ⟨a, a', ha, ha', hx, hy, hr⟩ := ho.arcs hd z0 z
  have harc := hasArc_of_parse hb h (by rw [hcwa, h0, h1]; exact ha)
  have harc' := hasArc_of_parse hb' h' (by rw [hccwa, h0', h1']; exact ha')
  obtain ⟨hneg, hpath⟩ := ha.leads.opposite ha'.leads hx hy hr hd
  refine ⟨?_, ?_, ?_, ?_, fun u => ⟨_, interpolate_of_hasArc h (.inl hcwa) h0 h1 harc u, ?_⟩⟩
  · rw [harc.xc, harc'.xc, hx]
  · rw [harc.yc, harc'.yc, hy]
  · rw [harc.r, harc'.r, hr]
  · rw [harc.length, harc'.length, Arc.length, Arc.length, hneg, abs_neg, hr]
  · obtain ⟨hcos, hsin⟩ := hpath u
    have hz : z + (z0 - z) * (1 - u) = z0 + (z - z0) * u := by ring
    rw [interpolate_of_hasArc h' (.inr hccwa) h0' h1' harc', hx, hy, hr, hcos, hsin, hz]

/-- The quarter turn, from `(1, 1)` back to `(0, 0)`. -/
def returnLine : Line := "G3 X0 Y0 I0 J-1 F100".toList

theorem arcLine_return : ArcLine returnLine .ccwa 0 0 := by
  constructor <;> decide +kernel

theorem opposite_arcs_quarter : ∃ c c' : Block XReal,
    (Block.parse .default none).run (Block.ofLine 0 Block.quarterLine) = .ok () c ∧
      (Block.parse .default (some { c with next := some 1 })).run
        (Block.start 1 returnLine (some c)) = .ok () c' ∧
      c'.center.x = c.center.x ∧ c'.length = c.length := by
  have hw := Block.turnWords_quarter
  have hR : ∀ t ∈ commands Block.quarterLine, letter t ≠ 'R' := by decide +kernel
  have hR' : ∀ t ∈ commands returnLine, letter t ≠ 'R' := by decide +kernel
  have hI' := ownWord_finite returnLine 'I' 0 (by decide +kernel)
  have hJ' := ownWord_finite returnLine 'J' (-1) (by decide +kernel)
  obtain ⟨hR0, hI, hJ⟩ := hw.own
  obtain ⟨c, h, hty, ht⟩ := arcLine_quarter.exists_center (.first 0) origin_default rfl hR hI hJ
  have hpar : ∀ o ∈ some c, o.parsed = true := by
    rintro _ ⟨⟩
    exact (Block.profile_of_parse h (.inr (.inl hty))).1
  have hb' := Block.constructed_start 1 returnLine hpar
  have h0' : Block.origin .default (some { c with next := some 1 }) = c.target := rfl
  obtain ⟨c', h', hty', ht'⟩ := arcLine_return.exists_center hb' (h0'.trans ht) rfl hR' hI' hJ'
  rw [Rat.cast_one] at ht
  rw [Rat.cast_zero] at ht'
  have hopp : Opposite Block.quarterLine returnLine 0 0 1 1 := by
    have hon : ((1 : ℝ) - 1) ^ 2 + (1 - 0) ^ 2 = (0 - 1) ^ 2 + (0 - 0) ^ 2 := by norm_num
    refine .center hon hR0 ?_ ?_ (ownWord_absent hR') ?_ ?_
    · rw [hI, sub_zero]
    · rw [hJ, sub_zero]
    · rw [hI', sub_self, Rat.cast_zero]
    · rw [hJ']
      norm_num
  obtain ⟨hx, -, -, hlen, -⟩ := opposite_arcs (.first 0) h hb' h' hty hty' origin_default ht h0'
    (ht'.trans origin_default.symm) (by norm_num) hopp
  exact ⟨c, c', h, h', hx, hlen⟩

end Opposite

end

end Cncpp
