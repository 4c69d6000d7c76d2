import Cncpp.Endpoints
import Cncpp.Reparsing

/-! What the checks of `calc_arc` let through.  An arc is refused for its radius alone, and a
target that I and J do not reach is compared with the positioning error of the machine, so
accepted arcs can miss their target, have no centre, or not turn at all. -/

namespace Cncpp

open DataArith Lib XReal

/-! ## Accepted arcs -/

section Accepted

variable {K : Type} [DataArith K]

/-- What a line meets before its geometry is looked at. -/
structure Readable (m : Machine K) (prev : Option (Block K)) (line : Line) : Prop where
  words : ∀ t ∈ commands line, IsWord t
  number : ∀ o ∈ prev, ∀ t ∈ commands line, ∀ n ∈ sizeWord 'N' t, o.n < n
  origin : ∃ x0 y0 z0, Block.origin m prev = .ofCoords x0 y0 z0

/-- The point that a line leads to: coordinates that it lacks are those of the start. -/
def ownTarget (m : Machine K) (prev : Option (Block K)) (line : Line) : Point K :=
  Point.modal ⟨lastOf (dataWord 'X') (commands line), lastOf (dataWord 'Y') (commands line),
    lastOf (dataWord 'Z') (commands line)⟩ (Block.origin m prev)

/-- The distances from the centre, at `(I, J)` from the start, to the start and to the target
differ by more than `tol`. -/
def Missed (tol : K) (p0 p : Point K) (I J : K) : Prop :=
  ∃ x0 y0 z0 x y z, p0 = .ofCoords x0 y0 z0 ∧ p = .ofCoords x y z ∧
    DataArith.lt tol (fabs (hypot I J - hypot (x - (x0 + I)) (y - (y0 + J)))) = true

variable {m : Machine K} {prev : Option (Block K)} {line : Line} {b c : Block K}

theorem ownTarget_eq {x0 y0 z0 : K} (h0 : Block.origin m prev = .ofCoords x0 y0 z0) :
    ownTarget m prev line = .ofCoords ((lastOf (dataWord 'X') (commands line)).getD x0)
      ((lastOf (dataWord 'Y') (commands line)).getD y0)
      ((lastOf (dataWord 'Z') (commands line)).getD z0) := by
  rw [ownTarget, h0, Point.modal_ofCoords]

theorem target_of_parse (hb : Block.Constructed line prev b)
    (h : (Block.parse m prev).run b = .ok () c) : c.target = ownTarget m prev line := by
  obtain ⟨x0, y0, z0, _, _, _, _, _, _, _, h0, rfl⟩ := (Block.parse_iff.mp h).frame
  have hbt : b.target = {} := by
    cases hb with
    | first => rfl
    | after ho =>
      obtain ⟨-, rfl, -⟩ := Block.ofPrev_ok ho
      rfl
  rw [ownTarget_eq h0]
  simp [Block.fill, Block.updateAll, hb.line_eq, hbt]

theorem Acceptable.readable (h : Acceptable m prev line) : Readable m prev line := by
  obtain ⟨x0, y0, z0, h0, -⟩ := h.origin
  exact ⟨h.words, h.number, x0, y0, z0, h0⟩

/-- An arc with a radius is refused for the radius alone. -/
theorem acceptable_radius_iff (ha : (typeCode line).IsArc)
    (hR : nonzero (ownWord 'R' line : K) = true) :
    Acceptable m prev line ↔ Readable m prev line ∧ Block.Valid (ownWord 'R' line : K) := by
  constructor
  · intro h
    obtain ⟨x0, y0, z0, -, harc⟩ := h.origin
    have harc := harc ha
    rw [ArcAccepted, if_pos hR] at harc
    exact ⟨h.readable, harc⟩
  · rintro ⟨h, hv⟩
    obtain ⟨x0, y0, z0, h0⟩ := h.origin
    refine ⟨h.words, h.number, x0, y0, z0, h0, fun _ => ?_⟩
    rw [ArcAccepted, if_pos hR]
    exact hv

/-- An arc without a radius is refused for its centre, or for a target that misses it. -/
theorem acceptable_center_iff (ha : (typeCode line).IsArc)
    (hR : ¬ nonzero (ownWord 'R' line : K) = true) :
    Acceptable m prev line ↔ Readable m prev line ∧
      Block.Valid (hypot (ownWord 'I' line) (ownWord 'J' line) : K) ∧
      ¬ Missed m.error (Block.origin m prev) (ownTarget m prev line) (ownWord 'I' line)
        (ownWord 'J' line) := by
  constructor
  · intro h
    obtain ⟨x0, y0, z0, h0, harc⟩ := h.origin
    have harc := harc ha
    rw [ArcAccepted, if_neg hR] at harc
    refine ⟨h.readable, ⟨harc.1, harc.2.1⟩, ?_⟩
    rintro ⟨x0', y0', z0', x, y, z, h0', ht, hlt⟩
    cases h0.symm.trans h0'
    cases (ownTarget_eq h0).symm.trans ht
    rw [harc.2.2] at hlt
    cases hlt
  · rintro ⟨h, hv, hmiss⟩
    obtain ⟨x0, y0, z0, h0⟩ := h.origin
    refine ⟨h.words, h.number, x0, y0, z0, h0, fun _ => ?_⟩
    rw [ArcAccepted, if_neg hR]
    refine ⟨hv.1, hv.2, Bool.eq_false_iff.mpr fun hlt => hmiss ?_⟩
    exact ⟨x0, y0, z0, _, _, _, h0, ownTarget_eq h0, hlt⟩

end Accepted

noncomputable section

/-! ## Directions -/

section Directions

variable {a b x : XReal} {v i : ℝ}

theorem atan2_ne_nan : (∃ v, DataArith.atan2 a b = .fin v) ↔ a ≠ .nan ∧ b ≠ .nan := by
  change (∃ v, Lib.XReal.atan2 a b = .fin v) ↔ _
  constructor
  · rintro ⟨v, h⟩
    constructor <;> rintro rfl
    · cases h
    · cases a <;> cases h
  · rintro ⟨ha, hb⟩
    cases a <;> cases b <;> simp only [ne_eq, not_true_eq_false, reduceCtorEq] at ha hb <;>
      simp only [Lib.XReal.atan2]
    all_goals first
      | exact ⟨_, rfl⟩
      | (split <;> exact ⟨_, rfl⟩)

theorem sub_fin_ne_nan : x - (.fin v : XReal) ≠ .nan ↔ x ≠ .nan := by
  cases x with
  | fin u => rw [sub_def]; exact iff_of_true (by simp) (by simp)
  | posInf => exact iff_of_true (fun h => nomatch h) (fun h => nomatch h)
  | negInf => exact iff_of_true (fun h => nomatch h) (fun h => nomatch h)
  | nan => exact Iff.rfl

theorem lt_false_of_le (h : DataArith.le a b = true) : ¬ DataArith.lt b a = true := by
  intro hlt
  cases a <;> cases b <;> try cases h
  all_goals try cases hlt
  rw [le_def] at h
  rw [lt_def] at hlt
  linarith

/-- From a centre beside it only a number has a direction. -/
theorem sub_add_ne_nan : x - (x + (.fin i : XReal)) ≠ .nan ↔ ∃ v, x = .fin v := by
  cases x with
  | fin u => rw [add_def, sub_def]; exact iff_of_true (by simp) ⟨u, rfl⟩
  | posInf => exact iff_of_false (fun h => h rfl) (fun ⟨_, h⟩ => nomatch h)
  | negInf => exact iff_of_false (fun h => h rfl) (fun ⟨_, h⟩ => nomatch h)
  | nan => exact iff_of_false (fun h => h rfl) (fun ⟨_, h⟩ => nomatch h)

end Directions

/-! ## Arcs around a given centre -/

/-- The arc that is stored for the centre `(i, j)` away from the start. -/
structure CenterArc (c : Block XReal) (x0 y0 x y : XReal) (i j : ℝ) : Prop where
  center : c.center.x = some (x0 + .fin i) ∧ c.center.y = some (y0 + .fin j)
  r : c.r = .fin √(i ^ 2 + j ^ 2)
  theta0 : c.theta0 = DataArith.atan2 (y0 - (y0 + .fin j)) (x0 - (x0 + .fin i))
  dtheta : c.dtheta = Block.sweep c.type c.theta0
    (DataArith.atan2 (y - (y0 + .fin j)) (x - (x0 + .fin i)))
  length : c.length = DataArith.fabs (c.dtheta * .fin √(i ^ 2 + j ^ 2))

theorem ownWord_absent {letterR : Char} {line : Line}
    (h : ∀ t ∈ commands line, letter t ≠ letterR) : (ownWord letterR line : XReal) = .fin 0 := by
  have hw : lastOf (numeralWord letterR) (commands line) = none :=
    lastOf_eq_none _ fun t ht => by rw [numeralWord, if_neg (h t ht)]
  rw [ownWord, lastOf_dataWord, hw]
  simp

section Centered

variable {m : Machine XReal} {prev : Option (Block XReal)} {line : Line} {b c : Block XReal}

/-- An accepted arc without a radius, with its inputs. -/
theorem exists_centerArc (hb : Block.Constructed line prev b)
    (h : (Block.parse m prev).run b = .ok () c) (ha : c.type.IsArc)
    (hR : (ownWord 'R' line : XReal) = .fin 0) :
    ∃ x0 y0 z0 x y z i j, Block.origin m prev = .ofCoords x0 y0 z0 ∧
      c.target = .ofCoords x y z ∧ (ownWord 'I' line : XReal) = .fin i ∧
      (ownWord 'J' line : XReal) = .fin j ∧ CenterArc c x0 y0 x y i j := by
  obtain ⟨x0, y0, z0, x, y, z, r, xc, yc, h0, ht, hcen, hst⟩ := Block.arc_of_parse hb h ha
  rw [Block.CenterOf, hR, if_neg (by simp)] at hcen
  obtain ⟨rfl, hc, -⟩ := hcen
  cases hc
  have hfin : ∃ v, DataArith.hypot (ownWord 'I' line) (ownWord 'J' line : XReal) = .fin v := by
    obtain ⟨hn, hi⟩ := hst.valid
    cases hv : DataArith.hypot (ownWord 'I' line) (ownWord 'J' line : XReal) with
    | fin v => exact ⟨v, rfl⟩
    | posInf => rw [hv] at hi; cases hi
    | negInf => rw [hv] at hi; cases hi
    | nan => rw [hv] at hn; cases hn
  obtain ⟨v, hv⟩ := hfin
  obtain ⟨i, j, hI, hJ, -⟩ := hypot_eq_fin hv
  rw [hI, hJ] at hst
  refine ⟨x0, y0, z0, x, y, z, i, j, h0, ht, hI, hJ, hst.center, ?_, hst.theta0, hst.dtheta, ?_⟩
  · rw [hst.r, hypot_def, fabs_def, abs_of_nonneg (Real.sqrt_nonneg _)]
  · rw [hst.length, hypot_def]

/-- The arc has a sweep exactly where the start is a point and the target has a direction. -/
theorem CenterArc.sweep_cases {x0 y0 x y : XReal} {i j : ℝ} (h : CenterArc c x0 y0 x y i j) :
    (∃ u v b, x0 = .fin u ∧ y0 = .fin v ∧ x ≠ .nan ∧ y ≠ .nan ∧
      c.theta0 = .fin (Complex.arg ⟨-i, -j⟩) ∧
      DataArith.atan2 (y - .fin (v + j)) (x - .fin (u + i)) = .fin b ∧
      c.dtheta = .fin (sweepAngle c.type (Complex.arg ⟨-i, -j⟩) b)) ∨
    c.dtheta = .nan ∧ ¬ ((∃ u, x0 = .fin u) ∧ (∃ v, y0 = .fin v) ∧ x ≠ .nan ∧ y ≠ .nan) := by
  have hd := h.dtheta
  have hθ := h.theta0
  by_cases hin : (∃ u, x0 = .fin u) ∧ (∃ v, y0 = .fin v) ∧ x ≠ .nan ∧ y ≠ .nan
  · obtain ⟨⟨u, rfl⟩, ⟨v, rfl⟩, hx, hy⟩ := hin
    have hxi : u - (u + i) = -i := by ring
    have hyj : v - (v + j) = -j := by ring
    rw [add_def, add_def, sub_def, sub_def, atan2_def, hxi, hyj] at hθ
    rw [add_def, add_def] at hd
    obtain ⟨b, hb⟩ := atan2_ne_nan.mpr ⟨sub_fin_ne_nan (v := v + j).mpr hy,
      sub_fin_ne_nan (v := u + i).mpr hx⟩
    rw [hθ, hb, sweep_fin] at hd
    exact .inl ⟨u, v, b, rfl, rfl, hx, hy, hθ, hb, hd⟩
  · refine .inr ⟨?_, hin⟩
    rcases Cncpp.sweep_cases c.type
        (atan2_cases (y0 - (y0 + .fin j)) (x0 - (x0 + .fin i)))
        (atan2_cases (y - (y0 + .fin j)) (x - (x0 + .fin i))) with
      ⟨p, q, hp, hq, -⟩ | hnan
    · exfalso
      obtain ⟨hy0, hx0⟩ := atan2_ne_nan.mp ⟨p, hp⟩
      obtain ⟨hy, hx⟩ := atan2_ne_nan.mp ⟨q, hq⟩
      obtain ⟨u, rfl⟩ := sub_add_ne_nan.mp hx0
      obtain ⟨v, rfl⟩ := sub_add_ne_nan.mp hy0
      rw [add_def] at hx hy
      exact hin ⟨⟨u, rfl⟩, ⟨v, rfl⟩, sub_fin_ne_nan.mp hx, sub_fin_ne_nan.mp hy⟩
    · rw [hd, hθ]
      exact hnan

/-! ## The end of an arc -/

/-- The distance of two points in the XY plane. -/
def planeDistance {K : Type} [DataArith K] (p q : Point K) : Except (Exn K) K := do
  pure (hypot ((← p.getX) - (← q.getX)) ((← p.getY) - (← q.getY)))

@[simp] theorem planeDistance_ofCoords {K : Type} [DataArith K] (x y z x' y' z' : K) :
    planeDistance (.ofCoords x y z) (.ofCoords x' y' z') = .ok (hypot (x - x') (y - y')) := rfl

/-- The last point of the block is within the maximum error of the machine from its target. -/
def EndsWithin (m : Machine XReal) (prev : Option (Block XReal)) (c : Block XReal) : Prop :=
  ∃ P d, c.interpolate m prev (num 1) = .ok P ∧ planeDistance P c.target = .ok d ∧
    DataArith.le d m.maxError = true

/-- The start is a pair of numbers, the target has no NaN, and their distances to the centre at
`(I, J)` from the start differ by at most `tol`. -/
def WithinReach (tol : XReal) (p0 p : Point XReal) (I J : XReal) : Prop :=
  ∃ (x0 y0 : ℝ) (z0 x y z : XReal), p0 = .ofCoords (.fin x0) (.fin y0) z0 ∧
    p = .ofCoords x y z ∧ x ≠ .nan ∧ y ≠ .nan ∧ DataArith.le (DataArith.fabs (DataArith.hypot I J -
      DataArith.hypot (x - (.fin x0 + I)) (y - (.fin y0 + J)))) tol = true

theorem WithinReach.not_missed {tol I J : XReal} {p0 p : Point XReal}
    (h : WithinReach tol p0 p I J) : ¬ Missed tol p0 p I J := by
  obtain ⟨x0, y0, z0, x, y, z, rfl, rfl, -, -, hle⟩ := h
  rintro ⟨x0', y0', z0', x', y', z', h0, ht, hlt⟩
  cases h0
  cases ht
  exact lt_false_of_le hle hlt

/-- The point of a circle in the direction of the target misses it by the difference of their
distances from the centre. -/
theorem end_distance {r xc yc θ : ℝ} {x y : XReal} (hx : x ≠ .nan) (hy : y ≠ .nan)
    (hθ : DataArith.atan2 (y - .fin yc) (x - .fin xc) = .fin θ) :
    DataArith.hypot (.fin (xc + r * Real.cos θ) - x) (.fin (yc + r * Real.sin θ) - y) =
      DataArith.fabs (.fin r - DataArith.hypot (x - .fin xc) (y - .fin yc)) := by
  cases x with
  | nan => exact absurd rfl hx
  | posInf => rfl
  | negInf => rfl
  | fin x =>
    cases y with
    | nan => exact absurd rfl hy
    | posInf => rfl
    | negInf => rfl
    | fin y =>
      rw [sub_def, sub_def, atan2_def] at hθ
      cases hθ
      have hd := radial_dist r (x - xc) (y - yc)
      rw [sub_def, sub_def, sub_def, sub_def, hypot_def, hypot_def, sub_def, fabs_def]
      refine congrArg Lib.XReal.fin ?_
      rw [← Real.sqrt_sq_eq_abs, ← hd]
      refine congrArg Real.sqrt ?_
      ring

/-- An arc around a centre ends in the direction of its target, and without one nowhere. -/
theorem CenterArc.end_cases {x0 y0 z0 x y dx dy dz : XReal} {i j : ℝ}
    (h : CenterArc c x0 y0 x y i j) (hpar : c.parsed = true) (hma : c.hasMachine = true)
    (ha : c.type.IsArc) (h0 : Block.origin m prev = .ofCoords x0 y0 z0)
    (hd : c.delta = .ofCoords dx dy dz) :
    (∃ u v θ, x0 = .fin u ∧ y0 = .fin v ∧ x ≠ .nan ∧ y ≠ .nan ∧
      DataArith.atan2 (y - .fin (v + j)) (x - .fin (u + i)) = .fin θ ∧
      c.interpolate m prev (num 1) = .ok (.ofCoords (.fin (u + i + √(i ^ 2 + j ^ 2) * Real.cos θ))
        (.fin (v + j + √(i ^ 2 + j ^ 2) * Real.sin θ)) (z0 + dz * num 1))) ∨
    c.interpolate m prev (num 1) = .ok (.ofCoords .nan .nan (z0 + dz * num 1)) ∧
      ¬ ((∃ u, x0 = .fin u) ∧ (∃ v, y0 = .fin v) ∧ x ≠ .nan ∧ y ≠ .nan) := by
  have hint := interpolate_of_center hpar hma ha h0 hd h.center.1 h.center.2 (num 1)
  rcases h.sweep_cases with ⟨u, v, θ, rfl, rfl, hx, hy, hθ0, hθ, hdθ⟩ | ⟨hnan, hno⟩
  · obtain ⟨hcos, hsin⟩ := cos_sin_sweepAngle c.type (Complex.arg ⟨-i, -j⟩) θ
    refine .inl ⟨u, v, θ, rfl, rfl, hx, hy, hθ, ?_⟩
    rw [hint, hθ0, hdθ, h.r, num_def, Rat.cast_one]
    simp only [mul_def, mul_one, add_def, cos_def, sin_def, hcos, hsin]
  · have hangle : c.theta0 + c.dtheta * num 1 = .nan := by
      have hone : (.nan * num 1 : XReal) = .nan := by
        show Lib.XReal.mul .nan (.fin _) = _
        simp [Lib.XReal.mul, Lib.XReal.sign, Lib.XReal.infOf]
      rw [hnan, hone, add_nan]
    have hcos : (DataArith.cos .nan : XReal) = .nan := rfl
    have hsin : (DataArith.sin .nan : XReal) = .nan := rfl
    rw [hangle, hcos, hsin, mul_nan, add_nan, add_nan] at hint
    exact .inr ⟨hint, hno⟩

theorem endsWithin_iff_reach (hb : Block.Constructed line prev b)
    (h : (Block.parse m prev).run b = .ok () c) (ha : c.type.IsArc)
    (hR : (ownWord 'R' line : XReal) = .fin 0) :
    EndsWithin m prev c ↔ WithinReach m.maxError (Block.origin m prev) c.target
      (ownWord 'I' line) (ownWord 'J' line) := by
  obtain ⟨x0, y0, z0, x, y, z, i, j, h0, ht, hI, hJ, harc⟩ := exists_centerArc hb h ha hR
  obtain ⟨x0', y0', z0', x', y', z', h0', ht', hd, hma, -⟩ := Block.points_of_parse h
  cases h0.symm.trans h0'
  cases ht.symm.trans ht'
  have hpar : c.parsed = true := (Block.profile_of_parse h (.inr ha)).1
  rw [h0, hI, hJ]
  rcases harc.end_cases hpar hma ha h0 hd with ⟨u, v, θ, rfl, rfl, hx, hy, hθ, hlast⟩ | ⟨hlast, hno⟩
  · have hend := end_distance (r := √(i ^ 2 + j ^ 2)) hx hy hθ
    constructor
    · rintro ⟨P, d, hP, hdist, hle⟩
      cases hlast.symm.trans hP
      rw [ht, planeDistance_ofCoords, hend] at hdist
      cases hdist
      exact ⟨u, v, z0, x, y, z, rfl, ht, hx, hy, hle⟩
    · rintro ⟨u', v', z0', x', y', z', hp0, hp, -, -, hle⟩
      cases hp0
      cases ht.symm.trans hp
      refine ⟨_, _, hlast, ?_, hle⟩
      rw [ht, planeDistance_ofCoords, hend]
      rfl
  · constructor
    · rintro ⟨P, d, hP, hdist, hle⟩
      have hsub : ∀ a : XReal, .nan - a = (.nan : XReal) := by
        intro a
        cases a <;> rfl
      cases hlast.symm.trans hP
      rw [ht, planeDistance_ofCoords, hsub, hsub] at hdist
      cases hdist
      -- a distance that is not a number is within no error
      cases m.maxError <;> cases hle
    · rintro ⟨u, v, z0', x', y', z', hp0, hp, hx, hy, -⟩
      cases hp0
      cases ht.symm.trans hp
      exact absurd ⟨⟨u, rfl⟩, ⟨v, rfl⟩, hx, hy⟩ hno

/-- An accepted arc without a radius ends within the maximum error of its target exactly where
its two radii are that close.  What `parse` compares them with is the current error. -/
theorem ends_within_iff (hb : Block.Constructed line prev b) (ha : (typeCode line).IsArc)
    (hR : ∀ t ∈ commands line, letter t ≠ 'R') :
    (∀ c, (Block.parse m prev).run b = .ok () c → EndsWithin m prev c ∧
      ¬ Missed m.maxError (Block.origin m prev) c.target (ownWord 'I' line) (ownWord 'J' line)) ↔
    (Readable m prev line →
      (∃ v, DataArith.hypot (ownWord 'I' line) (ownWord 'J' line : XReal) = .fin v) →
      Missed m.error (Block.origin m prev) (ownTarget m prev line) (ownWord 'I' line)
        (ownWord 'J' line) ∨
      WithinReach m.maxError (Block.origin m prev) (ownTarget m prev line) (ownWord 'I' line)
        (ownWord 'J' line)) := by
  have hR0 := ownWord_absent hR
  have hnz : ¬ DataArith.nonzero (ownWord 'R' line : XReal) = true := by
    rw [hR0]
    simp
  have hend := fun c (h : (Block.parse m prev).run b = .ok () c) =>
    endsWithin_iff_reach hb h (by rw [Block.type_of_parse hb h]; exact ha) hR0
  constructor
  · intro hall hread hfin
    rw [or_iff_not_imp_left]
    intro hmiss
    obtain ⟨v, hv⟩ := hfin
    have hacc := (acceptable_center_iff ha hnz).mpr ⟨hread, by rw [hv]; exact ⟨rfl, rfl⟩, hmiss⟩
    obtain ⟨c, h⟩ := hb.exists_parse_iff.mpr hacc
    rw [← target_of_parse hb h]
    exact (hend c h).mp (hall c h).1
  · intro hcond c h
    obtain ⟨hread, hv, hmiss⟩ := (acceptable_center_iff ha hnz).mp (hb.exists_parse_iff.mp ⟨c, h⟩)
    have hreach := (hcond hread (Block.exists_fin_of_valid hv)).resolve_left hmiss
    rw [← target_of_parse hb h] at hreach
    exact ⟨(hend c h).mpr hreach, hreach.not_missed⟩

end Centered

/-! ## The radius -/

section Radius

variable {m : Machine XReal} {prev : Option (Block XReal)} {line : Line} {b c : Block XReal}

/-- The points differ in the plane, and a circle of radius `|R|` passes through both. -/
def FitsRadius (R : XReal) (p0 p : Point XReal) : Prop :=
  ∃ (v : ℝ) (x0 y0 z0 x y z : XReal), R = .fin v ∧ p0 = .ofCoords x0 y0 z0 ∧
    p = .ofCoords x y z ∧ ChordFits v x0 y0 x y

/-- The centre, the angles and the length of an arc are numbers. -/
structure ArcDefined (c : Block XReal) : Prop where
  center : (∃ v, c.center.x = some (.fin v)) ∧ ∃ v, c.center.y = some (.fin v)
  theta0 : ∃ v, c.theta0 = .fin v
  dtheta : ∃ v, c.dtheta = .fin v
  length : ∃ v, c.length = .fin v

theorem HasArc.defined {a : Arc} (h : HasArc c a) : ArcDefined c :=
  ⟨⟨⟨_, h.xc⟩, ⟨_, h.yc⟩⟩, ⟨_, h.theta0⟩, ⟨_, h.dtheta⟩, ⟨_, h.length⟩⟩

/-- A radius that fits the chord describes an arc. -/
theorem exists_arcOf_radius (ha : c.type.IsArc)
    (hnz : DataArith.nonzero (ownWord 'R' line : XReal) = true)
    (hfits : FitsRadius (ownWord 'R' line) (Block.origin m prev) c.target) :
    ∃ a, ArcOf c.type (Block.origin m prev) c.target (ownWord 'R' line) (ownWord 'I' line)
      (ownWord 'J' line) a := by
  obtain ⟨v, _, _, z0, _, _, z, hR, h0, ht, x0, y0, x, y, rfl, rfl, rfl, rfl, hd, hle⟩ := hfits
  rw [hR, nonzero_def] at hnz
  exact ⟨_, .radius hnz hd hle ha hR h0 ht⟩

/-- An accepted arc whose radius does not fit its chord. -/
theorem undefined_of_parse (hb : Block.Constructed line prev b)
    (h : (Block.parse m prev).run b = .ok () c) (ha : c.type.IsArc)
    (hnz : DataArith.nonzero (ownWord 'R' line : XReal) = true)
    (hno : ¬ FitsRadius (ownWord 'R' line) (Block.origin m prev) c.target) :
    c.center.x = some .nan ∧ c.center.y = some .nan ∧ c.theta0 = .nan ∧ c.dtheta = .nan ∧
      c.length = .nan := by
  obtain ⟨x0, y0, z0, x, y, z, r, xc, yc, h0, ht, hcen, hst⟩ := Block.arc_of_parse hb h ha
  rw [Block.CenterOf, if_pos hnz] at hcen
  obtain ⟨rfl, hc⟩ := hcen
  obtain ⟨v, hv⟩ := Block.exists_fin_of_valid hst.valid
  rw [hv, nonzero_def] at hnz
  rw [hv] at hc hst
  have hnan : Block.radiusCenter c.type (.fin v) x0 y0 x y (x - x0) (y - y0) = (.nan, .nan) := by
    rcases radiusCenter_cases c.type hnz x0 y0 x y with ⟨_, _, _, _, hx0, hy0, hx, hy, hd, hle, -⟩ | ⟨-, hc'⟩
    · exact absurd ⟨v, _, _, _, _, _, _, hv, h0, ht, _, _, _, _, hx0, hy0, hx, hy, hd, hle⟩ hno
    · exact hc'
  cases hc.trans hnan
  have hθ0 : c.theta0 = .nan := by
    rw [hst.theta0, sub_nan, sub_nan]
    rfl
  have hdθ : c.dtheta = .nan := by
    rw [hst.dtheta, hθ0]
    rcases sweep_cases c.type (.inl rfl) (atan2_cases (y - .nan) (x - .nan)) with
      ⟨_, _, h, -⟩ | h
    · cases h
    · exact h
  refine ⟨hst.center.1, hst.center.2, hθ0, hdθ, ?_⟩
  rw [hst.length, hdθ]
  show Lib.XReal.abs (Lib.XReal.mul .nan (.fin v)) = _
  simp [Lib.XReal.mul, Lib.XReal.sign, Lib.XReal.infOf, Lib.XReal.abs]

/-- An accepted arc with a radius has a chord that the radius fits, and a centre, angles and a
length that are numbers, exactly where no line is read whose radius does not fit: the only
check is that the radius itself is a number. -/
theorem radius_checked_iff (hb : Block.Constructed line prev b) (ha : (typeCode line).IsArc)
    (hnz : DataArith.nonzero (ownWord 'R' line : XReal) = true) :
    (∀ c, (Block.parse m prev).run b = .ok () c →
      FitsRadius (ownWord 'R' line) (Block.origin m prev) c.target ∧ ArcDefined c) ↔
    (Readable m prev line → (∃ v, (ownWord 'R' line : XReal) = .fin v) →
      FitsRadius (ownWord 'R' line) (Block.origin m prev) (ownTarget m prev line)) := by
  constructor
  · rintro hall hread ⟨v, hv⟩
    have hacc := (acceptable_radius_iff ha hnz).mpr ⟨hread, by rw [hv]; exact ⟨rfl, rfl⟩⟩
    obtain ⟨c, h⟩ := hb.exists_parse_iff.mpr hacc
    rw [← target_of_parse hb h]
    exact (hall c h).1
  · intro hcond c h
    obtain ⟨hread, hv⟩ := (acceptable_radius_iff ha hnz).mp (hb.exists_parse_iff.mp ⟨c, h⟩)
    have hfits := hcond hread (Block.exists_fin_of_valid hv)
    rw [← target_of_parse hb h] at hfits
    have harc : c.type.IsArc := by rw [Block.type_of_parse hb h]; exact ha
    obtain ⟨a, ha⟩ := exists_arcOf_radius harc hnz hfits
    exact ⟨hfits, (hasArc_of_parse hb h ha).defined⟩

end Radius

/-! ## Arcs in the plane -/

section Lines

variable {m : Machine XReal} {prev : Option (Block XReal)} {line : Line} {b : Block XReal}
  {type : BlockType} {x y : ℚ} {x0 y0 z0 : ℝ}

/-- The line of an arc to `(x, y)`, without a number. -/
structure ArcLine (line : Line) (type : BlockType) (x y : ℚ) : Prop where
  words : ∀ t ∈ commands line, IsWord t
  number : ∀ t ∈ commands line, sizeWord 'N' t = none
  code : typeCode line = type
  arc : type.IsArc
  x : lastOf (numeralWord 'X') (commands line) = some (.finite x)
  y : lastOf (numeralWord 'Y') (commands line) = some (.finite y)
  z : lastOf (numeralWord 'Z') (commands line) = none

theorem ownWord_finite (line : Line) (a : Char) (q : ℚ)
    (h : lastOf (numeralWord a) (commands line) = some (.finite q)) :
    (ownWord a line : XReal) = .fin q := by
  simp [ownWord, lastOf_dataWord, h, ofNumeral]

theorem ArcLine.isArc (hl : ArcLine line type x y) : (typeCode line).IsArc := by
  rw [hl.code]
  exact hl.arc

theorem ArcLine.target (hl : ArcLine line type x y)
    (h0 : Block.origin m prev = .ofCoords (.fin x0) (.fin y0) (.fin z0)) :
    ownTarget m prev line = .ofCoords (.fin x) (.fin y) (.fin z0) := by
  rw [ownTarget_eq h0, lastOf_dataWord, lastOf_dataWord, lastOf_dataWord, hl.x, hl.y, hl.z]
  rfl

theorem ArcLine.readable (hl : ArcLine line type x y)
    (h0 : Block.origin m prev = .ofCoords (.fin x0) (.fin y0) (.fin z0)) :
    Readable m prev line := by
  refine ⟨hl.words, fun o _ t ht n hn => ?_, _, _, _, h0⟩
  rw [hl.number t ht] at hn
  cases hn

/-- Nothing differs by more than an error that is not known. -/
theorem not_missed_nan {p0 p : Point XReal} {I J : XReal} : ¬ Missed .nan p0 p I J := by
  rintro ⟨_, _, _, _, _, _, -, -, hlt⟩
  cases hlt

/-- As long as no position was received every centre that is a point is accepted. -/
theorem ArcLine.exists_center (hl : ArcLine line type x y) (hb : Block.Constructed line prev b)
    (h0 : Block.origin m prev = .ofCoords (.fin x0) (.fin y0) (.fin z0)) (hm : m.error = .nan)
    (hR : ∀ t ∈ commands line, letter t ≠ 'R') {i j : ℝ} (hI : (ownWord 'I' line : XReal) = .fin i)
    (hJ : (ownWord 'J' line : XReal) = .fin j) :
    ∃ c, (Block.parse m prev).run b = .ok () c ∧ c.type = type ∧
      c.target = .ofCoords (.fin x) (.fin y) (.fin z0) := by
  have hnz : ¬ DataArith.nonzero (ownWord 'R' line : XReal) = true := by
    rw [ownWord_absent hR]
    simp
  have hacc := (acceptable_center_iff hl.isArc hnz).mpr ⟨hl.readable h0,
    by rw [hI, hJ]; exact ⟨rfl, rfl⟩, by rw [hm]; exact not_missed_nan⟩
  obtain ⟨c, h⟩ := hb.exists_parse_iff.mpr hacc
  exact ⟨c, h, (Block.type_of_parse hb h).trans hl.code,
    (target_of_parse hb h).trans (hl.target h0)⟩

/-- A radius that is a number is accepted for every chord. -/
theorem ArcLine.exists_radius (hl : ArcLine line type x y) (hb : Block.Constructed line prev b)
    (h0 : Block.origin m prev = .ofCoords (.fin x0) (.fin y0) (.fin z0)) {R : ℝ}
    (hR : (ownWord 'R' line : XReal) = .fin R) (hR0 : R ≠ 0) :
    ∃ c, (Block.parse m prev).run b = .ok () c ∧ c.type = type ∧
      c.target = .ofCoords (.fin x) (.fin y) (.fin z0) := by
  have hnz : DataArith.nonzero (ownWord 'R' line : XReal) = true := by
    rw [hR, nonzero_def]
    exact hR0
  have hacc := (acceptable_radius_iff hl.isArc hnz).mpr ⟨hl.readable h0, by rw [hR]; exact ⟨rfl, rfl⟩⟩
  obtain ⟨c, h⟩ := hb.exists_parse_iff.mpr hacc
  exact ⟨c, h, (Block.type_of_parse hb h).trans hl.code,
    (target_of_parse hb h).trans (hl.target h0)⟩

theorem arcLine_quarter : ArcLine Block.quarterLine .cwa 1 1 := by
  constructor <;> decide +kernel

/-- The quarter turn ends at its target. -/
theorem ends_within_iff_quarter : ∃ c : Block XReal,
    (Block.parse .default none).run (Block.ofLine 0 Block.quarterLine) = .ok () c ∧
      EndsWithin .default none c := by
  have hl := arcLine_quarter
  have hR : ∀ t ∈ commands Block.quarterLine, letter t ≠ 'R' := by decide +kernel
  obtain ⟨-, hI, hJ⟩ := Block.turnWords_quarter.own
  obtain ⟨c, h, -, -⟩ := hl.exists_center (.first 0) origin_default rfl hR hI hJ
  refine ⟨c, h, ((ends_within_iff (.first 0) hl.isArc hR).mpr (fun _ _ => .inr ?_) c h).1⟩
  rw [hl.target origin_default, hI, hJ]
  refine ⟨0, 0, _, _, _, _, origin_default, rfl, by simp, by simp, ?_⟩
  simp [Machine.default]
  norm_num

/-- From `(0, 0)` to `(10, 0)` around `(1, 0)`. -/
def missedLine : Line := "G2 X10 Y0 I1 J0 F100".toList

theorem arcLine_missed : ArcLine missedLine .cwa 10 0 := by
  constructor <;> decide +kernel

/-- Before any position was received an arc is accepted that ends 8 mm off its target. -/
theorem accepts_missed : (∀ t ∈ commands missedLine, letter t ≠ 'R') ∧ ∃ c : Block XReal,
    (Block.parse .default none).run (Block.ofLine 0 missedLine) = .ok () c ∧ c.type = .cwa ∧
      Missed (DataArith.num (5 / 1000)) (Block.origin .default none) c.target (.fin 1) (.fin 0) ∧
      ¬ EndsWithin .default none c := by
  have hR : ∀ t ∈ commands missedLine, letter t ≠ 'R' := by decide +kernel
  have hI := ownWord_finite missedLine 'I' 1 (by decide +kernel)
  have hJ := ownWord_finite missedLine 'J' 0 (by decide +kernel)
  rw [Rat.cast_one] at hI
  rw [Rat.cast_zero] at hJ
  obtain ⟨c, h, hty, htgt⟩ :=
    arcLine_missed.exists_center (.first 0) origin_default rfl hR hI hJ
  have hmiss : Missed (DataArith.num (5 / 1000)) (Block.origin .default none) c.target
      (.fin 1 : XReal) (.fin 0) := by
    refine ⟨_, _, _, _, _, _, origin_default, htgt, ?_⟩
    simp
    norm_num
  refine ⟨hR, c, h, hty, hmiss, fun hend => ?_⟩
  have hreach := (endsWithin_iff_reach (.first 0) h (.inl hty) (ownWord_absent hR)).mp hend
  rw [hI, hJ] at hreach
  exact hreach.not_missed hmiss

theorem fitsRadius_default_iff {R x : ℝ} (z : XReal) :
    FitsRadius (.fin R) (Block.origin .default none) (.ofCoords (.fin x) (.fin 0) z) ↔
      0 < |x| ∧ |x| ≤ 2 * |R| := by
  have hc : chord 0 0 x 0 = |x| := by
    rw [chord, sub_self, sub_zero, ← Real.sqrt_sq_eq_abs]
    simp
  rw [origin_default]
  constructor
  · rintro ⟨_, _, _, _, _, _, _, hR, hp0, hp, _, _, _, _, hx0, hy0, hx, hy, hd, hle⟩
    cases hR
    cases hp0
    cases hp
    cases hx0
    cases hy0
    cases hx
    cases hy
    rw [hc] at hd hle
    exact ⟨hd, hle⟩
  · rintro ⟨hd, hle⟩
    rw [← hc] at hd hle
    exact ⟨R, _, _, _, _, _, _, rfl, rfl, rfl, 0, 0, x, 0, rfl, rfl, rfl, rfl, hd, hle⟩

/-- Half a turn from `(0, 0)` to `(10, 0)`. -/
def diameterLine : Line := "G2 X10 Y0 R5 F100".toList

theorem arcLine_diameter : ArcLine diameterLine .cwa 10 0 := by
  constructor <;> decide +kernel

theorem radius_diameter : (ownWord 'R' diameterLine : XReal) = .fin 5 := by
  have hR := ownWord_finite diameterLine 'R' 5 (by decide +kernel)
  rwa [Rat.cast_ofNat] at hR

theorem radius_checked_iff_diameter : ∃ c : Block XReal,
    (Block.parse .default none).run (Block.ofLine 0 diameterLine) = .ok () c ∧
      FitsRadius (.fin 5) (Block.origin .default none) c.target ∧ ArcDefined c := by
  have hl := arcLine_diameter
  have hR := radius_diameter
  obtain ⟨c, h, -, -⟩ := hl.exists_radius (.first 0) origin_default hR (by norm_num)
  have hnz : DataArith.nonzero (ownWord 'R' diameterLine : XReal) = true := by
    rw [hR, nonzero_def]
    norm_num
  have hfits := (radius_checked_iff (.first 0) hl.isArc hnz).mpr (fun _ _ => by
    rw [hR, hl.target origin_default, Rat.cast_zero, fitsRadius_default_iff]
    norm_num) c h
  rw [hR] at hfits
  exact ⟨c, h, hfits⟩

/-- From `(0, 0)` to `(10, 0)` on a circle of radius 1. -/
def farLine : Line := "G2 X10 Y0 R1 F100".toList

theorem arcLine_far : ArcLine farLine .cwa 10 0 := by
  constructor <;> decide +kernel

/-- An arc is accepted that has neither a centre nor a length. -/
theorem accepts_far : (ownWord 'R' farLine : XReal) = .fin 1 ∧ ∃ c : Block XReal,
    (Block.parse .default none).run (Block.ofLine 0 farLine) = .ok () c ∧ c.type = .cwa ∧
      ¬ FitsRadius (.fin 1) (Block.origin .default none) c.target ∧ ¬ ArcDefined c ∧
      c.center.x = some .nan ∧ c.length = .nan := by
  have hR := ownWord_finite farLine 'R' 1 (by decide +kernel)
  rw [Rat.cast_one] at hR
  obtain ⟨c, h, hty, htgt⟩ :=
    arcLine_far.exists_radius (.first 0) origin_default hR one_ne_zero
  have hno : ¬ FitsRadius (.fin 1) (Block.origin .default none) c.target := by
    rw [htgt, Rat.cast_zero, fitsRadius_default_iff]
    norm_num
  obtain ⟨hx, -, -, -, hlen⟩ := undefined_of_parse (.first 0) h (.inl hty)
    (by rw [hR]; simp) (by rw [hR]; exact hno)
  refine ⟨hR, c, h, hty, hno, fun hdef => ?_, hx, hlen⟩
  obtain ⟨v, hv⟩ := hdef.length
  cases hlen.symm.trans hv

end Lines

end

end Cncpp
