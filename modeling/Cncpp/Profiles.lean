import Cncpp.Definedness

/-! The profiles of the blocks of a program: which of them are well defined, and
which of them keep to the maximum feedrate of the machine.  Both are read off the
text of the program. -/

namespace Cncpp

open DataArith Lib XReal

noncomputable section

/-! ## The path of a line of a program -/

/-- The path that a block covers, and its feed in mm/s: from its type, its start and
target, its words R, I and J, and its feedrate. -/
inductive LegOf (type : BlockType) (p0 p : Point XReal) (R I J F : XReal) (G : Leg) : XReal → Prop
  | line {x0 y0 z0 x y z : ℝ} : type = .line →
      p0 = .ofCoords (.fin x0) (.fin y0) (.fin z0) → p = .ofCoords (.fin x) (.fin y) (.fin z) →
      G.l = √((x - x0) ^ 2 + (y - y0) ^ 2 + (z - z0) ^ 2) →
      LegOf type p0 p R I J F G (F / num 60)
  | arc {a : Arc} : ArcOf type p0 p R I J a → G.l = a.length →
      LegOf type p0 p R I J F G (DataArith.min F (.fin (arcFeed G.A a.r)) / num 60)

/-- The path and the feed of a line behind a text. -/
structure LegAt (m : Machine XReal) (text : List Line) (line : Line) (G : Leg) (fM : XReal) :
    Prop where
  A : m.A = .fin G.A
  tq : m.tq = .fin G.tq
  leg : LegOf (typeCode line) (modalTarget m text) (modalTarget m (text ++ [line]))
    (ownWord 'R' line) (ownWord 'I' line) (ownWord 'J' line) (modalWord 'F' (text ++ [line])) G fM

section Block

variable {m : Machine XReal} {text : List Line} {line : Line} {c : Block XReal} {G : Leg}
  {fM : XReal}

/-- What `parse` stores of the path. -/
structure HasLeg (m : Machine XReal) (c : Block XReal) (G : Leg) (fM : XReal) : Prop where
  length : c.length = .fin G.l
  acc : c.acc = .fin G.A
  feed : c.arcFeedrate / num 60 = fM
  parsed : c.parsed = true
  profile : c.profile = Block.motionProfile m (.fin G.l) (.fin G.A) fM

theorem HasLeg.profile_law (h : HasLeg m c G fM) (htq : m.tq = .fin G.tq)
    (hfit : FeedFits G fM) : c.profile = ofLaw (G.lawOf fM) (G.lawOf fM).duration :=
  h.profile.trans (motionProfile_fits htq hfit)

theorem hasLeg_of_madeFrom (h : MadeFrom m text line c) (ht : c.type.Interpolated)
    (hG : LegAt m text line G fM) : HasLeg m c G fM := by
  have hmod := h.modal
  have hty := h.type_eq
  obtain ⟨hA, htq, hleg⟩ := hG
  cases h with
  | @mk prev b c next hb hcar h =>
    obtain ⟨hpar, hacc, hprof, haf⟩ := Block.profile_of_parse h ht
    have hF : c.feedrate = modalWord 'F' (text ++ [line]) := hmod.feedrate
    have hty : c.type = typeCode line := hty
    have htgt : c.target = modalTarget m (text ++ [line]) := hmod.target
    have hkey : c.length = .fin G.l ∧ c.arcFeedrate / num 60 = fM := by
      cases hleg with
      | @line x0 y0 z0 x y z htl hp0 hp hl =>
        obtain ⟨x0', y0', z0', x', y', z', h0, h1, -, -, hlen⟩ := Block.points_of_parse h
        rw [Block.origin_of_carried hcar] at h0
        cases hp0.symm.trans h0
        cases hp.symm.trans (htgt.symm.trans h1)
        have hl1 : c.type = .line := hty.trans htl
        refine ⟨?_, ?_⟩
        · rw [hlen (by rw [hl1]; decide), sub_def, sub_def, sub_def, hypot3_def, hl]
        · rw [haf, if_pos hl1, hF]
      | @arc a ha hl =>
        rw [← hty, ← htgt, ← Block.origin_of_carried hcar] at ha
        have hst := hasArc_of_parse hb h ha
        have hne : c.type ≠ .line := by
          have harc : c.type.IsArc := by cases ha <;> assumption
          rcases harc with harc | harc <;> rw [harc] <;> decide
        refine ⟨by rw [hst.length, hl], ?_⟩
        rw [haf, if_neg hne, hF, hA, hst.r, arcLimit_fin G.A_pos a.r_pos.le]
    refine ⟨hkey.1, hacc.trans hA, hkey.2, hpar, hprof.trans ?_⟩
    rw [hkey.1, hacc, hA, hkey.2]

/-- The centre of an arc that its inputs describe is found without failing. -/
theorem radiusDefined_of_arcOf {type : BlockType} {R I J x0 y0 z0 x y z : XReal} {a : Arc}
    (h : ArcOf type (.ofCoords x0 y0 z0) (.ofCoords x y z) R I J a)
    (hR : DataArith.nonzero R = true) : RadiusDefined R (x - x0) (y - y0) := by
  cases h with
  | @radius R' x0' y0' x' y' z0' z' hne hd hle hty hRw hp0 hp =>
    cases hp0
    cases hp
    have hch : (DataArith.hypot (.fin x' - .fin x0') (.fin y' - .fin y0') : XReal) =
        .fin (chord x0' y0' x' y') := by
      rw [sub_def, sub_def]
      rfl
    rw [RadiusDefined, hRw, hch, sq_fin, sq_fin, num_def, num_def, Rat.cast_ofNat,
      div_of_ne (by norm_num), sub_def]
    refine ⟨(nonzero_def _).mpr hd.ne', ?_⟩
    rw [Bool.eq_false_iff, Ne, lt_def, Rat.cast_zero, not_lt, ← sq_abs R']
    nlinarith [abs_nonneg R']
  | center hr hθ hturn hty hRw hI hJ hp0 hp hat =>
    rw [hRw] at hR
    exact absurd rfl ((nonzero_def 0).mp hR)

theorem profileDefined_of_fits (h : MadeFrom m text line c) (ht : c.type.Interpolated)
    (hG : LegAt m text line G fM) (hfit : FeedFits G fM) : ProfileDefined m line c := by
  obtain ⟨hlen, hacc, hfeed, -, hprof⟩ := hasLeg_of_madeFrom h ht hG
  have hlaw := motionProfile_fits hG.tq hfit
  refine ⟨fun harc hR dx dy dz hdelta => ?_, ?_, fun t => ?_⟩
  · have hty := h.type_eq
    have hmod := h.modal
    cases h with
    | @mk prev b c next hb hcar h =>
      have hdelta : c.delta = .ofCoords dx dy dz := hdelta
      obtain ⟨x0, y0, z0, x, y, z, h0, h1, hd, -, -⟩ := Block.points_of_parse h
      have htgt : c.target = modalTarget m (text ++ [line]) := hmod.target
      cases hd.symm.trans hdelta
      cases hG.leg with
      | line htl _ _ _ => exact absurd harc (by rw [hty, htl]; decide)
      | arc ha _ =>
        rw [← Block.origin_of_carried hcar, h0, ← htgt, h1] at ha
        exact radiusDefined_of_arcOf ha hR
  · rw [hlen, hacc, hfeed]
    exact computeDefined_fits hG.tq hfit
  · rw [hprof, hlaw]
    exact lambdaDefined_ofLaw _ _ t

/-- A block with a well-defined profile covers a path. -/
theorem exists_legAt {A tq : ℝ} (h : MadeFrom m text line c) (ht : c.type.Interpolated)
    (hA : m.A = .fin A) (hA0 : 0 < A) (htq : m.tq = .fin tq) (htq0 : 0 < tq)
    (hd : ProfileDefined m line c) : ∃ G fM, LegAt m text line G fM := by
  have hty := h.type_eq
  have hmod := h.modal
  obtain ⟨-, -, hlam⟩ := hd
  cases h with
  | @mk prev b c next hb hcar h =>
    have ht : c.type.Interpolated := ht
    have hty : c.type = typeCode line := hty
    have htgt : c.target = modalTarget m (text ++ [line]) := hmod.target
    obtain ⟨-, -, hprof, -⟩ := Block.profile_of_parse h ht
    obtain ⟨x0, y0, z0, x, y, z, h0, h1, -, -, hlen⟩ := Block.points_of_parse h
    have hpl : c.profile.l = c.length := by rw [hprof, motionProfile_l]
    rcases ht with hl1 | harc
    · have hlen := hlen (by rw [hl1]; decide)
      obtain ⟨l, hl, hl0⟩ := length_pos_of_lambda (hlam .posInf) (by
        intro l hl
        obtain ⟨_, _, _, _, _, _, rfl⟩ := hypot3_eq_fin (hlen.symm.trans (hpl.symm.trans hl))
        exact Real.sqrt_nonneg _)
      obtain ⟨dx, dy, dz, hdx, hdy, hdz, hle⟩ :=
        hypot3_eq_fin (hlen.symm.trans (hpl.symm.trans hl))
      obtain ⟨x, x0, rfl, rfl, rfl⟩ := sub_eq_fin hdx
      obtain ⟨y, y0, rfl, rfl, rfl⟩ := sub_eq_fin hdy
      obtain ⟨z, z0, rfl, rfl, rfl⟩ := sub_eq_fin hdz
      refine ⟨⟨l, A, tq, hl0, hA0, htq0⟩, _, hA, htq, .line (hty.symm.trans hl1) ?_ ?_ hle⟩
      · rw [← Block.origin_of_carried hcar]
        exact h0
      · rw [← htgt]
        exact h1
    · obtain ⟨_, _, _, _, _, _, r, xc, yc, -, -, -, hst⟩ := Block.arc_of_parse hb h harc
      obtain ⟨l, hl, hl0⟩ := length_pos_of_lambda (hlam .posInf) (by
        intro l hl
        obtain ⟨_, -, rfl⟩ := fabs_eq_fin (hst.length.symm.trans (hpl.symm.trans hl))
        exact abs_nonneg _)
      obtain ⟨a, ha⟩ := exists_arcOf hb h harc (hpl.symm.trans hl) hl0
      have hal : l = a.length := by
        have := (hasArc_of_parse hb h ha).length.symm.trans (hpl.symm.trans hl)
        injection this with this
        exact this.symm
      refine ⟨⟨l, A, tq, hl0, hA0, htq0⟩, _, hA, htq, .arc ?_ hal⟩
      rw [← hty, ← Block.origin_of_carried hcar, ← htgt]
      exact ha

theorem profileDefined_iff {A tq : ℝ} (h : MadeFrom m text line c) (ht : c.type.Interpolated)
    (hA : m.A = .fin A) (hA0 : 0 < A) (htq : m.tq = .fin tq) (htq0 : 0 < tq) :
    ProfileDefined m line c ↔ ∃ G fM, LegAt m text line G fM ∧ FeedFits G fM := by
  constructor
  · intro hd
    obtain ⟨G, fM, hG⟩ := exists_legAt h ht hA hA0 htq htq0 hd
    obtain ⟨hlen, hacc, hfeed, -, hprof⟩ := hasLeg_of_madeFrom h ht hG
    obtain ⟨-, hcomp, hlam⟩ := hd
    rw [hlen, hacc, hfeed] at hcomp
    rw [hprof] at hlam
    exact ⟨G, fM, hG, feedFits_of_defined hG.tq hcomp hlam⟩
  · rintro ⟨G, fM, hG, hfit⟩
    exact profileDefined_of_fits h ht hG hfit

end Block

/-! ## The maximum feedrate -/

/-- The highest speed of a block, in mm/s. -/
def Leg.peak (G : Leg) : XReal → ℝ
  | .fin f =>
    if 0 < f ∧ f ^ 2 < G.l * G.A then G.l / (G.l / f + slack G.tq (G.l / f + f / G.A))
    else 2 * G.l / (2 * √(G.l / G.A) + slack G.tq (2 * √(G.l / G.A)))
  | _ => 2 * G.l / (2 * √(G.l / G.A) + slack G.tq (2 * √(G.l / G.A)))

theorem Leg.lawOf_v (G : Leg) (fM : XReal) : (G.lawOf fM).v = G.peak fM := by
  cases fM with
  | fin f =>
    rw [Leg.lawOf, Leg.peak]
    by_cases hf : 0 < f
    · by_cases hlong : f ^ 2 < G.l * G.A
      · rw [dif_pos hf, if_pos ⟨hf, hlong⟩, Leg.law, dif_pos hlong]
        rfl
      · rw [dif_pos hf, if_neg (fun h => hlong h.2), Leg.law, dif_neg hlong]
        rfl
    · rw [dif_neg hf, if_neg (fun h => hf h.1)]
      rfl
  | posInf => rfl
  | negInf => rfl
  | nan => rfl

theorem le_of_le_fin {a b : ℝ} (h : a ≤ b) {v : XReal} (hb : DataArith.le (.fin b) v = true) :
    DataArith.le (.fin a) v = true := by
  cases v with
  | fin v => exact (le_def a v).mpr (h.trans ((le_def b v).mp hb))
  | posInf => rfl
  | negInf => cases hb
  | nan => cases hb

/-- The speeds that a block reports stay below a bound if its highest speed does. -/
theorem speeds_le_iff {m : Machine XReal} {c : Block XReal} {G : Leg} {fM : XReal}
    (h : HasLeg m c G fM) (htq : m.tq = .fin G.tq) (hfit : FeedFits G fM) (v : XReal) :
    (∀ t s, c.lambda t = .ok s → DataArith.le s.speed v = true) ↔
      DataArith.le (.fin (G.peak fM * 60)) v = true := by
  have hprof := h.profile_law htq hfit
  have hsp : ∀ t, (c.profile.lambda (.fin t)).speed = .fin ((G.lawOf fM).speed t * 60) := by
    intro t
    rw [hprof, Profile.lambda, phase_ofLaw]
    simp
  rw [← G.lawOf_v fM]
  constructor
  · intro hall
    have hpeak := hall (.fin (G.lawOf fM).t1) _ (if_pos h.parsed)
    rw [hsp, (G.lawOf fM).speed_peak] at hpeak
    exact hpeak
  · intro hpeak t s hs
    rw [Block.lambda, if_pos h.parsed] at hs
    cases hs
    obtain ⟨t', ht'⟩ := phase_real_time (G.lawOf fM) (G.lawOf fM).duration t
    have hspeed : (c.profile.lambda t).speed = .fin ((G.lawOf fM).speed t' * 60) := by
      rw [← hsp t', hprof, Profile.lambda, Profile.lambda, ht']
    rw [hspeed]
    refine le_of_le_fin ?_ hpeak
    linarith [(G.lawOf fM).speed_le t']

/-! ## Programs -/

section Programs

variable {m : Machine XReal} {p : Program XReal} {es : List Edit} {i : ℕ} {line : Line}
  {c : Block XReal} {A tq : ℝ}

/-- A file of one line that is accepted. -/
theorem exists_single (m : Machine XReal) (file : String) (line : Line)
    (hcode : Program.isCode line = true)
    (hw : ∀ t ∈ commands line, IsWord t ∧ letter t ≠ 'N')
    (ht : (lastOf typeWord (commands line)).getD .noMotion ∉ [BlockType.cwa, .ccwa]) :
    ∃ (p : Program XReal) (c : Block XReal),
      Run (Edited m) Program.empty [.load file (some [line]) false] p ∧
        p.blocks[0]? = some c ∧ MadeFrom m [] line c := by
  have hf : [line].filter Program.isCode = [line] := List.filter_singleton ▸ by simp [hcode]
  obtain ⟨p, hp⟩ := exists_load (K := XReal) m file [line]
    (by rw [hf]; simpa using hw) (by rw [hf]; simpa using ht)
  obtain ⟨c, hc, hmade⟩ := (blocks_of_load hp).2 0 line (by rw [hf]; rfl)
  exact ⟨p, c, .single hp, hc, hmade⟩

/-- A position on the first axis of the default machine. -/
theorem modalTarget_along {text : List Line} {x : ℚ}
    (hx : lastOf (numeralWord 'X') (wordsOf text) = some (.finite x))
    (hy : lastOf (numeralWord 'Y') (wordsOf text) = none)
    (hz : lastOf (numeralWord 'Z') (wordsOf text) = none) :
    modalTarget (Machine.default : Machine XReal) text = .ofCoords (.fin x) (.fin 0) (.fin 0) := by
  simp only [modalTarget, lastOf_dataWord, hx, hy, hz]
  simp [Machine.default, Point.ofCoords, ofNumeral]

/-- A straight line along the first axis, on the default machine. -/
theorem legAt_along {text : List Line} {line : Line} {x0 x : ℝ} {F : ℚ} (hx : 0 < x - x0)
    (ht : typeCode line = .line)
    (h0 : modalTarget (Machine.default : Machine XReal) text =
      .ofCoords (.fin x0) (.fin 0) (.fin 0))
    (h1 : modalTarget (Machine.default : Machine XReal) (text ++ [line]) =
      .ofCoords (.fin x) (.fin 0) (.fin 0))
    (hF : lastOf (numeralWord 'F') (wordsOf (text ++ [line])) = some (.finite F)) :
    LegAt Machine.default text line ⟨x - x0, 5, 1 / 1000, hx, by norm_num, by norm_num⟩
      (.fin (F / 60)) := by
  have hfeed : (modalWord 'F' (text ++ [line]) / num 60 : XReal) = .fin (F / 60) := by
    rw [modalWord, lastOf_dataWord, hF]
    simp [ofNumeral]
  exact ⟨default_limits.1, default_limits.2,
    hfeed ▸ .line ht h0 h1 (by simp [Real.sqrt_sq hx.le])⟩

/-- A straight line from the reference point. -/
theorem legAt_default (line : Line) {x F : ℚ} (hx0 : 0 < (x : ℝ)) (ht : typeCode line = .line)
    (hx : lastOf (numeralWord 'X') (commands line) = some (.finite x))
    (hy : lastOf (numeralWord 'Y') (commands line) = none)
    (hz : lastOf (numeralWord 'Z') (commands line) = none)
    (hF : lastOf (numeralWord 'F') (commands line) = some (.finite F)) :
    LegAt Machine.default [] line ⟨x, 5, 1 / 1000, hx0, by norm_num, by norm_num⟩
      (.fin (F / 60)) := by
  have hw : wordsOf ([] ++ [line]) = commands line := by simp [wordsOf]
  have h0 : modalTarget (Machine.default : Machine XReal) [] =
      .ofCoords (.fin 0) (.fin 0) (.fin 0) := by
    simp [modalTarget, wordsOf, Machine.default, Point.ofCoords]
  rw [← hw] at hx hy hz hF
  have hleg := legAt_along (by simpa using hx0) ht h0 (modalTarget_along hx hy hz) hF
  simp only [sub_zero] at hleg
  exact hleg

/-- A file of one straight line on the default machine, and its path. -/
theorem exists_sample_leg : ∃ (p : Program XReal) (c : Block XReal) (G : Leg),
    Run (Edited Machine.default) Program.empty [.load "part.g" (some [sampleLine]) false] p ∧
      p.blocks[0]? = some c ∧ MadeFrom Machine.default [] sampleLine c ∧ c.type = .line ∧
      LegAt Machine.default [] sampleLine G (.fin ((100 : ℚ) / 60)) ∧
      FeedFits G (.fin ((100 : ℚ) / 60)) := by
  obtain ⟨p, c, hr, hc, hmade⟩ := exists_single Machine.default "part.g" sampleLine
    (by decide +kernel) (by decide +kernel) (by decide +kernel)
  have ht : c.type = .line := hmade.type_eq.trans (by decide +kernel)
  have hleg := legAt_default sampleLine (x := 10) (F := 100) (by norm_num)
    (by decide +kernel) (by decide +kernel) (by decide +kernel) (by decide +kernel)
    (by decide +kernel)
  exact ⟨p, c, _, hr, hc, hmade, ht, hleg,
    .inl ⟨100 / 60, by norm_num, by norm_num, by norm_num, by norm_num⟩⟩

/-- The speed of a block with a well-defined profile stays within the maximum
feedrate of the machine exactly when the highest speed of its path does; nothing
else keeps it there. -/
theorem speed_within_fmax_iff (hr : Run (Edited m) Program.empty es p)
    (hA : m.A = .fin A) (hA0 : 0 < A) (htq : m.tq = .fin tq) (htq0 : 0 < tq)
    (hl : (textOf es)[i]? = some line) (hc : p.blocks[i]? = some c) (ht : c.type.Interpolated)
    (hd : ProfileDefined m line c) :
    ∃ G fM, LegAt m ((textOf es).take i) line G fM ∧
      ((∀ t s, c.lambda t = .ok s → DataArith.le s.speed m.fmax = true) ↔
        DataArith.le (.fin (G.peak fM * 60)) m.fmax = true) := by
  have hmade := madeFrom_of_edits hr hl hc
  obtain ⟨G, fM, hG, hfit⟩ := (profileDefined_iff hmade ht hA hA0 htq htq0).mp hd
  exact ⟨G, fM, hG, speeds_le_iff (hasLeg_of_madeFrom hmade ht hG) hG.tq hfit m.fmax⟩

theorem speed_within_fmax_iff_sample : ∃ (p : Program XReal) (c : Block XReal),
    Run (Edited Machine.default) Program.empty [.load "part.g" (some [sampleLine]) false] p ∧
      p.blocks[0]? = some c ∧ ∃ G fM, LegAt Machine.default [] sampleLine G fM ∧
      ((∀ t s, c.lambda t = .ok s → DataArith.le s.speed (.fin 10000) = true) ↔
        DataArith.le (.fin (G.peak fM * 60)) (.fin 10000 : XReal) = true) := by
  obtain ⟨p, c, G, hr, hc, hmade, ht, hleg, hfit⟩ := exists_sample_leg
  obtain ⟨hA, htq⟩ := default_limits
  have hd : ProfileDefined Machine.default sampleLine c :=
    profileDefined_of_fits hmade (.inl ht) hleg hfit
  have hmax : (Machine.default : Machine XReal).fmax = .fin 10000 := by simp [Machine.default]
  have hl : (textOf [.load "part.g" (some [sampleLine]) false])[0]? = some sampleLine := by
    decide +kernel
  have h := speed_within_fmax_iff hr hA (by norm_num) htq (by norm_num) hl hc (.inl ht) hd
  rw [hmax] at h
  exact ⟨p, c, hr, hc, h⟩

/-- A program for the default machine, whose maximum feedrate is 10000 mm/min. -/
theorem exceeds_fmax : ∃ (p : Program XReal) (c : Block XReal),
    Run (Edited Machine.default) Program.empty
        [.load "part.g" (some ["G1 X10000 F12000".toList]) false] p ∧
      p.blocks[0]? = some c ∧ c.type.Interpolated ∧
      ProfileDefined Machine.default "G1 X10000 F12000".toList c ∧
      ∃ t s, c.lambda t = .ok s ∧ DataArith.le s.speed Machine.default.fmax = false := by
  obtain ⟨p, c, hr, hc, hmade⟩ := exists_single Machine.default "part.g"
    "G1 X10000 F12000".toList (by decide +kernel) (by decide +kernel) (by decide +kernel)
  have ht : c.type = .line := hmade.type_eq.trans (by decide +kernel)
  have hleg := legAt_default "G1 X10000 F12000".toList (x := 10000) (F := 12000)
    (by norm_num) (by decide +kernel) (by decide +kernel) (by decide +kernel)
    (by decide +kernel) (by decide +kernel)
  have hfit : FeedFits ⟨(10000 : ℚ), 5, 1 / 1000, by norm_num, by norm_num, by norm_num⟩
      (.fin ((12000 : ℚ) / 60)) :=
    .inl ⟨12000 / 60, by norm_num, by norm_num, by norm_num, by norm_num⟩
  have hd : ProfileDefined Machine.default "G1 X10000 F12000".toList c :=
    profileDefined_of_fits hmade (.inl ht) hleg hfit
  refine ⟨p, c, hr, hc, .inl ht, hd, ?_⟩
  by_contra hno
  push Not at hno
  have hall := (speeds_le_iff (hasLeg_of_madeFrom hmade (.inl ht) hleg) hleg.tq hfit
    Machine.default.fmax).mp (fun t s hs => by simpa using hno t s hs)
  have hmax : (Machine.default : Machine XReal).fmax = .fin 10000 := by simp [Machine.default]
  rw [hmax, le_def, ← Leg.lawOf_v] at hall
  set G : Leg := ⟨(10000 : ℚ), 5, 1 / 1000, by norm_num, by norm_num, by norm_num⟩ with hG
  have hf : (0 : ℝ) < (12000 : ℚ) / 60 := by norm_num
  have hlong : (((12000 : ℚ) : ℝ) / 60) ^ 2 < G.l * G.A := by norm_num [hG]
  have hv := (G.trapezoid_v_mem hf hlong).1
  rw [Leg.lawOf, dif_pos hf, Leg.law, dif_pos hlong] at hall
  have hlow : (170 : ℝ) < ((12000 : ℚ) : ℝ) / 60 * G.l / (G.l + ((12000 : ℚ) : ℝ) / 60 * G.tq) := by
    norm_num [hG]
  linarith

end Programs

end

end Cncpp
