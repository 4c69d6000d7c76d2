import Cncpp.Lib.Run
import Cncpp.Block

/-! What the parser does to a block, word by word: one token that is accepted
updates the fields of its letter, and a line leaves in each field the last word
for it. -/

namespace Cncpp

open DataArith Lib Lib.ExceptState

/-! ## Words -/

/-- The command letter of a token; lower case counts as upper case. -/
def letter (t : Token) : Char := (t.headD ' ').toUpper

def isComment (t : Token) : Bool := letter t = '#' || letter t = ';'

/-- The tokens of a line before its comment. -/
def commands (line : Line) : List Token := (words line).takeWhile (!isComment ·)

/-- The integer of a word with the letter `c`. -/
def intWord (c : Char) (t : Token) : Option ℤ :=
  if letter t = c then (stoi t.tail).toOption else none

def sizeWord (c : Char) (t : Token) : Option ℕ := (intWord c t).map sizeT

/-- The type that a word stores: the words G and N both do. -/
def typeWord (t : Token) : Option BlockType :=
  ((intWord 'N' t).or (intWord 'G' t)).map BlockType.mk

/-- The numeral of a word with the letter `c`. -/
def numeralWord (c : Char) (t : Token) : Option Numeral :=
  if letter t = c then (stod t.tail).toOption else none

/-- A token that is a known letter with an argument that converts. -/
def IsWord (t : Token) : Prop :=
  t.tail ≠ [] ∧
    ((letter t ∈ ['N', 'G', 'T', 'M'] ∧ ∃ v, stoi t.tail = .ok v) ∨
      (letter t ∈ ['X', 'Y', 'Z', 'I', 'J', 'R', 'F', 'S'] ∧ ∃ v, stod t.tail = .ok v))

instance (t : Token) : Decidable (IsWord t) :=
  decidable_of_iff (t.tail ≠ [] ∧
    ((letter t ∈ ['N', 'G', 'T', 'M'] ∧ (stoi t.tail).isOk = true) ∨
      (letter t ∈ ['X', 'Y', 'Z', 'I', 'J', 'R', 'F', 'S'] ∧ (stod t.tail).isOk = true))) (by
    unfold IsWord
    cases stoi t.tail <;> cases stod t.tail <;> simp [Except.isOk, Except.toBool])

variable {K : Type} [DataArith K]

/-- The scalar of a word with the letter `c`. -/
def dataWord (c : Char) (t : Token) : Option K := (numeralWord c t).map ofNumeral

theorem lastOf_dataWord (c : Char) (ts : List Token) :
    lastOf (dataWord (K := K) c) ts = (lastOf (numeralWord c) ts).map ofNumeral :=
  lastOf_map (numeralWord c) ofNumeral ts

/-- The scalar input with the letter `c` of one line. -/
def ownWord (c : Char) (line : Line) : K := (lastOf (dataWord c) (commands line)).getD (num 0)

namespace Block

/-- The effect of one accepted word on the block. -/
def update (t : Token) (b : Block K) : Block K :=
  { b with
    n := (sizeWord 'N' t).getD b.n
    type := (typeWord t).getD b.type
    target := ⟨(dataWord 'X' t).or b.target.x, (dataWord 'Y' t).or b.target.y,
      (dataWord 'Z' t).or b.target.z⟩
    i := (dataWord 'I' t).getD b.i
    j := (dataWord 'J' t).getD b.j
    r := (dataWord 'R' t).getD b.r
    feedrate := (dataWord 'F' t).getD b.feedrate
    spindle := (dataWord 'S' t).getD b.spindle
    tool := (sizeWord 'T' t).getD b.tool
    m := (sizeWord 'M' t).getD b.m }

omit [DataArith K] in
theorem readInt_ok {arg : List Char} {v : ℤ} (h : readInt (K := K) arg = .ok v) :
    stoi arg = .ok v := by
  unfold readInt at h
  cases hs : stoi arg with
  | ok w => rw [hs] at h; cases h; rfl
  | error e => rw [hs] at h; cases h

theorem readData_ok {arg : List Char} {v : K} (h : readData arg = .ok v) :
    ∃ w, stod arg = .ok w ∧ v = ofNumeral w := by
  unfold readData at h
  cases hs : stod arg with
  | ok w => rw [hs] at h; cases h; exact ⟨w, rfl, rfl⟩
  | error e => rw [hs] at h; cases h

/-- An accepted word: it is well formed, its block number exceeds the previous
one, and its field is updated. -/
structure Accepts (prev : Option (Block K)) (t : Token) (b b' : Block K) : Prop where
  word : IsWord t
  number : ∀ p ∈ prev, ∀ n ∈ sizeWord 'N' t, p.n < n
  eq : b' = update t b

omit [DataArith K] in
/-- A case that converts the argument and stores it. -/
theorem store_ok {α : Type} {x : Except (Exn K) α} {f : α → Block K → Block K} {b b' : Block K}
    {r : Bool}
    (h : (do let v ← ofExcept x; modify (f v); pure true : BlockM K Bool).run b = .ok r b') :
    ∃ v, x = .ok v ∧ r = true ∧ b' = f v b := by
  simp only [bind_eq_ok, ofExcept_eq_ok] at h
  obtain ⟨v, _, ⟨hv, rfl⟩, _, _, hm, hp⟩ := h
  cases hm
  cases hp
  exact ⟨v, hv, rfl, rfl⟩

theorem parseToken_comment {prev : Option (Block K)} {t : Token} (hc : isComment t = true)
    (b : Block K) : (parseToken prev t).run b = .ok false b := by
  have hc' : letter t = '#' ∨ letter t = ';' := by simpa [isComment] using hc
  unfold parseToken
  exact congrArg (EStateM.run · b) (if_pos hc')

theorem parseToken_ok {prev : Option (Block K)} {t : Token} {b b' : Block K} {r : Bool}
    (h : (parseToken prev t).run b = .ok r b') :
    (r = false ∧ isComment t = true ∧ b' = b) ∨
      (r = true ∧ isComment t = false ∧ Accepts prev t b b') := by
  unfold parseToken at h
  dsimp only at h
  change (if letter t = '#' ∨ letter t = ';' then _ else _ : BlockM K Bool).run b = _ at h
  by_cases hc : letter t = '#' ∨ letter t = ';'
  · rw [if_pos hc] at h
    cases h
    exact .inl ⟨rfl, by simpa [isComment] using hc, rfl⟩
  rw [if_neg hc] at h
  have hnc : isComment t = false := by simpa [isComment] using hc
  split at h
  · cases h
  next harg =>
  refine .inr ?_
  generalize hl : (List.headD t ' ').toUpper = c at h
  have hl : letter t = c := hl
  split at h
  · -- the number is stored and checked, and the same word then stores the type
    simp only [bind_eq_ok, ofExcept_eq_ok] at h
    obtain ⟨v, b, ⟨hv, rfl⟩, _, _, hm, h⟩ := h
    cases hm
    have hs := readInt_ok hv
    have hn : sizeWord 'N' t = some (sizeT v) := by
      simp [sizeWord, intWord, hl, hs, Except.toOption]
    have ht : (∀ p ∈ prev, p.n < sizeT v) ∧
        (do let v ← ofExcept (readInt (K := K) t.tail); modify ({ · with type := ⟨v⟩ })
            pure true : BlockM K Bool).run { b with n := sizeT v } = .ok r b' := by
      cases prev with
      | none => exact ⟨by simp, h⟩
      | some p =>
        dsimp only at h
        split at h
        · cases h
        · next hlt => exact ⟨fun q hq => by cases hq; exact not_le.mp hlt, h⟩
    obtain ⟨hlt, ht⟩ := ht
    obtain ⟨w, hw, rfl, rfl⟩ := store_ok ht
    obtain rfl : v = w := Except.ok.inj (hs.symm.trans (readInt_ok hw))
    refine ⟨rfl, hnc, ⟨harg, .inl ⟨by simp [hl], v, hs⟩⟩, ?_, ?_⟩
    · intro p hp n hn'
      rw [hn] at hn'
      cases hn'
      exact hlt p hp
    · simp [update, typeWord, sizeWord, intWord, dataWord, numeralWord, hl, hs, Except.toOption]
  all_goals first
    | cases h
    | obtain ⟨v, hv, rfl, rfl⟩ := store_ok h
      have hs := readInt_ok hv
      refine ⟨rfl, hnc, ⟨harg, .inl ⟨by simp [hl], v, hs⟩⟩, by simp [sizeWord, intWord, hl], ?_⟩
      simp [update, typeWord, sizeWord, intWord, dataWord, numeralWord, hl, hs, Except.toOption]
    | obtain ⟨v, hv, rfl, rfl⟩ := store_ok h
      obtain ⟨w, hs, rfl⟩ := readData_ok hv
      refine ⟨rfl, hnc, ⟨harg, .inr ⟨by simp [hl], w, hs⟩⟩, by simp [sizeWord, intWord, hl], ?_⟩
      simp [update, typeWord, sizeWord, intWord, dataWord, numeralWord, hl, hs, Except.toOption]

/-- Conversely, a word whose number is not below the previous one is accepted. -/
theorem parseToken_of {prev : Option (Block K)} {t : Token} (hc : isComment t = false)
    (hw : IsWord t) (hn : ∀ p ∈ prev, ∀ n ∈ sizeWord 'N' t, p.n < n) (b : Block K) :
    (parseToken prev t).run b = .ok true (update t b) := by
  have hc' : ¬ (letter t = '#' ∨ letter t = ';') := by simpa [isComment] using hc
  obtain ⟨harg, hw⟩ := hw
  unfold parseToken
  dsimp only
  change (if letter t = '#' ∨ letter t = ';' then _ else _ : BlockM K Bool).run b = _
  rw [if_neg hc', if_neg harg]
  have hu : (t.headD ' ').toUpper = letter t := rfl
  rw [hu]
  rcases hw with ⟨hl, v, hv⟩ | ⟨hl, v, hv⟩
  · have hr : readInt (K := K) t.tail = .ok v := by simp [readInt, hv, Except.mapError]
    simp only [List.mem_cons, List.not_mem_nil, or_false] at hl
    rcases hl with hl | hl | hl | hl
    · have hs : sizeWord 'N' t = some (sizeT v) := by
        simp [sizeWord, intWord, hl, hv, Except.toOption]
      have hlt : ∀ p ∈ prev, ¬ sizeT v ≤ p.n := fun p hp => not_le.mpr (hn p hp _ hs)
      rw [hl]
      cases prev with
      | none =>
        simp only [hr, ofExcept_ok, pure_bind]
        refine congrArg (EStateM.Result.ok true) ?_
        simp [update, typeWord, sizeWord, intWord, dataWord, numeralWord, hl, hv, Except.toOption]
      | some p =>
        simp only [hr, ofExcept_ok, pure_bind, if_neg (hlt p rfl)]
        refine congrArg (EStateM.Result.ok true) ?_
        simp [update, typeWord, sizeWord, intWord, dataWord, numeralWord, hl, hv, Except.toOption]
    all_goals
      rw [hl]
      simp only [hr, ofExcept_ok, pure_bind]
      refine congrArg (EStateM.Result.ok true) ?_
      simp [update, typeWord, sizeWord, intWord, dataWord, numeralWord, hl, hv, Except.toOption]
  · have hr : readData (K := K) t.tail = .ok (ofNumeral v) := by simp [readData, hv]
    simp only [List.mem_cons, List.not_mem_nil, or_false] at hl
    rcases hl with hl | hl | hl | hl | hl | hl | hl | hl
    all_goals
      rw [hl]
      simp only [hr, ofExcept_ok, pure_bind]
      refine congrArg (EStateM.Result.ok true) ?_
      simp [update, typeWord, sizeWord, intWord, dataWord, numeralWord, hl, hv, Except.toOption]

/-! ## Lines -/

/-- What the loop does with the first word. -/
theorem parseTokens_cons (prev : Option (Block K)) (line : Line) (t : Token) (ts : List Token)
    (b : Block K) : (parseTokens prev line (t :: ts)).run b =
      match (parseToken prev t).run b with
      | .error e b' => .error (.parsingError line t e) b'
      | .ok false b' => .ok () b'
      | .ok true b' => (parseTokens prev line ts).run b' := rfl

theorem parseTokens_ok {prev : Option (Block K)} {line : Line} {ts : List Token}
    {b b' : Block K} (h : (parseTokens prev line ts).run b = .ok () b') :
    Run (Accepts prev) b (ts.takeWhile (!isComment ·)) b' := by
  induction ts generalizing b with
  | nil => cases h; exact .nil _
  | cons t ts ih =>
    rw [parseTokens_cons] at h
    split at h
    · cases h
    · next s hs =>
      rcases parseToken_ok hs with ⟨-, hc, rfl⟩ | ⟨hr, -, -⟩
      · cases h
        rw [List.takeWhile_cons_of_neg (by simp [hc])]
        exact .nil _
      · cases hr
    · next s hs =>
      rcases parseToken_ok hs with ⟨hr, -, -⟩ | ⟨-, hc, ha⟩
      · cases hr
      · rw [List.takeWhile_cons_of_pos (by simp [hc])]
        exact .cons ha (ih h)

/-- The effect of all the words of a line: each field gets its last word. -/
def updateAll (ts : List Token) (b : Block K) : Block K :=
  { b with
    n := (lastOf (sizeWord 'N') ts).getD b.n
    type := (lastOf typeWord ts).getD b.type
    target := ⟨(lastOf (dataWord 'X') ts).or b.target.x, (lastOf (dataWord 'Y') ts).or b.target.y,
      (lastOf (dataWord 'Z') ts).or b.target.z⟩
    i := (lastOf (dataWord 'I') ts).getD b.i
    j := (lastOf (dataWord 'J') ts).getD b.j
    r := (lastOf (dataWord 'R') ts).getD b.r
    feedrate := (lastOf (dataWord 'F') ts).getD b.feedrate
    spindle := (lastOf (dataWord 'S') ts).getD b.spindle
    tool := (lastOf (sizeWord 'T') ts).getD b.tool
    m := (lastOf (sizeWord 'M') ts).getD b.m }

theorem updateAll_cons (t : Token) (ts : List Token) (b : Block K) :
    updateAll (t :: ts) b = updateAll ts (update t b) := by
  simp only [updateAll, update, lastOf_cons, Option.getD_or, Option.or_assoc]

theorem run_update {prev : Option (Block K)} {ts : List Token} {b b' : Block K}
    (h : Run (Accepts prev) b ts b') : b' = updateAll ts b := by
  induction h with
  | nil s => simp [updateAll]
  | cons hs _ ih => rw [ih, hs.eq, updateAll_cons]

theorem parseTokens_of {prev : Option (Block K)} {line : Line} {ts : List Token}
    (hw : ∀ t ∈ ts.takeWhile (!isComment ·), IsWord t)
    (hn : ∀ p ∈ prev, ∀ t ∈ ts.takeWhile (!isComment ·), ∀ n ∈ sizeWord 'N' t, p.n < n)
    (b : Block K) : (parseTokens prev line ts).run b =
      .ok () (updateAll (ts.takeWhile (!isComment ·)) b) := by
  induction ts generalizing b with
  | nil => simp [parseTokens, updateAll]
  | cons t ts ih =>
    rw [parseTokens_cons]
    by_cases hc : isComment t = true
    · rw [parseToken_comment hc, List.takeWhile_cons_of_neg (by simp [hc])]
      simp [updateAll]
    · have hc : isComment t = false := by simpa using hc
      rw [List.takeWhile_cons_of_pos (by simp [hc])] at hw hn ⊢
      rw [parseToken_of hc (hw t (List.mem_cons_self ..))
        (fun p hp => hn p hp t (List.mem_cons_self ..)), updateAll_cons]
      exact ih (fun t ht => hw t (List.mem_cons_of_mem _ ht))
        (fun p hp t ht => hn p hp t (List.mem_cons_of_mem _ ht)) _

/-! ## The rest of `parse` -/

/-- Where a block starts: the target of the previous block, or the reference point. -/
def origin (m : Machine K) : Option (Block K) → Point K
  | some p => p.target
  | none => m.zero

omit [DataArith K] in
theorem startPoint_eq_ok {m : Machine K} {prev : Option (Block K)} {b : Block K} {p : Point K} :
    b.startPoint m prev = .ok p ↔ b.hasMachine = true ∧ origin m prev = p := by
  unfold startPoint
  split
  · next hm => cases prev <;> simp [origin, hm]
  · next hm => simp [hm]

/-- The block once its target is completed from the point `(x0, y0, z0)`. -/
def fill (m : Machine K) (x0 y0 z0 : K) (b : Block K) : Block K :=
  let x := b.target.x.getD x0
  let y := b.target.y.getD y0
  let z := b.target.z.getD z0
  { b with
    target := .ofCoords x y z
    delta := .ofCoords (x - x0) (y - y0) (z - z0)
    acc := m.A
    length := hypot3 (x - x0) (y - y0) (z - z0) }

theorem fillTarget_iff {m : Machine K} {prev : Option (Block K)} {b b' : Block K} :
    (fillTarget m prev).run b = .ok () b' ↔
      ∃ x0 y0 z0, b.startPoint m prev = .ok (.ofCoords x0 y0 z0) ∧ b' = fill m x0 y0 z0 b := by
  constructor
  · intro h
    simp only [fillTarget, bind_eq_ok, ofExcept_eq_ok] at h
    obtain ⟨_, _, hg, p0, _, ⟨hp0, rfl⟩, _, _, hm, d, _, ⟨hd, rfl⟩, _, _, hm', l, _, ⟨hl, rfl⟩,
      h⟩ := h
    cases hg; cases hm; cases hm'; cases h
    rcases p0 with ⟨_ | x0, _ | y0, _ | z0⟩ <;> try (simp [Point.delta] at hd; done)
    have hc : (⟨some x0, some y0, some z0⟩ : Point K) = .ofCoords x0 y0 z0 := rfl
    rw [hc, Point.modal_ofCoords, Point.delta_ofCoords] at hd
    cases hd
    rw [Point.length_ofCoords] at hl
    cases hl
    exact ⟨x0, y0, z0, hp0, by rw [hc, Point.modal_ofCoords]; rfl⟩
  · rintro ⟨x0, y0, z0, hp0, rfl⟩
    simp only [fillTarget, EStateM.run_bind, EStateM.run_get, hp0, ofExcept_ok,
      EStateM.run_pure, EStateM.run_modify, Point.modal_ofCoords, Point.delta_ofCoords,
      Point.length_ofCoords]
    rfl

/-- The centre and the signed radius that `calc_arc` finds. -/
inductive ArcCenter (m : Machine K) (b : Block K) (x0 y0 xf yf : K) : K → K → K → Prop
  | radius {dx dy : K} : nonzero b.r = true → b.delta.getX = .ok dx → b.delta.getY = .ok dy →
      ArcCenter m b x0 y0 xf yf b.r (radiusCenter b.type b.r x0 y0 xf yf dx dy).1
        (radiusCenter b.type b.r x0 y0 xf yf dx dy).2
  | center : nonzero b.r = false →
      lt m.error (fabs (hypot b.i b.j - hypot (xf - (x0 + b.i)) (yf - (y0 + b.j)))) = false →
      ArcCenter m b x0 y0 xf yf (hypot b.i b.j) (x0 + b.i) (y0 + b.j)

theorem arcCenter_iff {m : Machine K} {x0 y0 xf yf : K} {c : K × K} {b b' : Block K} :
    (arcCenter m x0 y0 xf yf).run b = .ok c b' ↔
      ∃ r, ArcCenter m b x0 y0 xf yf r c.1 c.2 ∧ b' = { b with r := r } := by
  constructor
  · intro h
    simp only [arcCenter, bind_eq_ok] at h
    obtain ⟨_, _, hg, h⟩ := h
    cases hg
    split at h
    · next hr =>
      simp only [bind_eq_ok, ofExcept_eq_ok] at h
      obtain ⟨dx, _, ⟨hdx, rfl⟩, dy, _, ⟨hdy, rfl⟩, hp⟩ := h
      cases hp
      exact ⟨_, .radius hr hdx hdy, rfl⟩
    · next hr =>
      simp only [bind_eq_ok] at h
      obtain ⟨_, _, hm, h⟩ := h
      cases hm
      split at h
      · cases h
      · next he =>
        cases h
        exact ⟨_, .center (by simpa using hr) (by simpa using he), rfl⟩
  · obtain ⟨xc, yc⟩ := c
    rintro ⟨r, hc, rfl⟩
    cases hc with
    | radius hr hx hy =>
      simp only [arcCenter, EStateM.run_bind, EStateM.run_get, hr, if_true, hx, hy, ofExcept_ok,
        EStateM.run_pure]
      rfl
    | center hr he =>
      simp only [arcCenter, EStateM.run_bind, EStateM.run_get, hr, he, Bool.false_eq_true,
        if_false, EStateM.run_modify, EStateM.run_pure]
      rfl

/-- The arcs that `calc_arc` accepts, and what it stores for them. -/
theorem calcArc_iff {m : Machine K} {prev : Option (Block K)} {b b' : Block K} :
    (calcArc m prev).run b = .ok () b' ↔
      ∃ x0 y0 z0 xf yf zf r xc yc, b.startPoint m prev = .ok (.ofCoords x0 y0 z0) ∧
        b.target = .ofCoords xf yf zf ∧ ArcCenter m b x0 y0 xf yf r xc yc ∧
        isnan (fabs r) = false ∧ isinf (fabs r) = false ∧
        b' = setArc x0 y0 xf yf xc yc { b with r := r } := by
  constructor
  · intro h
    simp only [calcArc, bind_eq_ok, ofExcept_eq_ok] at h
    obtain ⟨_, _, hg, p0, _, ⟨hp0, rfl⟩, x0, _, ⟨hx0, rfl⟩, y0, _, ⟨hy0, rfl⟩, z0, _, ⟨hz0, rfl⟩,
      xf, _, ⟨hxf, rfl⟩, yf, _, ⟨hyf, rfl⟩, zf, _, ⟨hzf, rfl⟩, c, b1, hc, _, _, hm, _, _, hg',
      h⟩ := h
    cases hg; cases hm; cases hg'
    obtain ⟨r, hr, rfl⟩ := arcCenter_iff.mp hc
    obtain rfl := Point.get_eq_ok.mp ⟨hx0, hy0, hz0⟩
    split at h
    · cases h
    · next hv =>
      cases h
      simp only [Bool.or_eq_true, not_or, Bool.not_eq_true] at hv
      exact ⟨x0, y0, z0, xf, yf, zf, r, c.1, c.2, hp0, Point.get_eq_ok.mp ⟨hxf, hyf, hzf⟩, hr,
        hv.1, hv.2, rfl⟩
  · rintro ⟨x0, y0, z0, xf, yf, zf, r, xc, yc, hp0, ht, hc, hn, hi, rfl⟩
    have hc := (arcCenter_iff (c := (xc, yc))).mpr ⟨r, hc, rfl⟩
    have hv : (isnan (setArc x0 y0 xf yf xc yc { b with r := r }).r ||
        isinf (setArc x0 y0 xf yf xc yc { b with r := r }).r) = false := by
      simp [setArc, hn, hi]
    obtain ⟨hx, hy, hz⟩ := Point.get_eq_ok.mpr ht
    simp only [calcArc, EStateM.run_bind, EStateM.run_get, hp0, hx, hy, hz, ofExcept_ok,
      EStateM.run_pure, Point.getX_ofCoords, Point.getY_ofCoords, Point.getZ_ofCoords, hc,
      EStateM.run_modify, hv, Bool.false_eq_true, if_false]

/-- What `calcProfile` does, by the type of the block. -/
inductive Planned (m : Machine K) (prev : Option (Block K)) (b : Block K) : Block K → Prop
  | line : b.type = .line → Planned m prev b (compute m { b with arcFeedrate := b.feedrate })
  | arc {b' : Block K} : b.type = .cwa ∨ b.type = .ccwa → (calcArc m prev).run b = .ok () b' →
      Planned m prev b (compute m { b' with
        arcFeedrate := DataArith.min b'.feedrate (arcLimit m.A b'.r) })
  | other : b.type ≠ .line → b.type ≠ .cwa → b.type ≠ .ccwa → Planned m prev b b

theorem calcProfile_iff {m : Machine K} {prev : Option (Block K)} {b b' : Block K} :
    (calcProfile m prev).run b = .ok () b' ↔ Planned m prev b b' := by
  constructor
  · intro h
    simp only [calcProfile, bind_eq_ok] at h
    obtain ⟨_, _, hg, h⟩ := h
    cases hg
    split at h
    · next ht => cases h; exact .line ht
    · next hnl =>
      split at h
      · next ht =>
        simp only [bind_eq_ok] at h
        obtain ⟨_, b2, hc, hm⟩ := h
        cases hm
        exact .arc ht hc
      · next hna =>
        cases h
        exact .other hnl (fun hc => hna (.inl hc)) (fun hc => hna (.inr hc))
  · rintro (ht | ⟨ht, hc⟩ | ⟨hl, hc, hcc⟩)
    · simp only [calcProfile, EStateM.run_bind, EStateM.run_get, if_pos ht]
      rfl
    · have hl : b.type ≠ .line := by rcases ht with ht | ht <;> rw [ht] <;> decide
      simp only [calcProfile, EStateM.run_bind, EStateM.run_get, if_neg hl, if_pos ht, hc]
      rfl
    · simp only [calcProfile, EStateM.run_bind, EStateM.run_get, if_neg hl,
        if_neg (not_or.mpr ⟨hc, hcc⟩)]
      rfl

/-- A plan only writes the arc and profile fields. -/
theorem Planned.frame {m : Machine K} {prev : Option (Block K)} {b b' : Block K}
    (h : Planned m prev b b') : ∃ c r θ dθ len af p, b' = { b with
      center := c, r := r, theta0 := θ, dtheta := dθ, length := len, arcFeedrate := af,
      profile := p } := by
  cases h with
  | line _ => exact ⟨_, _, _, _, _, _, _, rfl⟩
  | arc _ h =>
    obtain ⟨_, _, _, _, _, _, _, _, _, -, -, -, -, -, rfl⟩ := calcArc_iff.mp h
    exact ⟨_, _, _, _, _, _, _, rfl⟩
  | other _ _ _ => exact ⟨_, _, _, _, _, _, _, rfl⟩

/-- The profile of an interpolated block. -/
theorem Planned.profile_eq {m : Machine K} {prev : Option (Block K)} {b c : Block K}
    (h : Planned m prev b c) (ht : b.type.Interpolated) :
    c.profile = motionProfile m c.length b.acc (c.arcFeedrate / num 60) ∧
      c.arcFeedrate = if b.type = .line then b.feedrate
        else DataArith.min b.feedrate (arcLimit m.A c.r) := by
  cases h with
  | line hl => rw [if_pos hl]; exact ⟨rfl, rfl⟩
  | arc ha hc =>
    obtain ⟨_, _, _, _, _, _, _, _, _, -, -, -, -, -, rfl⟩ := calcArc_iff.mp hc
    have hl : b.type ≠ .line := by rcases ha with ha | ha <;> rw [ha] <;> decide
    rw [if_neg hl]
    exact ⟨rfl, rfl⟩
  | other hl hc hcc => exact absurd ht (not_or.mpr ⟨hl, not_or.mpr ⟨hc, hcc⟩⟩)

/-- The other blocks keep the profile they have. -/
theorem Planned.profile_rest {m : Machine K} {prev : Option (Block K)} {b c : Block K}
    (h : Planned m prev b c) (ht : ¬ b.type.Interpolated) : c.profile = b.profile := by
  cases h with
  | line hl => exact absurd (.inl hl) ht
  | arc ha _ => exact absurd (.inr ha) ht
  | other _ _ _ => rfl

theorem Planned.length_eq {m : Machine K} {prev : Option (Block K)} {b c : Block K}
    (h : Planned m prev b c) (ht : ¬ b.type.IsArc) : c.length = b.length := by
  cases h with
  | line _ => rfl
  | arc ha _ => exact absurd ha ht
  | other _ _ _ => rfl

/-- The machine pointer is stored. -/
def attach (b : Block K) : Block K := { b with hasMachine := true }

/-- What a successful `parse` has done: the words of the line are accepted, the
target is completed, and the profile is computed. -/
structure Parsed (m : Machine K) (prev : Option (Block K)) (b b' : Block K) : Prop where
  words : ∀ t ∈ commands b.line, IsWord t
  number : ∀ p ∈ prev, ∀ t ∈ commands b.line, ∀ n ∈ sizeWord 'N' t, p.n < n
  planned : ∃ x0 y0 z0 b2,
    origin m prev = .ofCoords x0 y0 z0 ∧
    Planned m prev
      (fill m x0 y0 z0 (updateAll (commands b.line) b.attach)) b2 ∧
    b' = { b2 with parsed := true }

/-- The lines that `parse` accepts, and the blocks it makes of them. -/
theorem parse_iff {m : Machine K} {prev : Option (Block K)} {b b' : Block K} :
    (parse m prev).run b = .ok () b' ↔ Parsed m prev b b' := by
  constructor
  · intro h
    simp only [parse, bind_eq_ok] at h
    obtain ⟨_, _, hm, _, _, hg, _, b1, htok, _, b2, hf, _, b3, hp, h⟩ := h
    cases hm; cases hg; cases h
    have hr : Run (Accepts prev) b.attach (commands b.line) b1 :=
      parseTokens_ok htok
    have hb1 := run_update hr
    subst hb1
    obtain ⟨x0, y0, z0, hp0, rfl⟩ := fillTarget_iff.mp hf
    refine ⟨fun t ht => ?_, fun p hp t ht n hn => ?_,
      x0, y0, z0, b3, (startPoint_eq_ok.mp hp0).2, calcProfile_iff.mp hp, rfl⟩
    · obtain ⟨_, _, ha⟩ := hr.step_of_mem ht
      exact ha.word
    · obtain ⟨_, _, ha⟩ := hr.step_of_mem ht
      exact ha.number p hp n hn
  · rintro ⟨hw, hn, x0, y0, z0, b2, hp0, hp, rfl⟩
    have htok : (parseTokens prev b.line (words b.line)).run b.attach =
        .ok () (updateAll (commands b.line) b.attach) :=
      parseTokens_of hw hn _
    have hs : startPoint m prev (updateAll (commands b.line) b.attach) =
        .ok (.ofCoords x0 y0 z0) := startPoint_eq_ok.mpr ⟨rfl, hp0⟩
    have hf := fillTarget_iff.mpr ⟨x0, y0, z0, hs, rfl⟩
    show (do parseTokens prev b.line (words b.line); fillTarget m prev; calcProfile m prev
             modify ({ · with parsed := true }) : BlockM K Unit).run b.attach = _
    simp only [EStateM.run_bind, htok, hf, calcProfile_iff.mpr hp, EStateM.run_modify]

theorem Parsed.frame {m : Machine K} {prev : Option (Block K)} {b b' : Block K}
    (h : Parsed m prev b b') : ∃ x0 y0 z0 c r θ dθ len af p,
      origin m prev = .ofCoords x0 y0 z0 ∧
      b' = { fill m x0 y0 z0 (updateAll (commands b.line) b) with
        hasMachine := true, parsed := true, center := c, r := r, theta0 := θ, dtheta := dθ,
        length := len, arcFeedrate := af, profile := p } := by
  obtain ⟨-, -, x0, y0, z0, b2, hp0, hp, rfl⟩ := h
  obtain ⟨c, r, θ, dθ, len, af, p, rfl⟩ := hp.frame
  exact ⟨x0, y0, z0, c, r, θ, dθ, len, af, p, hp0, rfl⟩

/-! ## Construction -/

/-- The blocks that the constructors make of a line, with the previous block as
they leave it. -/
inductive Constructed (line : Line) : Option (Block K) → Block K → Prop
  | first (addr : Addr) : Constructed line none (ofLine addr line)
  | after {addr : Addr} {o p b : Block K} : ofPrev addr line o = .ok (b, p) →
      Constructed line (some p) b

theorem ofPrev_ok {addr : Addr} {line : Line} {o p b : Block K}
    (h : ofPrev addr line o = .ok (b, p)) : o.parsed = true ∧
      b = { ofLine addr line with
        tool := o.tool, feedrate := o.feedrate, spindle := o.spindle, n := (o.n + 1) % 2 ^ 64,
        prev := some o.addr } ∧
      p = { o with next := some addr } := by
  unfold ofPrev assign at h
  split at h
  · next ho => cases h; exact ⟨ho, rfl, rfl⟩
  · cases h

theorem Constructed.line_eq {line : Line} {prev : Option (Block K)} {b : Block K}
    (h : Constructed line prev b) : b.line = line := by
  cases h with
  | first => rfl
  | after h => obtain ⟨-, rfl, -⟩ := ofPrev_ok h; rfl

theorem Constructed.type_eq {line : Line} {prev : Option (Block K)} {b : Block K}
    (h : Constructed line prev b) : b.type = .noMotion := by
  cases h with
  | first => rfl
  | after h => obtain ⟨-, rfl, -⟩ := ofPrev_ok h; rfl

theorem Constructed.own {line : Line} {prev : Option (Block K)} {b : Block K}
    (h : Constructed line prev b) :
    b.m = 0 ∧ b.i = num 0 ∧ b.j = num 0 ∧ b.r = num 0 := by
  cases h with
  | first _ => exact ⟨rfl, rfl, rfl, rfl⟩
  | after ho =>
    obtain ⟨-, rfl, -⟩ := ofPrev_ok ho
    exact ⟨rfl, rfl, rfl, rfl⟩

/-- The fields of a constructed block once the words of its line are read. -/
theorem Constructed.updateAll_own {line : Line} {prev : Option (Block K)} {b : Block K}
    (hb : Constructed line prev b) :
    let b' := updateAll (commands b.line) b.attach
    b'.type = (lastOf typeWord (commands line)).getD .noMotion ∧
      b'.m = (lastOf (sizeWord 'M') (commands line)).getD 0 ∧
      b'.i = ownWord 'I' line ∧ b'.j = ownWord 'J' line ∧ b'.r = ownWord 'R' line := by
  obtain ⟨hm, hi, hj, hr⟩ := hb.own
  simp [updateAll, attach, hb.line_eq, hb.type_eq, hm, hi, hj, hr, ownWord]

/-! ## What a parsed block holds -/

/-- The profile that `parse` leaves in an interpolated block. -/
theorem profile_of_parse {m : Machine K} {prev : Option (Block K)} {b c : Block K}
    (h : (parse m prev).run b = .ok () c) (ht : c.type.Interpolated) :
    c.parsed = true ∧ c.acc = m.A ∧
      c.profile = motionProfile m c.length c.acc (c.arcFeedrate / num 60) ∧
      c.arcFeedrate = if c.type = .line then c.feedrate
        else DataArith.min c.feedrate (arcLimit m.A c.r) := by
  obtain ⟨-, -, x0, y0, z0, b2, -, hp, rfl⟩ := parse_iff.mp h
  clear h
  have hf := hp.frame
  obtain ⟨_, _, _, _, _, _, _, rfl⟩ := hf
  obtain ⟨h1, h2⟩ := hp.profile_eq ht
  exact ⟨rfl, rfl, h1, h2⟩

theorem profile_of_parse_rest {m : Machine K} {prev : Option (Block K)} {b c : Block K}
    (h : (parse m prev).run b = .ok () c) (ht : ¬ c.type.Interpolated) :
    c.parsed = true ∧ c.profile = b.profile := by
  obtain ⟨-, -, x0, y0, z0, b2, -, hp, rfl⟩ := parse_iff.mp h
  clear h
  have hf := hp.frame
  obtain ⟨_, _, _, _, _, _, _, rfl⟩ := hf
  exact ⟨rfl, hp.profile_rest ht⟩

/-- The points between which `parse` lays a block. -/
theorem points_of_parse {m : Machine K} {prev : Option (Block K)} {b c : Block K}
    (h : (parse m prev).run b = .ok () c) : ∃ x0 y0 z0 x y z,
      origin m prev = .ofCoords x0 y0 z0 ∧ c.target = .ofCoords x y z ∧
      c.delta = .ofCoords (x - x0) (y - y0) (z - z0) ∧ c.hasMachine = true ∧
      (¬ c.type.IsArc → c.length = hypot3 (x - x0) (y - y0) (z - z0)) := by
  obtain ⟨-, -, x0, y0, z0, b2, h0, hp, rfl⟩ := parse_iff.mp h
  clear h
  have hlen := hp.length_eq
  have hf := hp.frame
  obtain ⟨_, _, _, _, _, _, _, rfl⟩ := hf
  exact ⟨x0, y0, z0, _, _, _, h0, rfl, rfl, rfl, hlen⟩

/-- The centre and the signed radius of an arc, from the inputs R, I and J. -/
def CenterOf (m : Machine K) (type : BlockType) (R I J x0 y0 x y r xc yc : K) : Prop :=
  if nonzero R = true then
    r = R ∧ (xc, yc) = radiusCenter type R x0 y0 x y (x - x0) (y - y0)
  else r = hypot I J ∧ (xc, yc) = (x0 + I, y0 + J) ∧
    lt m.error (fabs (r - hypot (x - xc) (y - yc))) = false

/-- The arc with a given centre and signed radius, as it is stored in a block. -/
structure StoresArc (x0 y0 x y r xc yc : K) (c : Block K) : Prop where
  valid : isnan (fabs r) = false ∧ isinf (fabs r) = false
  center : c.center.x = some xc ∧ c.center.y = some yc
  theta0 : c.theta0 = atan2 (y0 - yc) (x0 - xc)
  dtheta : c.dtheta = sweep c.type c.theta0 (atan2 (y - yc) (x - xc))
  length : c.length = fabs (c.dtheta * r)
  r : c.r = fabs r

theorem Planned.arc_eq {m : Machine K} {prev : Option (Block K)} {b c : Block K}
    {x0 y0 z0 x y z : K} (h : Planned m prev b c) (ha : b.type.IsArc)
    (h0 : origin m prev = .ofCoords x0 y0 z0) (ht : b.target = .ofCoords x y z)
    (hd : b.delta = .ofCoords (x - x0) (y - y0) (z - z0)) :
    ∃ r xc yc, CenterOf m b.type b.r b.i b.j x0 y0 x y r xc yc ∧
      StoresArc x0 y0 x y r xc yc c := by
  cases h with
  | line hl => exact absurd ha (by rw [hl]; decide)
  | other _ hc hcc => exact absurd ha (not_or.mpr ⟨hc, hcc⟩)
  | arc _ hc =>
    obtain ⟨x0', y0', z0', x', y', z', r, xc, yc, hs, ht', hcen, hn, hi, rfl⟩ := calcArc_iff.mp hc
    cases h0.symm.trans (startPoint_eq_ok.mp hs).2
    cases ht.symm.trans ht'
    refine ⟨r, xc, yc, ?_, ⟨hn, hi⟩, ⟨rfl, rfl⟩, rfl, rfl, rfl, rfl⟩
    cases hcen with
    | radius hnz hx hy =>
      rw [hd] at hx hy
      cases hx
      cases hy
      rw [CenterOf, if_pos hnz]
      exact ⟨rfl, rfl⟩
    | center hnz he =>
      rw [CenterOf, if_neg (by simp [hnz])]
      exact ⟨rfl, rfl, he⟩

/-- The arc that `parse` leaves in a block, from the inputs it has read. -/
theorem arc_of_inputs {m : Machine K} {prev : Option (Block K)} {b c : Block K}
    (h : (parse m prev).run b = .ok () c) (ha : c.type.IsArc) :
    let u := updateAll (commands b.line) b.attach
    ∃ x0 y0 z0 x y z r xc yc,
      origin m prev = .ofCoords x0 y0 z0 ∧ c.target = .ofCoords x y z ∧
      CenterOf m c.type u.r u.i u.j x0 y0 x y r xc yc ∧ StoresArc x0 y0 x y r xc yc c := by
  obtain ⟨-, -, x0, y0, z0, b2, h0, hp, rfl⟩ := parse_iff.mp h
  clear h
  have hf := hp.frame
  obtain ⟨_, _, _, _, _, _, _, he⟩ := hf
  have hty : b2.type = _ := congrArg Block.type he
  have htg : b2.target = _ := congrArg Block.target he
  obtain ⟨r, xc, yc, hcen, hst⟩ := hp.arc_eq (hty ▸ ha) h0 rfl rfl
  refine ⟨x0, y0, z0, _, _, _, r, xc, yc, h0, htg, ?_, ⟨hst.valid, hst.center, hst.theta0,
    hst.dtheta, hst.length, hst.r⟩⟩
  show CenterOf m b2.type _ _ _ _ _ _ _ _ _ _
  rw [hty]
  exact hcen

/-- The arc in the block of a line. -/
theorem arc_of_parse {m : Machine K} {prev : Option (Block K)} {line : Line} {b c : Block K}
    (hb : Constructed line prev b) (h : (parse m prev).run b = .ok () c) (ha : c.type.IsArc) :
    ∃ x0 y0 z0 x y z r xc yc,
      origin m prev = .ofCoords x0 y0 z0 ∧ c.target = .ofCoords x y z ∧
      CenterOf m c.type (ownWord 'R' line) (ownWord 'I' line) (ownWord 'J' line) x0 y0 x y r xc yc ∧
      StoresArc x0 y0 x y r xc yc c := by
  obtain ⟨-, -, hi, hj, hr⟩ := hb.updateAll_own
  have harc := arc_of_inputs h ha
  dsimp only at harc
  rw [hi, hj, hr] at harc
  exact harc

/-- Once the words of a line are accepted, only an arc can still be refused. -/
theorem exists_parse {m : Machine K} {prev : Option (Block K)} {line : Line} {b : Block K}
    (hb : Constructed line prev b) (hw : ∀ t ∈ commands line, IsWord t)
    (hn : ∀ p ∈ prev, ∀ t ∈ commands line, ∀ n ∈ sizeWord 'N' t, p.n < n)
    (hp : (origin m prev).isComplete = true)
    (ht : (lastOf typeWord (commands line)).getD .noMotion ∉ [BlockType.cwa, .ccwa]) :
    ∃ c, (parse m prev).run b = .ok () c := by
  obtain ⟨x0, y0, z0, h0⟩ := (Point.isComplete_iff _).mp hp
  rw [← hb.line_eq] at hw hn
  have hty : (fill m x0 y0 z0 (updateAll (commands b.line) b.attach)).type =
      (lastOf typeWord (commands line)).getD .noMotion := by
    rw [hb.line_eq, ← hb.type_eq]; rfl
  rw [← hty, List.mem_cons, List.mem_singleton, not_or] at ht
  by_cases hl : (fill m x0 y0 z0 (updateAll (commands b.line) b.attach)).type = .line
  · exact ⟨_, parse_iff.mpr ⟨hw, hn, x0, y0, z0, _, h0, .line hl, rfl⟩⟩
  · exact ⟨_, parse_iff.mpr ⟨hw, hn, x0, y0, z0, _, h0, .other hl ht.1 ht.2, rfl⟩⟩

/-- An arc of a given radius is never refused once its words are accepted. -/
theorem exists_parse_radius {m : Machine K} {prev : Option (Block K)} {line : Line} {b : Block K}
    (hb : Constructed line prev b) (hw : ∀ t ∈ commands line, IsWord t)
    (hn : ∀ p ∈ prev, ∀ t ∈ commands line, ∀ n ∈ sizeWord 'N' t, p.n < n)
    (hp : (origin m prev).isComplete = true)
    (ht : ((lastOf typeWord (commands line)).getD .noMotion).IsArc)
    (hR : nonzero (ownWord 'R' line : K) = true)
    (hv : isnan (fabs (ownWord 'R' line : K)) = false ∧ isinf (fabs (ownWord 'R' line : K)) = false) :
    ∃ c, (parse m prev).run b = .ok () c := by
  obtain ⟨x0, y0, z0, h0⟩ := (Point.isComplete_iff _).mp hp
  obtain ⟨hty, -, -, -, hr⟩ := hb.updateAll_own
  rw [← hb.line_eq] at hw hn
  rw [← hty] at ht
  rw [← hr] at hR hv
  have hs : startPoint m prev (fill m x0 y0 z0 (updateAll (commands b.line) b.attach)) =
      .ok (.ofCoords x0 y0 z0) := startPoint_eq_ok.mpr ⟨rfl, h0⟩
  have hc := calcArc_iff.mpr ⟨x0, y0, z0, _, _, _, _, _, _, hs, rfl, .radius hR rfl rfl, hv.1, hv.2,
    rfl⟩
  exact ⟨_, parse_iff.mpr ⟨hw, hn, x0, y0, z0, _, h0, .arc ht hc, rfl⟩⟩

end Block

end Cncpp
