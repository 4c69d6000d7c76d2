import Mathlib.Data.List.DropRight
import Cncpp.Parsing

/-! The motion type of a parsed block.  `typeCode` is the type the parser leaves,
the value of the last word N or G; `gType` is the one the G words name.  They
differ when a block number follows the last G word. -/

namespace Cncpp

open DataArith Lib Lib.ExceptState

/-- The type named by the last G word before the comment. -/
def gType (line : Line) : BlockType :=
  ((lastOf (intWord 'G') (commands line)).map BlockType.mk).getD .noMotion

/-- The type named by the last word N or G before the comment. -/
def typeCode (line : Line) : BlockType := (lastOf typeWord (commands line)).getD .noMotion

/-- The words after the last G word. -/
def afterG (line : Line) : List Token := (commands line).rtakeWhile (letter · ≠ 'G')

/-- No block number follows the last G word, or the last one that does happens to
be the code of the type that the G words name. -/
def NumberHarmless (line : Line) : Prop :=
  ∀ v, lastOf (intWord 'N') (afterG line) = some v → BlockType.mk v = gType line

instance (line : Line) : Decidable (NumberHarmless line) :=
  match h : lastOf (intWord 'N') (afterG line) with
  | none => isTrue fun v hv => by rw [h] at hv; cases hv
  | some w => decidable_of_iff (BlockType.mk w = gType line)
      ⟨fun he v hv => by rw [h] at hv; cases hv; exact he, fun hall => hall w h⟩

/-- The words of a line without its block numbers. -/
def withoutNumber (line : Line) : List Token := (commands line).filter (letter · ≠ 'N')

theorem typeWord_of_ne {t : Token} (h : letter t ≠ 'G') :
    typeWord t = (intWord 'N' t).map BlockType.mk := by
  simp [typeWord, intWord, h]

theorem typeWord_of_eq {t : Token} (h : letter t = 'G') :
    typeWord t = (intWord 'G' t).map BlockType.mk := by
  simp [typeWord, intWord, h]

theorem intWord_isSome {t : Token} (hw : IsWord t) (hl : letter t = 'G') :
    (intWord 'G' t).isSome = true := by
  obtain ⟨-, ⟨-, v, hv⟩ | ⟨hm, -⟩⟩ := hw
  · simp [intWord, hl, hv, Except.toOption]
  · simp [hl] at hm

/-- The words up to the last G word give the type that the G words name. -/
theorem lastOf_typeWord_rdropWhile {ts : List Token} (hw : ∀ t ∈ ts, IsWord t) :
    lastOf typeWord (ts.rdropWhile (letter · ≠ 'G')) =
      (lastOf (intWord 'G') (ts.rdropWhile (letter · ≠ 'G'))).map BlockType.mk := by
  rcases List.eq_nil_or_concat (ts.rdropWhile (letter · ≠ 'G')) with h | ⟨pre, g, h⟩
  · rw [h]; rfl
  have hg : letter g = 'G' := by
    have hne : ts.rdropWhile (letter · ≠ 'G') ≠ [] := by rw [h]; simp
    have hl := List.rdropWhile_last_not (letter · ≠ 'G') ts hne
    simp only [h, List.concat_eq_append, List.getLast_append_singleton] at hl
    simpa using hl
  have hmem : g ∈ ts := by
    have hm : g ∈ ts.rdropWhile (letter · ≠ 'G') := by rw [h]; simp
    exact (List.rdropWhile_prefix _ _).subset hm
  obtain ⟨v, hv⟩ := Option.isSome_iff_exists.mp (intWord_isSome (hw g hmem) hg)
  rw [h, List.concat_eq_append, lastOf_append, lastOf_append, lastOf_cons, lastOf_cons,
    typeWord_of_eq hg, hv]
  rfl

/-- A block number after the last G word overwrites the type. -/
theorem typeCode_eq {line : Line} (hw : ∀ t ∈ commands line, IsWord t) :
    typeCode line =
      ((lastOf (intWord 'N') (afterG line)).map BlockType.mk).getD (gType line) := by
  have hsplit := List.rdropWhile_append_rtakeWhile (p := (letter · ≠ 'G')) (l := commands line)
  have hne : ∀ t ∈ afterG line, letter t ≠ 'G' := fun t ht => by
    simpa using List.mem_rtakeWhile_imp ht
  have hnone : lastOf (intWord 'G') (afterG line) = none :=
    lastOf_eq_none _ fun t ht => by simp [intWord, hne t ht]
  have hafter : lastOf typeWord (afterG line) =
      (lastOf (intWord 'N') (afterG line)).map BlockType.mk := by
    rw [← lastOf_map]
    exact lastOf_congr fun t ht => typeWord_of_ne (hne t ht)
  rw [typeCode, gType, ← hsplit, ← afterG, lastOf_append, lastOf_append, hafter, hnone,
    lastOf_typeWord_rdropWhile hw]
  simp

/-- The two types agree exactly where the block numbers do no harm. -/
theorem typeCode_eq_gType_iff {line : Line} (hw : ∀ t ∈ commands line, IsWord t) :
    typeCode line = gType line ↔ NumberHarmless line := by
  rw [typeCode_eq hw, NumberHarmless]
  cases lastOf (intWord 'N') (afterG line) <;> simp

variable {K : Type} [DataArith K]

namespace Block

/-- The parser leaves the type of the last word N or G. -/
theorem type_of_parse {m : Machine K} {prev : Option (Block K)} {line : Line} {b b' : Block K}
    (hb : Constructed line prev b) (h : (parse m prev).run b = .ok () b') :
    b'.type = typeCode line := by
  obtain ⟨_, _, _, _, _, _, _, _, _, _, -, rfl⟩ := (parse_iff.mp h).frame
  simp [fill, updateAll, hb.line_eq, hb.type_eq, typeCode]

/-! ## The motion without the number -/

/-- Another object with the data of `b`, apart from its line and its number. -/
def relabel (a : Addr) (s : Line) (n : ℕ) (b : Block K) : Block K :=
  { b with addr := a, line := s, n := n }

/-- The two blocks agree on everything but identity, line and number. -/
def SameMotion (b b' : Block K) : Prop := b' = b.relabel b'.addr b'.line b'.n

variable {m : Machine K} {prev : Option (Block K)} {b c c' : Block K} {a : Addr} {s : Line}
  {n : ℕ}

theorem ArcCenter.unique {x0 y0 xf yf r xc yc r' xc' yc' : K}
    (h : ArcCenter m b x0 y0 xf yf r xc yc)
    (h' : ArcCenter m (b.relabel a s n) x0 y0 xf yf r' xc' yc') :
    r' = r ∧ xc' = xc ∧ yc' = yc := by
  cases h with
  | radius hr hx hy =>
    cases h' with
    | radius _ hx' hy' =>
      cases hx.symm.trans hx'
      cases hy.symm.trans hy'
      exact ⟨rfl, rfl, rfl⟩
    | center hr' _ => cases hr.symm.trans hr'
  | center hr _ =>
    cases h' with
    | radius hr' _ _ => cases hr.symm.trans hr'
    | center _ _ => exact ⟨rfl, rfl, rfl⟩

theorem calcArc_relabel (h : (calcArc m prev).run b = .ok () c)
    (h' : (calcArc m prev).run (b.relabel a s n) = .ok () c') : c' = c.relabel a s n := by
  obtain ⟨x0, y0, z0, xf, yf, zf, r, xc, yc, hp, ht, hc, -, -, rfl⟩ := calcArc_iff.mp h
  obtain ⟨x0', y0', z0', xf', yf', zf', r', xc', yc', hp', ht', hc', -, -, rfl⟩ :=
    calcArc_iff.mp h'
  cases (startPoint_eq_ok.mp hp).2.symm.trans (startPoint_eq_ok.mp hp').2
  cases ht.symm.trans ht'
  obtain ⟨rfl, rfl, rfl⟩ := hc.unique hc'
  rfl

theorem Planned.relabel (h : Planned m prev b c) (h' : Planned m prev (b.relabel a s n) c') :
    c' = c.relabel a s n := by
  cases h with
  | line ht =>
    cases h' with
    | line _ => rfl
    | arc ht' _ => rcases ht' with ht' | ht' <;> cases ht.symm.trans ht'
    | other hl _ _ => exact absurd ht hl
  | arc ht hc =>
    cases h' with
    | line ht' => rcases ht with ht | ht <;> cases ht.symm.trans ht'
    | arc _ hc' => rw [calcArc_relabel hc hc']; rfl
    | other _ hc hcc => exact absurd ht (not_or.mpr ⟨hc, hcc⟩)
  | other hl hc hcc =>
    cases h' with
    | line ht' => exact absurd ht' hl
    | arc ht' _ => exact absurd ht' (not_or.mpr ⟨hc, hcc⟩)
    | other _ _ _ => rfl

theorem Constructed.relabel {line line' : Line} {b' : Block K} (h : Constructed line prev b)
    (h' : Constructed line' prev b') : b' = b.relabel b'.addr line' b'.n := by
  cases h with
  | first _ =>
    cases h' with
    | first _ => rfl
  | after h =>
    cases h' with
    | after h' =>
      obtain ⟨-, rfl, rfl⟩ := ofPrev_ok h
      obtain ⟨-, rfl, hp⟩ := ofPrev_ok h'
      injection hp
      simp [relabel, ofLine, *]

theorem lastOf_withoutNumber {β : Type} {f : Token → Option β} {line line' : Line}
    (hf : ∀ t, letter t = 'N' → f t = none) (h : withoutNumber line = withoutNumber line') :
    lastOf f (commands line) = lastOf f (commands line') := by
  have hN : ∀ t, decide (letter t ≠ 'N') = false → f t = none := fun t ht =>
    hf t (by simpa using ht)
  rw [← lastOf_filter f hN (commands line), ← lastOf_filter f hN (commands line')]
  exact congrArg (lastOf f) h

/-- Lines that differ in their block numbers only store the same words, up to
the type. -/
theorem updateAll_relabel {line line' : Line} (h : withoutNumber line = withoutNumber line')
    (ht : typeCode line = typeCode line') (hb : b.type = .noMotion) :
    updateAll (commands line') (b.relabel a s n) =
      (updateAll (commands line) b).relabel a s ((lastOf (sizeWord 'N') (commands line')).getD n) := by
  have hd : ∀ l : Char, l ≠ 'N' →
      lastOf (dataWord (K := K) l) (commands line) = lastOf (dataWord l) (commands line') :=
    fun l hl => lastOf_withoutNumber (fun t ht => by simp [dataWord, numeralWord, ht, hl.symm]) h
  have hz : ∀ l : Char, l ≠ 'N' →
      lastOf (sizeWord l) (commands line) = lastOf (sizeWord l) (commands line') :=
    fun l hl => lastOf_withoutNumber (fun t ht => by simp [sizeWord, intWord, ht, hl.symm]) h
  have hty : (lastOf typeWord (commands line)).getD b.type =
      (lastOf typeWord (commands line')).getD b.type := by rw [hb]; exact ht
  simp [updateAll, Block.relabel, hd, hz, hty]

/-- Adding, removing or changing a block number keeps the motion exactly when it
keeps the last word N or G. -/
theorem sameMotion_iff {line line' : Line} {b' : Block K} (hb : Constructed line prev b)
    (hb' : Constructed line' prev b') (hw : withoutNumber line = withoutNumber line')
    (h : (parse m prev).run b = .ok () c) (h' : (parse m prev).run b' = .ok () c') :
    SameMotion c c' ↔ typeCode line = typeCode line' := by
  constructor
  · intro hs
    rw [← type_of_parse hb h, ← type_of_parse hb' h', hs]
    rfl
  · intro ht
    obtain ⟨-, -, x0, y0, z0, b2, hp0, hp, rfl⟩ := parse_iff.mp h
    obtain ⟨-, -, x0', y0', z0', b2', hp0', hp', rfl⟩ := parse_iff.mp h'
    cases hp0.symm.trans hp0'
    rw [hb.line_eq] at hp
    rw [hb'.line_eq, hb.relabel hb'] at hp'
    have hu : updateAll (commands line') (b.relabel b'.addr line' b'.n).attach = _ :=
      updateAll_relabel (b := b.attach) hw ht hb.type_eq
    rw [hu] at hp'
    rw [hp.relabel hp']
    rfl

/-- The motion follows the G words, and ignores the block number, exactly where the
number does not come between the last G word and the end of the line. -/
theorem motion_decided_by_G (m : Machine K) (prev : Option (Block K)) :
    (∀ line b c, Constructed line prev b → (parse m prev).run b = .ok () c →
      (c.type = gType line ↔ NumberHarmless line)) ∧
    (∀ line line' b b' c c', Constructed line prev b → Constructed line' prev b' →
      withoutNumber line = withoutNumber line' → (parse m prev).run b = .ok () c →
      (parse m prev).run b' = .ok () c' → (SameMotion c c' ↔ typeCode line = typeCode line')) := by
  refine ⟨fun line b c hb h => ?_, fun line line' b b' c c' hb hb' hw h h' =>
    sameMotion_iff hb hb' hw h h'⟩
  have hw := (parse_iff.mp h).words
  rw [hb.line_eq] at hw
  rw [type_of_parse hb h]
  exact typeCode_eq_gType_iff hw

/-- A block number in front of the G word, and the same line with it behind. -/
def numberedLine : Line := "N7 G1 X10 F100".toList
def misnumberedLine : Line := "G1 X10 F100 N7".toList

theorem motion_decided_by_G_misnumbered :
    ∃ c c' : Block XReal, (parse Machine.default none).run (ofLine 0 numberedLine) = .ok () c ∧
      (parse Machine.default none).run (ofLine 0 misnumberedLine) = .ok () c' ∧
      c.type = gType numberedLine ∧ c'.type ≠ gType misnumberedLine ∧ ¬ SameMotion c c' := by
  have hb : Constructed numberedLine none (ofLine (K := XReal) 0 numberedLine) := .first 0
  have hb' : Constructed misnumberedLine none (ofLine (K := XReal) 0 misnumberedLine) := .first 0
  obtain ⟨c, h⟩ := exists_parse (m := Machine.default) hb (by decide +kernel) (by simp) rfl
    (by decide +kernel)
  obtain ⟨c', h'⟩ := exists_parse (m := Machine.default) hb' (by decide +kernel) (by simp) rfl
    (by decide +kernel)
  have hG := motion_decided_by_G (K := XReal) Machine.default none
  refine ⟨c, c', h, h', (hG.1 _ _ _ hb h).mpr (by decide +kernel), ?_, ?_⟩
  · rw [Ne, hG.1 _ _ _ hb' h']
    decide +kernel
  · rw [hG.2 _ _ _ _ _ _ hb hb' (by decide +kernel) h h']
    decide +kernel

/-- The type does not always follow the G words: the number behind them replaces it. -/
theorem number_overwrites_type :
    ∃ c : Block XReal, (parse Machine.default none).run (ofLine 0 misnumberedLine) = .ok () c ∧
      c.type = ⟨7⟩ ∧ c.type ≠ gType misnumberedLine := by
  have hb : Constructed misnumberedLine none (ofLine (K := XReal) 0 misnumberedLine) := .first 0
  obtain ⟨c, h⟩ := exists_parse (m := Machine.default) hb (by decide +kernel) (by simp) rfl
    (by decide +kernel)
  refine ⟨c, ?_⟩
  rw [type_of_parse hb h]
  exact ⟨h, by decide +kernel, by decide +kernel⟩

end Block

end Cncpp
