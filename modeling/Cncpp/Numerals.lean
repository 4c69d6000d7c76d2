import Mathlib.Data.List.TakeWhile
import Cncpp.Text

/-! Numerals.  The grammar of decimal numerals, and how much of an argument the
conversions use: they stop at the first character that does not continue the numeral,
and the code never asks where that was. -/

namespace Cncpp

/-! ## The grammar -/

def AllDigits (s : List Char) : Prop := ∀ c ∈ s, c.isDigit = true

/-- An optional sign. -/
inductive Sign : List Char → Prop
  | none : Sign []
  | minus : Sign ['-']
  | plus : Sign ['+']

/-- An integer numeral: an optional sign and at least one digit. -/
inductive IntNumeral : List Char → Prop
  | mk {sg ds : List Char} : Sign sg → ds ≠ [] → AllDigits ds → IntNumeral (sg ++ ds)

/-- Digits with an optional point. -/
inductive Mantissa : List Char → Prop
  | whole {ds : List Char} : ds ≠ [] → AllDigits ds → Mantissa ds
  | point {ds fs : List Char} : ds ++ fs ≠ [] → AllDigits ds → AllDigits fs →
      Mantissa (ds ++ '.' :: fs)

/-- An optional exponent. -/
inductive Exponent : List Char → Prop
  | none : Exponent []
  | mk {c : Char} {s : List Char} : c.toLower = 'e' → IntNumeral s → Exponent (c :: s)

/-- A finite decimal numeral. -/
inductive DecimalNumeral : List Char → Prop
  | mk {sg m e : List Char} : Sign sg → Mantissa m → Exponent e → DecimalNumeral (sg ++ (m ++ e))

/-! ## What a conversion leaves -/

/-- The characters behind the numeral that `std::stoi` converts. -/
def stoiRest (arg : List Char) : List Char := (digits 10 (scanSign (arg.dropWhile isSpace)).2).2

def exponentRest (mark : Char) : List Char → List Char
  | [] => []
  | c :: s =>
    if c.toLower = mark ∧ (digits 10 (scanSign s).2).1 ≠ [] then (digits 10 (scanSign s).2).2
    else c :: s

def numberRest (base : ℕ) (mark : Char) (s : List Char) : List Char :=
  let whole := digits base s
  match whole.2 with
  | '.' :: r =>
    if whole.1 = [] ∧ (digits base r).1 = [] then s else exponentRest mark (digits base r).2
  | r => exponentRest mark r

/-- The argument is neither not-a-number, nor infinite, nor hexadecimal. -/
def IsPlain (arg : List Char) : Prop :=
  ∀ w ∈ [['n', 'a', 'n'], ['i', 'n', 'f'], ['0', 'x']],
    startsWith w (scanSign (arg.dropWhile isSpace)).2 = false

instance (arg : List Char) : Decidable (IsPlain arg) := inferInstanceAs (Decidable (∀ _ ∈ _, _))

/-- The characters behind the decimal numeral that `std::stod` converts. -/
def stodRest (arg : List Char) : List Char := numberRest 10 'e' (scanSign (arg.dropWhile isSpace)).2

/-! ## Characters -/

section Chars

variable {c d : Char}

theorem isDigit_iff : c.isDigit = true ↔ 48 ≤ c.toNat ∧ c.toNat ≤ 57 := by
  simp only [Char.isDigit, Bool.and_eq_true, decide_eq_true_eq, ge_iff_le, UInt32.le_iff_toNat_le]
  exact Iff.rfl

theorem digitVal_isSome (c : Char) : (digitVal 10 c).isSome = c.isDigit := by
  rw [Bool.eq_iff_iff, isDigit_iff]
  unfold digitVal
  simp only [Char.le_def, UInt32.le_iff_toNat_le]
  change (if (if 48 ≤ c.toNat ∧ c.toNat ≤ 57 then _ else if 97 ≤ c.toNat ∧ c.toNat ≤ 122 then _
    else if 65 ≤ c.toNat ∧ c.toNat ≤ 90 then _ else _) < 10 then _ else _ : Option ℕ).isSome = true ↔ _
  split_ifs <;> simp <;> omega

theorem toLower_eq (h : c.toLower = d) : c = d ∨ c.toNat + 32 = d.toNat := by
  unfold Char.toLower at h
  split at h
  · next hc =>
    right
    rw [← h]
    simp only [ge_iff_le, UInt32.le_iff_toNat_le] at hc
    have hle : c.val.toNat ≤ 90 := hc.2
    have h32 : (32 : UInt32).toNat = 32 := rfl
    show c.val.toNat + 32 = (c.val + 32).toNat
    rw [UInt32.toNat_add]
    omega
  · exact .inl h

/-- The characters of a decimal numeral. -/
def IsNumeralChar (c : Char) : Prop := c.isDigit = true ∨ c ∈ ['+', '-', '.', 'e', 'E']

theorem IsNumeralChar.toLower_ne (h : IsNumeralChar c) (hd : d ∈ ['n', 'i', 'x']) :
    c.toLower ≠ d := by
  intro he
  have hl := toLower_eq he
  rcases h with h | h
  · rw [isDigit_iff] at h
    simp only [List.mem_cons, List.not_mem_nil, or_false] at hd
    rcases hd with rfl | rfl | rfl
    all_goals
      rcases hl with rfl | hl
      · revert h
        decide
      · have : ('n'.toNat = 110 ∧ 'i'.toNat = 105) ∧ 'x'.toNat = 120 := by decide
        omega
  · simp only [List.mem_cons, List.not_mem_nil, or_false] at hd h
    rcases h with rfl | rfl | rfl | rfl | rfl <;> rcases hd with rfl | rfl | rfl <;>
      exact absurd he (by decide)

end Chars

/-! ## Scanning -/

section Scan

variable {s r : List Char}

theorem digits_eq (base : ℕ) (s : List Char) :
    digits base s = ((s.takeWhile fun c => (digitVal base c).isSome).filterMap (digitVal base),
      s.dropWhile fun c => (digitVal base c).isSome) := by
  induction s with
  | nil => rfl
  | cons c s ih =>
    rw [digits]
    cases hc : digitVal base c with
    | none => simp [hc]
    | some d => simp [hc, ih]

theorem digits_rest (s : List Char) : (digits 10 s).2 = s.dropWhile (·.isDigit) := by
  rw [digits_eq]
  simp only [digitVal_isSome]

theorem digits_eq_nil : (digits 10 s).1 = [] ↔ s.takeWhile (·.isDigit) = [] := by
  rw [digits_eq]
  simp only [digitVal_isSome, List.filterMap_eq_nil_iff]
  constructor
  · intro h
    refine List.eq_nil_iff_forall_not_mem.mpr fun c hc => ?_
    have hd : (digitVal 10 c).isSome = true := by
      rw [digitVal_isSome]
      exact List.mem_takeWhile_imp hc
    rw [h c hc] at hd
    cases hd
  · intro h
    rw [h]
    exact fun c hc => nomatch hc

theorem allDigits_takeWhile (s : List Char) : AllDigits (s.takeWhile (·.isDigit)) :=
  fun _ hc => List.mem_takeWhile_imp (p := fun c : Char => c.isDigit) hc

/-- A string of digits is scanned to the first other character. -/
theorem digits_append (hs : AllDigits s) (hr : ∀ c ∈ r.head?, c.isDigit = false) :
    (s ++ r).takeWhile (·.isDigit) = s ∧ (s ++ r).dropWhile (·.isDigit) = r := by
  induction s with
  | nil =>
    cases r with
    | nil => exact ⟨rfl, rfl⟩
    | cons c r =>
      have hc := hr c rfl
      simp [hc]
  | cons c s ih =>
    have hc := hs c (by simp)
    obtain ⟨ht, hd⟩ := ih fun d hd => hs d (by simp [hd])
    rw [List.cons_append, List.takeWhile_cons_of_pos hc, List.dropWhile_cons_of_pos hc, ht, hd]
    exact ⟨rfl, rfl⟩

theorem scanSign_cons (c : Char) (s : List Char) : scanSign (c :: s) =
    if c = '-' then (true, s) else if c = '+' then (false, s) else (false, c :: s) := by
  unfold scanSign
  split
  · next h =>
    cases h
    rfl
  · next h =>
    cases h
    rfl
  · next hm hp => rw [if_neg fun h => hm s (by rw [h]), if_neg fun h => hp s (by rw [h])]

theorem scanSign_cases (s : List Char) : ∃ sg, Sign sg ∧ s = sg ++ (scanSign s).2 := by
  unfold scanSign
  split
  · exact ⟨_, .minus, rfl⟩
  · exact ⟨_, .plus, rfl⟩
  · exact ⟨_, .none, rfl⟩

theorem scanSign_append {sg : List Char} (hsg : Sign sg) (hs : ∀ c ∈ s.head?, c ≠ '-' ∧ c ≠ '+') :
    (scanSign (sg ++ s)).2 = s := by
  cases hsg with
  | minus => rfl
  | plus => rfl
  | none =>
    rw [List.nil_append]
    unfold scanSign
    split
    · exact absurd rfl (hs '-' rfl).1
    · exact absurd rfl (hs '+' rfl).2
    · rfl

theorem head_of_digits (hs : AllDigits s) (hne : s ≠ []) (r : List Char) :
    ∃ c, (s ++ r).head? = some c ∧ c.isDigit = true := by
  cases s with
  | nil => exact absurd rfl hne
  | cons c s => exact ⟨c, rfl, hs c (by simp)⟩

end Scan

/-! ## Complete conversions -/

section Complete

variable {s arg : List Char}

theorem allDigits_chars (hs : AllDigits s) : ∀ c ∈ s, IsNumeralChar c := fun c hc => .inl (hs c hc)

theorem Sign.chars {sg : List Char} (h : Sign sg) : ∀ c ∈ sg, IsNumeralChar c := by
  intro c hc
  cases h with
  | none => cases hc
  | minus =>
    rw [List.mem_singleton.mp hc]
    exact .inr (by decide)
  | plus =>
    rw [List.mem_singleton.mp hc]
    exact .inr (by decide)

theorem IntNumeral.chars (h : IntNumeral s) : ∀ c ∈ s, IsNumeralChar c := by
  cases h with
  | mk hsg _ hds =>
    intro c hc
    exact (List.mem_append.mp hc).elim (hsg.chars c) (allDigits_chars hds c)

theorem Mantissa.chars (h : Mantissa s) : ∀ c ∈ s, IsNumeralChar c := by
  cases h with
  | whole _ hds => exact allDigits_chars hds
  | point _ hds hfs =>
    intro c hc
    rcases List.mem_append.mp hc with hc | hc
    · exact allDigits_chars hds c hc
    rcases List.mem_cons.mp hc with rfl | hc
    · exact .inr (by decide)
    · exact allDigits_chars hfs c hc

theorem Exponent.chars (h : Exponent s) : ∀ c ∈ s, IsNumeralChar c := by
  cases h with
  | none => exact fun c hc => nomatch hc
  | @mk c s hc hs =>
    intro d hd
    rcases List.mem_cons.mp hd with rfl | hd
    · rcases toLower_eq hc with rfl | hn
      · exact .inr (by decide)
      · have hE : d = 'E' := by
          apply Char.toNat_inj.mp
          have : 'e'.toNat = 101 ∧ 'E'.toNat = 69 := by decide
          omega
        exact .inr (by simp [hE])
    · exact hs.chars d hd

theorem not_sign_of_digit {c : Char} (h : c.isDigit = true) : c ≠ '-' ∧ c ≠ '+' := by
  constructor <;> rintro rfl <;> exact absurd h (by decide)

/-- An integer numeral is what is scanned to the end. -/
theorem intNumeral_iff : IntNumeral s ↔
    (digits 10 (scanSign s).2).1 ≠ [] ∧ (digits 10 (scanSign s).2).2 = [] := by
  rw [Ne, digits_eq_nil, digits_rest]
  constructor
  · rintro ⟨hsg, hne, hds⟩
    rename_i sg ds
    obtain ⟨ht, hd⟩ := digits_append hds (r := []) (fun c hc => nomatch hc)
    rw [List.append_nil] at ht hd
    have hscan : (scanSign (sg ++ ds)).2 = ds := scanSign_append hsg fun c hc => by
      obtain ⟨d, hd, hdig⟩ := head_of_digits hds hne []
      rw [List.append_nil] at hd
      cases hd.symm.trans hc
      exact not_sign_of_digit hdig
    rw [hscan, ht, hd]
    exact ⟨hne, rfl⟩
  · rintro ⟨hne, hrest⟩
    obtain ⟨sg, hsg, he⟩ := scanSign_cases s
    have hsplit := List.takeWhile_append_dropWhile (p := (·.isDigit)) (l := (scanSign s).2)
    rw [hrest, List.append_nil] at hsplit
    rw [he]
    refine .mk hsg ?_ ?_
    · rw [← hsplit]
      exact hne
    · rw [← hsplit]
      exact allDigits_takeWhile _

/-- An exponent is what is scanned to the end. -/
theorem exponent_iff : Exponent s ↔ exponentRest 'e' s = [] := by
  cases s with
  | nil => exact iff_of_true .none rfl
  | cons c s =>
    rw [exponentRest]
    constructor
    · intro h
      cases h with
      | mk hc hs =>
        obtain ⟨hne, hrest⟩ := intNumeral_iff.mp hs
        rw [if_pos ⟨hc, hne⟩, hrest]
    · intro h
      split at h
      · next hc => exact .mk hc.1 (intNumeral_iff.mpr ⟨hc.2, h⟩)
      · cases h

theorem Exponent.head (h : Exponent s) : ∀ c ∈ s.head?, c.isDigit = false ∧ c ≠ '.' := by
  intro c hc
  cases h with
  | none => cases hc
  | mk he _ =>
    cases hc
    constructor
    · rw [Bool.eq_false_iff, Ne, isDigit_iff]
      have : 'e'.toNat = 101 := by decide
      rcases toLower_eq he with rfl | hn
      · omega
      · omega
    · rintro rfl
      exact absurd he (by decide)

/-- The magnitude of a decimal numeral is what is scanned to the end. -/
theorem magnitude_iff (hv : (scanNumber 10 10 'e' s).isSome = true) :
    (∃ m e, s = m ++ e ∧ Mantissa m ∧ Exponent e) ↔ numberRest 10 'e' s = [] := by
  constructor
  · rintro ⟨m, e, rfl, hm, he⟩
    have hhead := fun c hc => (he.head c hc).1
    cases hm with
    | whole hne hds =>
      have hrest : (digits 10 (m ++ e)).2 = e := (digits_rest _).trans (digits_append hds hhead).2
      rw [numberRest, hrest]
      split
      · exact absurd rfl (he.head '.' rfl).2
      · exact exponent_iff.mp he
    | @point ds fs hne hds hfs =>
      rw [List.append_assoc, List.cons_append]
      obtain ⟨ht, hd⟩ := digits_append hds (r := '.' :: (fs ++ e)) fun c hc => by
        cases hc
        decide
      have hrest : (digits 10 (ds ++ '.' :: (fs ++ e))).2 = '.' :: (fs ++ e) := (digits_rest _).trans hd
      obtain ⟨hft, hfd⟩ := digits_append hfs hhead
      have hnone : ¬ ((digits 10 (ds ++ '.' :: (fs ++ e))).1 = [] ∧ (digits 10 (fs ++ e)).1 = []) := by
        rw [digits_eq_nil, digits_eq_nil, ht, hft, ← List.append_eq_nil_iff]
        exact hne
      have hfrac : (digits 10 (fs ++ e)).2 = e := (digits_rest _).trans hfd
      rw [numberRest, hrest]
      change (if _ then _ else exponentRest 'e' (digits 10 (fs ++ e)).2) = []
      rw [if_neg hnone, hfrac]
      exact exponent_iff.mp he
  · intro h
    have hsplit := List.takeWhile_append_dropWhile (p := (·.isDigit)) (l := s)
    rw [← digits_rest] at hsplit
    have hds := allDigits_takeWhile s
    rw [numberRest] at h
    rw [scanNumber] at hv
    split at h
    · next r hr =>
      rw [hr] at hv hsplit
      split at h
      · next hnone =>
        change (if (digits 10 s).1 = [] ∧ (digits 10 r).1 = [] then none else some _ :
          Option ℚ).isSome = true at hv
        rw [if_pos hnone] at hv
        cases hv
      · next hsome =>
        have hfs := List.takeWhile_append_dropWhile (p := (·.isDigit)) (l := r)
        refine ⟨s.takeWhile (·.isDigit) ++ '.' :: r.takeWhile (·.isDigit), r.dropWhile (·.isDigit), ?_,
          .point ?_ hds (allDigits_takeWhile r), ?_⟩
        · rw [List.append_assoc, List.cons_append, hfs]
          exact hsplit.symm
        · rw [Ne, List.append_eq_nil_iff, ← digits_eq_nil, ← digits_eq_nil]
          exact hsome
        · rw [exponent_iff, ← digits_rest]
          exact h
    · next hdot =>
      refine ⟨s.takeWhile (·.isDigit), (digits 10 s).2, hsplit.symm, .whole (fun hnil => ?_) hds,
        exponent_iff.mpr h⟩
      have hfrac : (match (digits 10 s).2 with
          | '.' :: r => digits 10 r
          | r => ([], r)).1 = [] := by
        split
        · next r hr => exact absurd hr (hdot r)
        · rfl
      rw [if_pos ⟨digits_eq_nil.mpr hnil, hfrac⟩] at hv
      cases hv

theorem Mantissa.head (h : Mantissa s) (r : List Char) : ∀ c ∈ (s ++ r).head?, c ≠ '-' ∧ c ≠ '+' := by
  intro c hc
  cases h with
  | whole hne hds =>
    obtain ⟨d, hd, hdig⟩ := head_of_digits hds hne r
    cases hd.symm.trans hc
    exact not_sign_of_digit hdig
  | @point ds fs hne hds hfs =>
    cases ds with
    | nil =>
      cases hc
      decide
    | cons d ds =>
      cases hc
      exact not_sign_of_digit (hds c (by simp))

theorem dropWhile_isSpace (hs : ∀ c ∈ arg, isSpace c = false) : arg.dropWhile isSpace = arg := by
  cases arg with
  | nil => rfl
  | cons c arg =>
    apply List.dropWhile_cons_of_neg
    rw [hs c (by simp)]
    simp

/-- A numeral is neither not-a-number, nor infinite, nor hexadecimal. -/
theorem isPlain_of_chars (hs : ∀ c ∈ arg, IsNumeralChar c) (hsp : ∀ c ∈ arg, isSpace c = false) :
    IsPlain arg := by
  have hmem : ∀ c ∈ (scanSign (arg.dropWhile isSpace)).2, IsNumeralChar c := by
    intro c hc
    rw [dropWhile_isSpace hsp] at hc
    obtain ⟨sg, -, he⟩ := scanSign_cases arg
    rw [he] at hs
    exact hs c (List.mem_append_right sg hc)
  have hbad : ∀ w ∈ [['n', 'a', 'n'], ['i', 'n', 'f'], ['0', 'x']], ∃ d ∈ w, d ∈ ['n', 'i', 'x'] := by
    simp
  intro w hw
  rw [startsWith, decide_eq_false_iff_not]
  intro he
  obtain ⟨d, hdw, hd⟩ := hbad w hw
  rw [← he, List.mem_map] at hdw
  obtain ⟨c, hc, hcd⟩ := hdw
  exact (hmem c (List.mem_of_mem_take hc)).toLower_ne hd hcd

theorem stoi_ok {v : ℤ} (hv : stoi arg = .ok v) :
    (digits 10 (scanSign (arg.dropWhile isSpace)).2).1 ≠ [] := by
  unfold stoi at hv
  dsimp only at hv
  split at hv
  · cases hv
  · assumption

/-- The integer arguments that are converted to their end. -/
theorem intNumeral_arg (hs : ∀ c ∈ arg, isSpace c = false) {v : ℤ} (hv : stoi arg = .ok v) :
    IntNumeral arg ↔ stoiRest arg = [] := by
  have hds := stoi_ok hv
  rw [stoiRest]
  rw [dropWhile_isSpace hs] at hds ⊢
  rw [intNumeral_iff]
  exact and_iff_right hds

theorem stod_ok {v : Numeral} (hv : stod arg = .ok v) (hp : IsPlain arg) :
    (scanNumber 10 10 'e' (scanSign (arg.dropWhile isSpace)).2).isSome = true := by
  have hnan := hp ['n', 'a', 'n'] (by simp)
  have hinf := hp ['i', 'n', 'f'] (by simp)
  have hhex := hp ['0', 'x'] (by simp)
  cases hn : scanNumber 10 10 'e' (scanSign (arg.dropWhile isSpace)).2 with
  | some q => rfl
  | none => simp [stod, scanMagnitude, hnan, hinf, hhex, hn] at hv

/-- The arguments that are converted to their end as finite decimal numerals. -/
theorem decimalNumeral_arg (hs : ∀ c ∈ arg, isSpace c = false) {v : Numeral}
    (hv : stod arg = .ok v) : DecimalNumeral arg ↔ IsPlain arg ∧ stodRest arg = [] := by
  constructor
  · intro h
    cases h with
    | @mk sg m e hsg hm he =>
      have hp : IsPlain (sg ++ (m ++ e)) := by
        refine isPlain_of_chars (fun c hc => ?_) hs
        simp only [List.mem_append] at hc
        rcases hc with hc | hc | hc
        · exact hsg.chars c hc
        · exact hm.chars c hc
        · exact he.chars c hc
      have hv := stod_ok hv hp
      refine ⟨hp, ?_⟩
      rw [stodRest]
      rw [dropWhile_isSpace hs, scanSign_append hsg (hm.head e)] at hv ⊢
      exact (magnitude_iff hv).mp ⟨m, e, rfl, hm, he⟩
  · rintro ⟨hp, hr⟩
    have hv := stod_ok hv hp
    rw [stodRest] at hr
    rw [dropWhile_isSpace hs] at hv hr
    obtain ⟨m, e, he, hm, hexp⟩ := (magnitude_iff hv).mpr hr
    obtain ⟨sg, hsg, hsplit⟩ := scanSign_cases arg
    rw [hsplit, he]
    exact .mk hsg hm hexp

end Complete

/-! ## Characters that end a numeral -/

/-- A character that no numeral contains. -/
structure Stops (c : Char) : Prop where
  digit : ∀ base, base ≤ 16 → digitVal base c = none
  sign : c ≠ '-' ∧ c ≠ '+' ∧ c ≠ '.'
  space : isSpace c = false
  letter : c.toLower ∉ ['e', 'p', 'n', 'a', 'i', 'f', '0', 'x']

/-- What `scanNumber` reads behind the whole part. -/
def fraction (base : ℕ) (s : List Char) : List ℕ × List Char :=
  match s with
  | '.' :: r => digits base r
  | r => ([], r)

theorem fraction_cons (base : ℕ) (c : Char) (s : List Char) :
    fraction base (c :: s) = if c = '.' then digits base s else ([], c :: s) := by
  unfold fraction
  split
  · next h =>
    cases h
    rfl
  · next h => rw [if_neg fun hc => h s (by rw [hc])]

theorem scanNumber_eq (base radix : ℕ) (e : Char) (s : List Char) : scanNumber base radix e s =
    let whole := digits base s
    let frac := fraction base whole.2
    if whole.1 = [] ∧ frac.1 = [] then none
    else some (scale radix (scanExponent e frac.2)
      (ofDigits base (whole.1 ++ frac.1) / (base ^ frac.1.length : ℕ))) := rfl

section Stop

variable {mark : Char} (hm : Stops mark) (x : List Char)

include hm

theorem scanSign_stop (s : List Char) :
    scanSign (s ++ mark :: x) = ((scanSign s).1, (scanSign s).2 ++ mark :: x) := by
  cases s with
  | nil =>
    rw [List.nil_append, scanSign_cons, if_neg hm.sign.1, if_neg hm.sign.2.1]
    rfl
  | cons c s =>
    rw [List.cons_append, scanSign_cons, scanSign_cons]
    split
    · rfl
    · split <;> rfl

theorem digits_stop {base : ℕ} (hb : base ≤ 16) (s : List Char) :
    digits base (s ++ mark :: x) = ((digits base s).1, (digits base s).2 ++ mark :: x) := by
  induction s with
  | nil => simp [digits, hm.digit base hb]
  | cons c s ih =>
    rw [List.cons_append, digits, digits, ih]
    cases digitVal base c <;> rfl

theorem dropWhile_stop (s : List Char) :
    (s ++ mark :: x).dropWhile isSpace = s.dropWhile isSpace ++ mark :: x := by
  induction s with
  | nil =>
    apply List.dropWhile_cons_of_neg
    rw [hm.space]
    simp
  | cons c s ih =>
    rw [List.cons_append, List.dropWhile_cons, List.dropWhile_cons, ih]
    split <;> rfl

theorem stoi_stop (s : List Char) : stoi (s ++ mark :: x) = stoi s := by
  simp only [stoi, dropWhile_stop hm, scanSign_stop hm, digits_stop hm x (show 10 ≤ 16 by omega)]

theorem scanExponent_stop {e : Char} (he : e ∈ ['e', 'p']) (s : List Char) :
    scanExponent e (s ++ mark :: x) = scanExponent e s := by
  cases s with
  | nil =>
    have hne : mark.toLower ≠ e := by
      rintro rfl
      exact hm.letter (List.mem_append_left ['n', 'a', 'i', 'f', '0', 'x'] he)
    simp [scanExponent, hne]
  | cons c s =>
    simp only [List.cons_append, scanExponent, scanSign_stop hm,
      digits_stop hm x (show 10 ≤ 16 by omega)]

theorem fraction_stop {base : ℕ} (hb : base ≤ 16) (s : List Char) :
    fraction base (s ++ mark :: x) = ((fraction base s).1, (fraction base s).2 ++ mark :: x) := by
  cases s with
  | nil =>
    rw [List.nil_append, fraction_cons, if_neg hm.sign.2.2]
    rfl
  | cons c s =>
    rw [List.cons_append, fraction_cons, fraction_cons]
    split
    · exact digits_stop hm x hb s
    · rfl

theorem scanNumber_stop {base : ℕ} (hb : base ≤ 16) (radix : ℕ) {e : Char} (he : e ∈ ['e', 'p'])
    (s : List Char) : scanNumber base radix e (s ++ mark :: x) = scanNumber base radix e s := by
  simp only [scanNumber_eq, digits_stop hm x hb, fraction_stop hm x hb, scanExponent_stop hm x he]

omit hm in
theorem startsWith_stop {w : List Char} (hw : mark.toLower ∉ w) (s : List Char) :
    startsWith w (s ++ mark :: x) = startsWith w s := by
  unfold startsWith
  by_cases hl : w.length ≤ s.length
  · rw [List.take_append_of_le_length hl]
  · have hlen : ((s ++ mark :: x).take w.length).map Char.toLower ≠ w := by
      intro he
      apply hw
      rw [← he, List.mem_map]
      refine ⟨mark, ?_, rfl⟩
      rw [List.take_append, show w.length - s.length = (w.length - s.length - 1) + 1 by omega]
      simp
    have hshort : (s.take w.length).map Char.toLower ≠ w := by
      intro he
      have := congrArg List.length he
      simp only [List.length_map, List.length_take] at this
      omega
    rw [decide_eq_false hlen, decide_eq_false hshort]

theorem scanMagnitude_stop (s : List Char) : scanMagnitude (s ++ mark :: x) = scanMagnitude s := by
  have hinf : mark.toLower ∉ ['i', 'n', 'f'] := fun h => by
    apply hm.letter
    simp only [List.mem_cons, List.not_mem_nil, or_false] at h ⊢
    tauto
  have hhex : mark.toLower ∉ ['0', 'x'] := fun h => by
    apply hm.letter
    simp only [List.mem_cons, List.not_mem_nil, or_false] at h ⊢
    tauto
  rw [scanMagnitude, scanMagnitude, startsWith_stop x hinf, startsWith_stop x hhex,
    scanNumber_stop hm x (by omega) 10 (by simp)]
  split
  · rfl
  · split
    · next h =>
      have hlen : 2 ≤ s.length := by
        have := congrArg List.length (of_decide_eq_true h)
        simp only [List.length_map, List.length_take, List.length_cons, List.length_nil] at this
        omega
      rw [List.drop_append_of_le_length hlen, scanNumber_stop hm x (by omega) 2 (by simp)]
    · rfl

/-- What stands behind the mark does not change the value. -/
theorem stod_stop (s : List Char) : stod (s ++ mark :: x) = stod s := by
  have hnan : mark.toLower ∉ ['n', 'a', 'n'] := fun h => by
    apply hm.letter
    simp only [List.mem_cons, List.not_mem_nil, or_false] at h ⊢
    tauto
  simp only [stod, dropWhile_stop hm, scanSign_stop hm, startsWith_stop x hnan,
    scanMagnitude_stop hm]

end Stop

end Cncpp
