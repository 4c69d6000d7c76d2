import Cncpp.Independence
import Cncpp.Modal

/-! Block numbers, read off the text: a word N gives the number of its block and must
exceed the one before, and a block without one takes the next number, in 64 bits. -/

namespace Cncpp

open DataArith Lib Lib.ExceptState

/-! ## The reference -/

/-- The number of a block behind one with the number `k`. -/
def nextNumber (k : Option ℕ) (line : Line) : ℕ :=
  (lastOf (sizeWord 'N') (commands line)).getD (k.elim 0 fun v => (v + 1) % 2 ^ 64)

/-- The numbers of the blocks of some lines. -/
def numbers (k : Option ℕ) : List Line → List ℕ
  | [] => []
  | line :: text => nextNumber k line :: numbers (some (nextNumber k line)) text

/-- The number of the last block. -/
def lastNumber (k : Option ℕ) (text : List Line) : Option ℕ :=
  text.foldl (fun k line => some (nextNumber k line)) k

/-- The number of the last block of a text. -/
def numberOf (text : List Line) : Option ℕ := lastNumber none text

/-- The words N of a line exceed the number before it. -/
def Exceeds (k : Option ℕ) (line : Line) : Prop :=
  ∀ v ∈ k, ∀ t ∈ commands line, ∀ n ∈ sizeWord 'N' t, v < n

/-- Every word N exceeds the number of the block before its own. -/
def Checked (k : Option ℕ) : List Line → Prop
  | [] => True
  | line :: text => Exceeds k line ∧ Checked (some (nextNumber k line)) text

instance (k : Option ℕ) (line : Line) : Decidable (Exceeds k line) :=
  inferInstanceAs (Decidable (∀ v ∈ k, ∀ t ∈ commands line, ∀ n ∈ sizeWord 'N' t, v < n))

instance decidableChecked : (k : Option ℕ) → (text : List Line) → Decidable (Checked k text)
  | _, [] => isTrue trivial
  | k, line :: text =>
    have := decidableChecked (some (nextNumber k line)) text
    inferInstanceAs (Decidable (Exceeds k line ∧ Checked (some (nextNumber k line)) text))

section Reference

variable {k : Option ℕ} {line : Line}

theorem lastNumber_concat (k : Option ℕ) (text : List Line) (line : Line) :
    lastNumber k (text ++ [line]) = some (nextNumber (lastNumber k text) line) := by
  simp [lastNumber]

theorem numbers_append (k : Option ℕ) (text text' : List Line) :
    numbers k (text ++ text') = numbers k text ++ numbers (lastNumber k text) text' := by
  induction text generalizing k with
  | nil => rfl
  | cons line text ih =>
    rw [List.cons_append, numbers, numbers, ih]
    rfl

theorem checked_append (k : Option ℕ) (text text' : List Line) :
    Checked k (text ++ text') ↔ Checked k text ∧ Checked (lastNumber k text) text' := by
  induction text generalizing k with
  | nil => exact (and_iff_right trivial).symm
  | cons line text ih =>
    rw [List.cons_append, Checked, Checked, ih, and_assoc]
    rfl

theorem getLast?_numbers (k : Option ℕ) (text : List Line) :
    (numbers k text).getLast?.or k = lastNumber k text := by
  induction text generalizing k with
  | nil => rfl
  | cons line text ih =>
    rw [numbers, List.getLast?_cons]
    have ih := ih (some (nextNumber k line))
    rw [lastNumber, List.foldl_cons, ← lastNumber, ← ih]
    cases (numbers (some (nextNumber k line)) text).getLast? <;> rfl

/-- The number at a place follows from the lines up to it. -/
theorem numbers_get (k : Option ℕ) (text : List Line) (i : ℕ) :
    (numbers k text)[i]? = text[i]?.map (nextNumber (lastNumber k (text.take i))) := by
  induction text generalizing k i with
  | nil => rfl
  | cons line text ih =>
    cases i with
    | zero => rfl
    | succ i =>
      rw [numbers, List.getElem?_cons_succ, List.getElem?_cons_succ, ih]
      rfl

theorem Checked.get {text : List Line} (h : Checked k text) {i : ℕ} (hl : text[i]? = some line) :
    Exceeds (lastNumber k (text.take i)) line := by
  induction text generalizing k i with
  | nil => cases hl
  | cons l text ih =>
    cases i with
    | zero =>
      cases hl
      exact h.1
    | succ i => exact ih h.2 hl

theorem nextNumber_lt (k : Option ℕ) (line : Line) : nextNumber k line < 2 ^ 64 := by
  rw [nextNumber]
  cases hn : lastOf (sizeWord 'N') (commands line) with
  | none =>
    cases k with
    | none => decide
    | some v =>
      apply Nat.mod_lt
      decide
  | some n =>
    obtain ⟨t, -, ht⟩ := List.mem_filterMap.mp (List.mem_of_getLast? hn)
    obtain ⟨v, -, rfl⟩ := Option.map_eq_some_iff.mp ht
    rw [Option.getD_some, sizeT]
    omega

theorem lastNumber_lt {text : List Line} (hne : text ≠ []) {v : ℕ} (h : lastNumber k text = some v) :
    v < 2 ^ 64 := by
  obtain ⟨init, line, rfl⟩ := List.eq_nil_or_concat text |>.resolve_left hne
  rw [List.concat_eq_append, lastNumber_concat] at h
  cases h
  exact nextNumber_lt _ _

/-- A line without a word N takes the next number; with one, its last word N. -/
theorem nextNumber_cases (k : Option ℕ) (line : Line) :
    (lastOf (sizeWord 'N') (commands line) = none ∧
      nextNumber k line = k.elim 0 fun v => (v + 1) % 2 ^ 64) ∨
    ∃ t ∈ commands line, sizeWord 'N' t = some (nextNumber k line) := by
  rw [nextNumber]
  cases hn : lastOf (sizeWord 'N') (commands line) with
  | none => exact .inl ⟨rfl, rfl⟩
  | some n =>
    obtain ⟨t, ht, hs⟩ := List.mem_filterMap.mp (List.mem_of_getLast? hn)
    exact .inr ⟨t, ht, hs⟩

end Reference

/-! ## The blocks -/

variable {K : Type} [DataArith K] {m : Machine K}

/-- The blocks carry the numbers of a text, and its words N were checked. -/
structure Numbered (text : List Line) (p : Program K) : Prop where
  map_n : p.blocks.map (·.n) = numbers none text
  checked : Checked none text

omit [DataArith K] in
theorem Numbered.last {text : List Line} {p : Program K} (h : Numbered text p) :
    p.blocks.getLast?.map (·.n) = numberOf text := by
  rw [← List.getLast?_map, h.map_n, numberOf, ← getLast?_numbers, Option.or_none]

namespace Program

variable {p p' : Program K} {line : Line} {text : List Line}

/-- An accepted line adds its number, which was checked. -/
theorem number_append (h : Accepted m line p p') :
    p'.blocks.map (·.n) = p.blocks.map (·.n) ++ [nextNumber (p.blocks.getLast?.map (·.n)) line] ∧
      Exceeds (p.blocks.getLast?.map (·.n)) line := by
  obtain ⟨-, c, hc, rfl⟩ := accepted_iff.mp h
  constructor
  · rw [List.map_append, map_front _ fun _ _ => rfl]
    obtain ⟨_, _, _, _, _, _, _, _, _, _, -, rfl⟩ := hc.frame
    refine congrArg (p.blocks.map (·.n) ++ [·]) ?_
    show (lastOf (sizeWord 'N') (commands (Block.start p.fresh line p.blocks.getLast?).line)).getD
      (Block.start p.fresh line p.blocks.getLast?).n = _
    rw [Block.start_line]
    cases p.blocks.getLast? <;> rfl
  · intro v hv t ht n hn
    obtain ⟨o, ho, rfl⟩ := Option.mem_map.mp hv
    have hlt := hc.number { o with next := some p.fresh } (Option.mem_map_of_mem _ ho) t
    rw [Block.start_line] at hlt
    exact hlt ht n hn

theorem last_append (h : Accepted m line p p') : p'.blocks.getLast?.map (·.n) =
    some (nextNumber (p.blocks.getLast?.map (·.n)) line) := by
  rw [← List.getLast?_map, (number_append h).1, List.getLast?_concat]

theorem numbered_append (h : Numbered text p) (ha : Accepted m line p p') :
    Numbered (text ++ [line]) p' := by
  obtain ⟨hn, hc⟩ := number_append ha
  have hlast := Numbered.last h
  rw [hlast] at hn hc
  refine ⟨?_, ?_⟩
  · rw [hn, h.map_n, numbers_append]
    rfl
  · rw [checked_append]
    exact ⟨h.checked, hc, trivial⟩

theorem numbered_lines {lines : List Line} (hr : Run (Accepted m) p lines p')
    (h : Numbered text p) : Numbered (text ++ lines) p' := by
  induction hr generalizing text with
  | nil p => simpa using h
  | cons ha _ ih =>
    rw [List.append_cons]
    exact ih (numbered_append h ha)

/-- A text of known words without arcs, with block numbers that increase, is accepted. -/
theorem exists_checked {lines : List Line} (hp : p.Ready)
    (hw : ∀ line ∈ lines, ∀ t ∈ commands line, IsWord t)
    (hc : Checked (p.blocks.getLast?.map (·.n)) lines)
    (ht : ∀ line ∈ lines,
      (lastOf typeWord (commands line)).getD .noMotion ∉ [BlockType.cwa, .ccwa]) :
    ∃ p', Run (Accepted m) p lines p' := by
  refine Run.exists_of (fun lines (p : Program K) => p.Ready ∧
    Checked (p.blocks.getLast?.map (·.n)) lines ∧ ∀ line ∈ lines, (∀ t ∈ commands line, IsWord t) ∧
      (lastOf typeWord (commands line)).getD .noMotion ∉ [BlockType.cwa, .ccwa])
    ?_ ⟨hp, hc, fun line hl => ⟨hw line hl, ht line hl⟩⟩
  rintro line lines p ⟨hp, hc, hall⟩
  obtain ⟨hw, ht⟩ := hall line (List.mem_cons_self ..)
  have hn : ∀ o ∈ p.blocks.getLast?, ∀ t ∈ commands line, ∀ n ∈ sizeWord 'N' t, o.n < n :=
    fun o ho => hc.1 o.n (Option.mem_map_of_mem _ ho)
  obtain ⟨p', ha, hp'⟩ := exists_accepted (m := m) hp hw hn ht
  have hlast := last_append ha
  refine ⟨p', ha, hp', ?_, fun l hl => hall l (List.mem_cons_of_mem _ hl)⟩
  rw [hlast]
  exact hc.2

end Program

variable {p p' : Program K}

/-- A file of known words without arcs, with block numbers that increase, can be loaded. -/
theorem exists_load_checked (m : Machine K) (p : Program K) (file : String) (lines : List Line)
    (hw : ∀ line ∈ lines.filter Program.isCode, ∀ t ∈ commands line, IsWord t)
    (hc : Checked none (lines.filter Program.isCode))
    (ht : ∀ line ∈ lines.filter Program.isCode,
      (lastOf typeWord (commands line)).getD .noMotion ∉ [BlockType.cwa, .ccwa]) :
    ∃ p', Edited m (.load file (some lines) false) p p' := by
  have hready : (Program.reset { p with filename := file }).Ready := by
    intro o ho
    cases ho
  obtain ⟨p', hp'⟩ := Program.exists_checked (m := m) hready hw hc ht
  exact ⟨p', edited_load.mpr ⟨lines, rfl, hp'⟩⟩

theorem numbered_edits {text : List Line} {es : List Edit} (hr : Run (Edited m) p es p')
    (h : Numbered text p) : Numbered (es.foldl Edit.text text) p' := by
  induction hr generalizing text with
  | nil p => exact h
  | cons he _ ih =>
    apply ih
    clear ih
    rename_i e p q r es hr'
    cases e with
    | push line => exact Program.numbered_append h (edited_push.mp he)
    | load file content append =>
      obtain ⟨lines, rfl, hr⟩ := edited_load.mp he
      cases append with
      | false => exact Program.numbered_lines hr ⟨rfl, trivial⟩
      | true => exact Program.numbered_lines hr ⟨h.map_n, h.checked⟩

omit [DataArith K] in
/-- The number of a block, and the next one. -/
theorem Numbered.pair {text : List Line} (h : Numbered text p) {i : ℕ} {b b' : Block K} {line : Line}
    (hb : p.blocks[i]? = some b) (hb' : p.blocks[i + 1]? = some b') (hl : text[i + 1]? = some line) :
    numberOf (text.take (i + 1)) = some b.n ∧ b'.n = nextNumber (some b.n) line ∧
      Exceeds (some b.n) line := by
  have hget : ∀ {j : ℕ} {c : Block K}, p.blocks[j]? = some c → (numbers none text)[j]? = some c.n := by
    intro j c hc
    rw [← h.map_n, List.getElem?_map, hc]
    rfl
  have hi : numberOf (text.take (i + 1)) = some b.n := by
    have hn := hget hb
    rw [numbers_get] at hn
    obtain ⟨l, hli, hln⟩ := Option.map_eq_some_iff.mp hn
    rw [List.take_add_one, hli, numberOf, Option.toList_some, lastNumber_concat, hln]
  refine ⟨hi, ?_, ?_⟩
  · have hn := hget hb'
    rw [numbers_get, hl, Option.map_some] at hn
    rw [← hi]
    exact (Option.some.inj hn).symm
  · rw [← hi]
    exact h.checked.get hl

theorem MadeFrom.words {text : List Line} {line : Line} {b : Block K} (h : MadeFrom m text line b) :
    ∀ t ∈ commands line, IsWord t := by
  cases h with
  | mk _ hb _ h =>
    have hw := (Block.parse_iff.mp h).words
    rwa [hb.line_eq] at hw

/-- The line has a word N. -/
def HasNumber (line : Line) : Prop := ∃ t ∈ commands line, letter t = 'N'

instance (line : Line) : Decidable (HasNumber line) :=
  inferInstanceAs (Decidable (∃ t ∈ commands line, letter t = 'N'))

theorem hasNumber_iff {line : Line} (hw : ∀ t ∈ commands line, IsWord t) :
    HasNumber line ↔ lastOf (sizeWord 'N') (commands line) ≠ none := by
  rw [HasNumber, lastOf, Ne, List.getLast?_eq_none_iff, List.filterMap_eq_nil_iff, not_forall]
  refine exists_congr fun t => ?_
  rw [Classical.not_imp]
  refine and_congr_right fun ht => ?_
  by_cases hl : letter t = 'N'
  · obtain ⟨-, ⟨-, v, hv⟩ | ⟨hm, -⟩⟩ := hw t ht
    · simp [sizeWord, intWord, hl, hv, Except.toOption]
    · rw [hl] at hm
      exact absurd hm (by decide)
  · simp [sizeWord, intWord, hl]

/-- Numbers increase from block to block exactly where no line without a word N stands
behind the greatest number. -/
theorem numbers_increase_iff {es : List Edit} (hr : Run (Edited m) Program.empty es p) :
    (∀ i b b', p.blocks[i]? = some b → p.blocks[i + 1]? = some b' → b.n < b'.n) ↔
      ∀ i line, (textOf es)[i + 1]? = some line →
        numberOf ((textOf es).take (i + 1)) = some (2 ^ 64 - 1) → HasNumber line := by
  have hnum : Numbered (textOf es) p := numbered_edits hr ⟨rfl, trivial⟩
  have hlen := length_of_edits hr
  constructor
  · intro hlt i line hl hmax
    have hi : i + 1 < p.blocks.length := by
      rw [hlen]
      exact (List.getElem?_eq_some_iff.mp hl).1
    have hb := List.getElem?_eq_getElem (l := p.blocks) (i := i) (by omega)
    have hb' := List.getElem?_eq_getElem hi
    obtain ⟨hn, hn', -⟩ := hnum.pair hb hb' hl
    rw [hasNumber_iff (madeFrom_of_edits hr hl hb').words]
    intro hnone
    have hlt := hlt i _ _ hb hb'
    have hmax : (p.blocks[i]).n = 2 ^ 64 - 1 := Option.some.inj (hn.symm.trans hmax)
    rw [nextNumber, hnone, hmax] at hn'
    rw [hn', hmax] at hlt
    exact absurd hlt (by decide)
  · intro hmax i b b' hb hb'
    have hi : i + 1 < (textOf es).length := by
      rw [← hlen]
      exact (List.getElem?_eq_some_iff.mp hb').1
    have hl := List.getElem?_eq_getElem hi
    obtain ⟨hn, hn', hex⟩ := hnum.pair hb hb' hl
    rcases nextNumber_cases (some b.n) (textOf es)[i + 1] with ⟨hnone, hnext⟩ | ⟨t, ht, hs⟩
    · have hne : b.n ≠ 2 ^ 64 - 1 := by
        intro he
        rw [he] at hn
        exact (hasNumber_iff (madeFrom_of_edits hr hl hb').words).mp (hmax i _ hl hn) hnone
      have htake : (textOf es).take (i + 1) ≠ [] := by
        rw [Ne, List.take_eq_nil_iff]
        rintro (h | h)
        · omega
        · rw [h] at hi
          simp at hi
      have hbound := lastNumber_lt htake hn
      rw [hn', hnext, Option.elim_some, Nat.mod_eq_of_lt (by omega)]
      omega
    · rw [hn']
      exact hex b.n rfl t ht _ hs

/-- Numbers, given and implied. -/
def numberedLines : List Line := ["G0 X1".toList, "N7 X2".toList, "Y3".toList]

/-- A negative number, and a line without one behind it. -/
def wrappingLines : List Line := ["N-1 G0 X1".toList, "G0 X2".toList]

theorem numbers_increase_numbered :
    ∃ p : Program XReal, Edited .default (.load "n.g" (some numberedLines) false) .empty p ∧
      ∀ i b b', p.blocks[i]? = some b → p.blocks[i + 1]? = some b' → b.n < b'.n := by
  obtain ⟨p, hp⟩ := exists_load_checked (K := XReal) .default .empty "n.g" numberedLines
    (by decide +kernel) (by decide +kernel) (by decide +kernel)
  refine ⟨p, hp, (numbers_increase_iff (.single hp)).mpr fun i line hl hmax => ?_⟩
  have hi : i + 1 < 3 := (List.getElem?_eq_some_iff.mp hl).1
  have hle : i = 0 ∨ i = 1 := by omega
  rcases hle with rfl | rfl
  · exact absurd hmax (by decide +kernel)
  · exact absurd hmax (by decide +kernel)

/-- The number after the greatest one is zero: numbers do not always increase. -/
theorem number_wraps :
    ∃ p : Program XReal, Edited .default (.load "w.g" (some wrappingLines) false) .empty p ∧
      p.blocks.map (·.n) = [2 ^ 64 - 1, 0] ∧
      ¬ ∀ i b b', p.blocks[i]? = some b → p.blocks[i + 1]? = some b' → b.n < b'.n := by
  obtain ⟨p, hp⟩ := exists_load_checked (K := XReal) .default .empty "w.g" wrappingLines
    (by decide +kernel) (by decide +kernel) (by decide +kernel)
  have hn : Numbered (textOf [.load "w.g" (some wrappingLines) false]) p :=
    numbered_edits (.single hp) ⟨rfl, trivial⟩
  have hmap : p.blocks.map (·.n) = [2 ^ 64 - 1, 0] := by
    rw [hn.map_n]
    decide +kernel
  refine ⟨p, hp, hmap, fun h => ?_⟩
  have hget : ∀ (i v : ℕ), [2 ^ 64 - 1, 0][i]? = some v →
      ∃ b : Block XReal, p.blocks[i]? = some b ∧ b.n = v := by
    intro i v hv
    rw [← hmap, List.getElem?_map] at hv
    exact Option.map_eq_some_iff.mp hv
  obtain ⟨b, hb, h0⟩ := hget 0 _ rfl
  obtain ⟨b', hb', h1⟩ := hget 1 _ rfl
  have hlt := h 0 b b' hb hb'
  omega

end Cncpp
