import Cncpp.Numerals
import Cncpp.Modal

/-! The grammar of commands.  `parse` accepts every word whose argument starts with a
numeral; a word of the grammar is one whose argument is the numeral. -/

namespace Cncpp

open DataArith Lib Lib.ExceptState

/-- One known letter, and one complete finite numeral: an integer for N, G, T and M. -/
inductive CommandWord (t : Token) : Prop
  | int : letter t ∈ ['N', 'G', 'T', 'M'] → IntNumeral t.tail → CommandWord t
  | decimal : letter t ∈ ['X', 'Y', 'Z', 'I', 'J', 'R', 'F', 'S'] → DecimalNumeral t.tail →
      CommandWord t

/-- The conversion of the argument stops at its end, and it converts digits: the
argument is neither not-a-number, nor infinite, nor hexadecimal. -/
structure Exhausted (t : Token) : Prop where
  int : letter t ∈ ['N', 'G', 'T', 'M'] → stoiRest t.tail = []
  decimal : letter t ∈ ['X', 'Y', 'Z', 'I', 'J', 'R', 'F', 'S'] →
    IsPlain t.tail ∧ stodRest t.tail = []

instance (t : Token) : Decidable (Exhausted t) :=
  decidable_of_iff ((letter t ∈ ['N', 'G', 'T', 'M'] → stoiRest t.tail = []) ∧
    (letter t ∈ ['X', 'Y', 'Z', 'I', 'J', 'R', 'F', 'S'] → IsPlain t.tail ∧ stodRest t.tail = []))
    ⟨fun h => ⟨h.1, h.2⟩, fun h => ⟨h.int, h.decimal⟩⟩

/-- The two kinds of letters are different. -/
theorem letter_kinds {c : Char} (hi : c ∈ ['N', 'G', 'T', 'M']) :
    c ∉ ['X', 'Y', 'Z', 'I', 'J', 'R', 'F', 'S'] := by
  simp only [List.mem_cons, List.not_mem_nil, or_false] at hi
  rcases hi with rfl | rfl | rfl | rfl <;> decide

/-- An accepted word belongs to the grammar exactly where its argument is used up. -/
theorem commandWord_iff {t : Token} (hs : ∀ c ∈ t, isSpace c = false) (hw : IsWord t) :
    CommandWord t ↔ Exhausted t := by
  have htail : ∀ c ∈ t.tail, isSpace c = false := fun c hc => hs c (List.mem_of_mem_tail hc)
  obtain ⟨-, ⟨hl, v, hv⟩ | ⟨hl, v, hv⟩⟩ := hw
  · have hnd := letter_kinds hl
    constructor
    · intro h
      cases h with
      | int _ hn => exact ⟨fun _ => (intNumeral_arg htail hv).mp hn, fun h => absurd h hnd⟩
      | decimal h _ => exact absurd h hnd
    · intro h
      exact .int hl ((intNumeral_arg htail hv).mpr (h.int hl))
  · have hni : letter t ∉ ['N', 'G', 'T', 'M'] := fun h => letter_kinds h hl
    constructor
    · intro h
      cases h with
      | int h _ => exact absurd h hni
      | decimal _ hn => exact ⟨fun h => absurd h hni, fun _ => (decimalNumeral_arg htail hv).mp hn⟩
    · intro h
      exact .decimal hl ((decimalNumeral_arg htail hv).mpr (h.decimal hl))

theorem isSpace_of_commands {line : Line} {t : Token} (h : t ∈ commands line) :
    ∀ c ∈ t, isSpace c = false :=
  isSpace_of_words ((List.takeWhile_prefix _).subset h)

namespace Block

variable {K : Type} [DataArith K]

/-- The words of an accepted line belong to the grammar exactly where every conversion
stops at the end of its argument. -/
theorem words_complete_iff {m : Machine K} {prev : Option (Block K)} {b c : Block K}
    (h : (parse m prev).run b = .ok () c) :
    (∀ t ∈ commands b.line, CommandWord t) ↔ ∀ t ∈ commands b.line, Exhausted t := by
  have hw := (parse_iff.mp h).words
  constructor
  · intro hg t ht
    exact (commandWord_iff (isSpace_of_commands ht) (hw t ht)).mp (hg t ht)
  · intro he t ht
    exact (commandWord_iff (isSpace_of_commands ht) (hw t ht)).mpr (he t ht)

def spacedLine : Line := "g1 x10 Y-2.5e1 F100 ; X1Y2".toList
def gluedLine : Line := "G1 X10Y20 F100".toList

theorem words_complete_spaced :
    ∃ c : Block XReal, (parse Machine.default none).run (ofLine 0 spacedLine) = .ok () c ∧
      ∀ t ∈ commands spacedLine, CommandWord t := by
  have hb : Constructed spacedLine none (ofLine (K := XReal) 0 spacedLine) := .first 0
  obtain ⟨c, h⟩ := exists_parse (m := Machine.default) hb (by decide +kernel) (by simp) rfl
    (by decide +kernel)
  exact ⟨c, h, (words_complete_iff h).mpr (by decide +kernel)⟩

/-- Two words without a blank between them are accepted as one: the second one is lost. -/
theorem glued_word_lost :
    ∃ c : Block XReal, (parse Machine.default none).run (ofLine 0 gluedLine) = .ok () c ∧
      (∃ t ∈ commands gluedLine, ¬ CommandWord t) ∧
      c.target = .ofCoords (num 10) (num 0) (num 0) := by
  have hb : Constructed gluedLine none (ofLine (K := XReal) 0 gluedLine) := .first 0
  obtain ⟨c, h⟩ := exists_parse (m := Machine.default) hb (by decide +kernel) (by simp) rfl
    (by decide +kernel)
  have hmem : "X10Y20".toList ∈ commands gluedLine := by decide +kernel
  refine ⟨c, h, ⟨_, hmem, ?_⟩, ?_⟩
  · rw [commandWord_iff (isSpace_of_commands hmem) (by decide +kernel)]
    decide +kernel
  · have hm : ModalState .default ([] ++ [gluedLine]) c := modal_of_parse hb rfl h
    have hx : lastOf (numeralWord 'X') (wordsOf [gluedLine]) = some (.finite 10) := by decide +kernel
    have hy : lastOf (numeralWord 'Y') (wordsOf [gluedLine]) = none := by decide +kernel
    have hz : lastOf (numeralWord 'Z') (wordsOf [gluedLine]) = none := by decide +kernel
    rw [hm.target]
    simp only [modalTarget, List.nil_append, lastOf_dataWord, hx, hy, hz]
    rfl

end Block

end Cncpp
