import Cncpp.Comments

/-! The order of the words in a line.  Each field is written by the words of one letter, the type
by those of two: with one word for each letter, and the number first, the order is free. -/

namespace Cncpp

open DataArith Lib

/-- Only the first word of a line can be its number. -/
def NumberFirst (ts : List Token) : Prop := ∀ t ∈ ts.tail, letter t ≠ 'N'

instance (ts : List Token) : Decidable (NumberFirst ts) :=
  inferInstanceAs (Decidable (∀ t ∈ ts.tail, letter t ≠ 'N'))

/-- The same words, each letter once (case ignored), in another order behind the number. -/
structure Reordered (line line' : Line) : Prop where
  letters : ((commands line).map letter).Nodup
  perm : (commands line).Perm (commands line')
  first : NumberFirst (commands line)
  first' : NumberFirst (commands line')

section Words

variable {β : Type} {ts ts' : List Token}

theorem intWord_of_ne {c : Char} {t : Token} (h : letter t ≠ c) : intWord c t = none := by
  rw [intWord, if_neg h]

theorem sizeWord_of_ne {c : Char} {t : Token} (h : letter t ≠ c) : sizeWord c t = none := by
  rw [sizeWord, intWord_of_ne h, Option.map_none]

/-- The value of the only word of a letter. -/
theorem lastOf_reordered {f : Token → Option β} {c : Char} (hf : ∀ t, letter t ≠ c → f t = none)
    (hd : (ts.map letter).Nodup) (hp : ts.Perm ts') : lastOf f ts = lastOf f ts' :=
  lastOf_perm f hp (length_filterMap_le_one f letter hf hd)

/-- Without a number the type is the one of the words G. -/
theorem lastOf_typeWord_of_ne (h : ∀ t ∈ ts, letter t ≠ 'N') :
    lastOf typeWord ts = (lastOf (intWord 'G') ts).map BlockType.mk := by
  rw [← lastOf_map]
  exact lastOf_congr fun t ht => by rw [typeWord, intWord_of_ne (h t ht), Option.none_or]

/-- A number in front gives way to a word G, wherever that stands. -/
theorem lastOf_typeWord_first (h : NumberFirst ts) : lastOf typeWord ts =
    ((lastOf (intWord 'G') ts).or (lastOf (intWord 'N') ts)).map BlockType.mk := by
  cases ts with
  | nil => rfl
  | cons t ts =>
    have h' : ∀ u ∈ ts, letter u ≠ 'N' := h
    have hN : lastOf (intWord 'N') ts = none := lastOf_eq_none _ fun u hu => intWord_of_ne (h' u hu)
    rw [lastOf_cons, lastOf_typeWord_of_ne h', lastOf_cons, lastOf_cons, hN, Option.none_or, typeWord]
    by_cases ht : letter t = 'N'
    · have hG : intWord 'G' t = none := intWord_of_ne (by rw [ht]; decide)
      rw [hG, Option.or_none, Option.or_none, Option.map_or]
    · rw [intWord_of_ne ht, Option.none_or, Option.or_none, Option.map_or]

end Words

namespace Block

variable {K : Type} [DataArith K] {m : Machine K} {addr : Addr} {line line' : Line}
  {prev : Option (Block K)}

theorem dataWord_of_ne {c : Char} {t : Token} (h : letter t ≠ c) :
    dataWord (K := K) c t = none := by
  rw [dataWord, numeralWord, if_neg h, Option.map_none]

/-- Every field is left by the reordered words as by the words in their order. -/
theorem updateAll_reordered (h : Reordered line line') (d : Block K) :
    updateAll (commands line) d = updateAll (commands line') d := by
  have hdata : ∀ c, lastOf (dataWord (K := K) c) (commands line) =
      lastOf (dataWord c) (commands line') := fun c =>
    lastOf_reordered (fun _ => dataWord_of_ne) h.letters h.perm
  have hsize : ∀ c, lastOf (sizeWord c) (commands line) = lastOf (sizeWord c) (commands line') :=
    fun c => lastOf_reordered (fun _ => sizeWord_of_ne) h.letters h.perm
  have hint : ∀ c, lastOf (intWord c) (commands line) = lastOf (intWord c) (commands line') :=
    fun c => lastOf_reordered (fun _ => intWord_of_ne) h.letters h.perm
  have htype : lastOf typeWord (commands line) = lastOf typeWord (commands line') := by
    rw [lastOf_typeWord_first h.first, lastOf_typeWord_first h.first', hint, hint]
  simp only [updateAll, hdata, hsize, htype]

/-- A line is refused in every order of its words, or makes the same block in every one. -/
theorem word_order (h : Reordered line line') :
    SameOutcome (build m addr line prev) (build m addr line' prev) :=
  sameOutcome_of_words (fun _ => h.perm.mem_iff) (updateAll_reordered h)

/-- A line and its words in another order. -/
def orderedLine : Line := "N5 G1 X10 F100".toList
def reorderedLine : Line := "N5 F100 X10 G1 ; home".toList

theorem reordered_sample : Reordered orderedLine reorderedLine := by
  constructor <;> decide +kernel

theorem word_order_sample : ∃ (c : Block XReal) (line : Line),
    build .default 0 orderedLine none = .ok c ∧
      build .default 0 reorderedLine none = .ok { c with line := line } := by
  have hsame : SameOutcome (build .default 0 orderedLine none)
      (build (K := XReal) .default 0 reorderedLine none) := word_order reordered_sample
  have hw : ∀ t ∈ commands orderedLine, IsWord t := by decide +kernel
  have ht : (lastOf typeWord (commands orderedLine)).getD .noMotion ∉
      [BlockType.cwa, .ccwa] := by decide +kernel
  obtain ⟨c, hc⟩ := exists_parse (K := XReal) (.first 0) hw (fun o ho => nomatch ho)
    Machine.default.zero_complete ht
  have hb : build .default 0 orderedLine none = .ok c := by
    rw [build, outcome_eq_ok]
    exact hc
  obtain ⟨line, hline⟩ := hsame.exists_ok hb
  exact ⟨c, line, hb, hline⟩

end Block

end Cncpp
