import Mathlib.Data.Nat.Digits.Defs
import Mathlib.Data.Rat.Defs

/-! The text layer under the parser: characters of the C locale, the splitting
of a line done by `stream >> token`, and the numeral conversions `std::stoi` and
`std::stod`, which convert the longest valid prefix and ignore the rest. -/

namespace Cncpp

abbrev Line := List Char
abbrev Token := List Char

/-- `isspace` in the C locale. -/
def isSpace (c : Char) : Bool :=
  c = ' ' || c = '\t' || c = '\n' || c = '\x0b' || c = '\x0c' || c = '\r'

/-- The tokens that repeated `ss >> token` extracts. -/
def words : Line → List Token
  | [] => []
  | c :: cs =>
    if isSpace c then words cs
    else if cs.head?.all isSpace then [c] :: words cs
    else (c :: (words cs).headD []) :: (words cs).tail

/-- One extraction: skip blanks, then take the longest run of other characters. -/
theorem words_eq (cs : Line) :
    words cs = match cs.dropWhile isSpace with
      | [] => []
      | c :: r => (c :: r).takeWhile (!isSpace ·) :: words ((c :: r).dropWhile (!isSpace ·)) := by
  induction cs with
  | nil => rfl
  | cons c cs ih =>
    by_cases hc : isSpace c
    · rw [List.dropWhile_cons_of_pos hc, ← ih, words, if_pos hc]
    · rw [words, if_neg hc, List.dropWhile_cons_of_neg hc]
      simp only [List.takeWhile_cons, List.dropWhile_cons, hc, Bool.not_false, ↓reduceIte]
      cases cs with
      | nil => rfl
      | cons d ds =>
        by_cases hd : isSpace d
        · simp [hd]
        · rw [ih]; simp [hd]

theorem words_ne_nil {cs : Line} {t : Token} (h : t ∈ words cs) : t ≠ [] := by
  induction cs generalizing t with
  | nil => cases h
  | cons c cs ih =>
    rw [words] at h
    split at h
    · exact ih h
    · split at h
      · rcases List.mem_cons.mp h with rfl | h
        · exact List.cons_ne_nil _ _
        · exact ih h
      · rcases List.mem_cons.mp h with rfl | h
        · exact List.cons_ne_nil _ _
        · exact ih (List.mem_of_mem_tail h)

/-- A token has no blanks. -/
theorem isSpace_of_words {cs : Line} {t : Token} (h : t ∈ words cs) : ∀ c ∈ t, isSpace c = false := by
  induction cs generalizing t with
  | nil => cases h
  | cons c cs ih =>
    rw [words] at h
    split at h
    · exact ih h
    · next hc =>
      have hc : isSpace c = false := by simpa using hc
      split at h
      · rcases List.mem_cons.mp h with rfl | h
        · intro d hd
          rw [List.mem_singleton.mp hd]
          exact hc
        · exact ih h
      · rcases List.mem_cons.mp h with rfl | h
        · intro d hd
          rcases List.mem_cons.mp hd with rfl | hd
          · exact hc
          · cases hw : words cs with
            | nil =>
              rw [hw] at hd
              cases hd
            | cons w ws =>
              rw [hw] at hd
              exact ih (by simp [hw]) d hd
        · exact ih (List.mem_of_mem_tail h)

/-- The first token is the one in front of the first blank. -/
theorem words_cons_append {w r : Line} (hw : ∀ c ∈ w, isSpace c = false) (hne : w ≠ [])
    (hr : ∀ c ∈ r.head?, isSpace c = true) : words (w ++ r) = w :: words r := by
  have hsplit : (w ++ r).takeWhile (!isSpace ·) = w ∧ (w ++ r).dropWhile (!isSpace ·) = r := by
    clear hne
    induction w with
    | nil =>
      cases r with
      | nil => exact ⟨rfl, rfl⟩
      | cons c r => simp [hr c rfl]
    | cons c w ih =>
      have hc : isSpace c = false := hw c (by simp)
      obtain ⟨ht, hd⟩ := ih fun d hd => hw d (by simp [hd])
      simp [hc, ht, hd]
  cases w with
  | nil => exact absurd rfl hne
  | cons c w =>
    have hc : ¬ isSpace c = true := by simp [hw c (by simp)]
    rw [words_eq, List.cons_append, List.dropWhile_cons_of_neg hc]
    rw [List.cons_append] at hsplit
    simp only [hsplit.1, hsplit.2]

/-- A line that ends in a blank keeps its tokens when it is continued. -/
theorem words_append {p : Line} (hp : ∀ c ∈ p.getLast?, isSpace c = true) (s : Line) :
    words (p ++ s) = words p ++ words s := by
  induction p with
  | nil => rfl
  | cons c cs ih =>
    cases cs with
    | nil =>
      have hc : isSpace c = true := hp c rfl
      simp [words, hc]
    | cons d ds =>
      have ih := ih fun e he => hp e (by simpa using he)
      rw [List.cons_append, words, words, ih]
      split
      · rfl
      · have hhead : ((d :: ds ++ s).head?.all isSpace) = ((d :: ds).head?.all isSpace) := rfl
        rw [hhead]
        split
        · rfl
        · next hd =>
          have hne : words (d :: ds) ≠ [] := by
            have hd : isSpace d = false := by simpa using hd
            rw [words, if_neg (by simp [hd])]
            split <;> simp
          cases hw : words (d :: ds) with
          | nil => exact absurd hw hne
          | cons w ws => rfl

/-! ## Numerals -/

/-- The exceptions of the conversions: `invalid_argument` and `out_of_range`. -/
inductive ConvError where
  | invalidArgument
  | outOfRange
  deriving DecidableEq, Repr

/-- What a floating-point numeral denotes. -/
inductive Numeral where
  | finite (q : ℚ)
  | infinite (negative : Bool)
  | nan
  deriving DecidableEq

def digitVal (base : ℕ) (c : Char) : Option ℕ :=
  let v := if '0' ≤ c ∧ c ≤ '9' then c.toNat - 48
    else if 'a' ≤ c ∧ c ≤ 'z' then c.toNat - 87
    else if 'A' ≤ c ∧ c ≤ 'Z' then c.toNat - 55
    else base
  if v < base then some v else none

/-- The longest prefix of digits, and the rest. -/
def digits (base : ℕ) : List Char → List ℕ × List Char
  | [] => ([], [])
  | c :: s =>
    match digitVal base c with
    | some d => (d :: (digits base s).1, (digits base s).2)
    | none => ([], c :: s)

def ofDigits (base : ℕ) (ds : List ℕ) : ℕ := Nat.ofDigits base ds.reverse

def scanSign : List Char → Bool × List Char
  | '-' :: s => (true, s)
  | '+' :: s => (false, s)
  | s => (false, s)

/-- `std::stoi` with base ten: a 32-bit `int`. -/
def stoi (arg : List Char) : Except ConvError ℤ :=
  let s := scanSign (arg.dropWhile isSpace)
  let ds := (digits 10 s.2).1
  if ds = [] then .error .invalidArgument
  else
    let v : ℤ := if s.1 then -(ofDigits 10 ds : ℤ) else ofDigits 10 ds
    if -2 ^ 31 ≤ v ∧ v < 2 ^ 31 then .ok v else .error .outOfRange

/-- The exponent part: the mark, an optional sign and at least one digit. -/
def scanExponent (mark : Char) : List Char → ℤ
  | [] => 0
  | c :: s =>
    if c.toLower = mark then
      let e := scanSign s
      let ds := (digits 10 e.2).1
      if ds = [] then 0
      else if e.1 then -(ofDigits 10 ds : ℤ) else ofDigits 10 ds
    else 0

def scale (base : ℕ) (e : ℤ) (q : ℚ) : ℚ :=
  if 0 ≤ e then q * (base ^ e.toNat : ℕ) else q / (base ^ (-e).toNat : ℕ)

/-- Digits with an optional point and an optional exponent in powers of `radix`. -/
def scanNumber (base radix : ℕ) (mark : Char) (s : List Char) : Option ℚ :=
  let whole := digits base s
  let frac := match whole.2 with
    | '.' :: r => digits base r
    | r => ([], r)
  if whole.1 = [] ∧ frac.1 = [] then none
  else
    let m : ℚ := ofDigits base (whole.1 ++ frac.1) / (base ^ frac.1.length : ℕ)
    some (scale radix (scanExponent mark frac.2) m)

def startsWith (w s : List Char) : Bool := (s.take w.length).map Char.toLower = w

/-- The magnitude read by `strtod` after the sign. -/
def scanMagnitude (s : List Char) : Option (Option ℚ) :=
  if startsWith ['i', 'n', 'f'] s then some none
  else if startsWith ['0', 'x'] s then
    match scanNumber 16 2 'p' (s.drop 2) with
    | some q => some (some q)
    | none => some (some 0)
  else (scanNumber 10 10 'e' s).map some

/-- `std::stod`: the value of the longest prefix that is a numeral.  A finite
value above the range of `double`, or a nonzero one below its normal range, sets
`ERANGE` and is thrown. -/
def stod (arg : List Char) : Except ConvError Numeral :=
  let s := scanSign (arg.dropWhile isSpace)
  if startsWith ['n', 'a', 'n'] s.2 then .ok .nan
  else match scanMagnitude s.2 with
    | none => .error .invalidArgument
    | some none => .ok (.infinite s.1)
    | some (some q) =>
      if (2 ^ 1024 - 2 ^ 970 : ℕ) ≤ q ∨ (q ≠ 0 ∧ q * (2 ^ 1022 : ℕ) < 1) then .error .outOfRange
      else .ok (.finite (if s.1 then -q else q))

example : words ['G', '1', ' ', ' ', 'X', '5', '\t'] = [['G', '1'], ['X', '5']] := by decide

example : stod ['-', '1', '2', '.', '5', ';', 'e'] = .ok (.finite (-25 / 2)) := by
  decide +kernel

end Cncpp
