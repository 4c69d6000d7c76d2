import Cncpp.Comments
import Cncpp.Numbering

/-! Blank lines and comments between the lines of a file.  A line that `load` does not
skip makes a block of its own, which takes a number. -/

namespace Cncpp

open DataArith Lib Lib.ExceptState

/-- The line is empty, blank, or only a comment. -/
def IsBlank (line : Line) : Prop := ∀ c ∈ (line.dropWhile isSpace).head?, IsMark c

/-- The first of the lines with a word N has words N above the number of the block before
it, counted from `k`. -/
def FirstFits (k : ℕ) : List Line → Prop
  | [] => True
  | line :: text =>
    if HasNumber line then Exceeds (some k) line else FirstFits (nextNumber (some k) line) text

theorem commands_of_blank {line : Line} (h : IsBlank line) : commands line = [] := by
  rw [commands, words_eq]
  cases hl : line.dropWhile isSpace with
  | nil => rfl
  | cons c r =>
    have hc : IsMark c := h c (by rw [hl]; rfl)
    have htok : ((c :: r).takeWhile (!isSpace ·)) = c :: r.takeWhile (!isSpace ·) :=
      List.takeWhile_cons_of_pos (by simp [hc.stops.space])
    have hcom : isComment (c :: r.takeWhile (!isSpace ·)) = true := by
      rcases hc with rfl | rfl <;> exact rfl
    dsimp only
    rw [htok, List.takeWhile_cons_of_neg (by simp [hcom])]

/-- With a word N the number does not depend on the block before. -/
theorem nextNumber_eq {line : Line} (h : lastOf (sizeWord 'N') (commands line) ≠ none)
    (k k' : Option ℕ) : nextNumber k line = nextNumber k' line := by
  obtain ⟨n, hn⟩ := Option.ne_none_iff_exists'.mp h
  rw [nextNumber, nextNumber, hn]
  rfl

theorem exceeds_of_not_hasNumber {line : Line} (h : ¬ HasNumber line) (k : Option ℕ) :
    Exceeds k line := by
  intro v _ t ht n hn
  have hl : letter t ≠ 'N' := fun hl => h ⟨t, ht, hl⟩
  simp [sizeWord, intWord, hl] at hn

/-- From another number the words N of an accepted text are still accepted when the
first of them is. -/
theorem checked_iff_firstFits {text : List Line} (hw : ∀ line ∈ text, ∀ t ∈ commands line, IsWord t)
    {k : Option ℕ} (hc : Checked k text) (x : ℕ) : Checked (some x) text ↔ FirstFits x text := by
  induction text generalizing k x with
  | nil => exact Iff.rfl
  | cons line text ih =>
    have hwl := hw line (List.mem_cons_self ..)
    have ih := ih (fun l hl => hw l (List.mem_cons_of_mem _ hl)) hc.2
    rw [Checked, FirstFits]
    split
    · next hN =>
      rw [nextNumber_eq ((hasNumber_iff hwl).mp hN) (some x) k]
      exact and_iff_left hc.2
    · next hN =>
      rw [and_iff_right (exceeds_of_not_hasNumber hN _)]
      exact ih _

variable {K : Type} [DataArith K] {m : Machine K}

/-! ## Twins -/

/-- What the next block inherits. -/
def inherited (m : Machine K) : Option (Block K) → Point K × ℕ × K × K
  | none => (m.zero, 0, num 0, num 0)
  | some o => (o.target, o.tool, o.feedrate, o.spindle)

/-- The next block inherits the same from both programs, numbers apart. -/
structure Twin (m : Machine K) (p p' : Program K) : Prop where
  state : inherited m p.blocks.getLast? = inherited m p'.blocks.getLast?
  parsed : ∀ o ∈ p'.blocks.getLast?, o.parsed = true

section Twins

variable {p p' q : Program K} {line : Line}

theorem origin_eq_inherited (m : Machine K) (prev : Option (Block K)) :
    Block.origin m prev = (inherited m prev).1 := by
  cases prev <;> rfl

theorem start_eq_inherited (m : Machine K) (a : Addr) (line : Line) (prev : Option (Block K)) :
    Block.start a line prev = { Block.ofLine a line with
      tool := (inherited m prev).2.1
      feedrate := (inherited m prev).2.2.1
      spindle := (inherited m prev).2.2.2
      n := prev.elim 0 fun o => (o.n + 1) % 2 ^ 64
      prev := prev.map (·.addr) } := by
  cases prev <;> rfl

theorem start_twin {a a' : Addr} {prev prev' : Option (Block K)}
    (h : inherited m prev = inherited m prev') : Block.start a' line prev' =
      (Block.start a line prev).as (Block.start a' line prev') := by
  rw [start_eq_inherited m a line prev, start_eq_inherited m a' line prev', h]
  rfl

theorem Twin.step (h : Twin m p p') (ha : Program.Accepted m line p q)
    (hn : Exceeds (p'.blocks.getLast?.map (·.n)) line) :
    ∃ q', Program.Accepted m line p' q' ∧ Twin m q q' := by
  obtain ⟨-, c, hc, rfl⟩ := Program.accepted_iff.mp ha
  have ho : Block.origin m p'.linked = Block.origin m p.linked := by
    rw [Program.linked, Program.linked, Block.origin_link, Block.origin_link,
      origin_eq_inherited, origin_eq_inherited, h.state]
  have hnum : ∀ o ∈ p'.linked, ∀ t ∈ commands (Block.start p.fresh line p.blocks.getLast?).line,
      ∀ n ∈ sizeWord 'N' t, o.n < n := by
    intro o ho t ht n hn'
    obtain ⟨b, hb, rfl⟩ := Option.mem_map.mp ho
    rw [Block.start_line] at ht
    exact hn b.n (Option.mem_map_of_mem _ hb) t ht n hn'
  have hc' := hc.as (o := Block.start p'.fresh line p'.blocks.getLast?)
    (by rw [Block.start_line, Block.start_line]) ho hnum
  rw [← start_twin h.state] at hc'
  refine ⟨_, Program.accepted_iff.mpr ⟨h.parsed, _, hc', rfl⟩, ?_, ?_⟩
  · dsimp only
    rw [List.getLast?_concat, List.getLast?_concat]
    rfl
  · intro o ho
    dsimp only at ho
    rw [List.getLast?_concat] at ho
    cases ho
    obtain ⟨_, _, _, _, _, _, _, _, _, _, -, rfl⟩ := hc.frame
    rfl

/-- A text is accepted behind a twin when its numbers are. -/
theorem Twin.lines {lines : List Line} (hr : Run (Program.Accepted m) p lines q) (h : Twin m p p')
    (hc : Checked (p'.blocks.getLast?.map (·.n)) lines) :
    ∃ q', Run (Program.Accepted m) p' lines q' := by
  induction hr generalizing p' with
  | nil p => exact ⟨p', .nil p'⟩
  | cons ha _ ih =>
    obtain ⟨r, hr, ht⟩ := h.step ha hc.1
    have hc' := hc.2
    rw [← Program.last_append hr] at hc'
    obtain ⟨q', hq⟩ := ih ht hc'
    exact ⟨q', .cons hr hq⟩

theorem checked_of_lines {lines : List Line} (hr : Run (Program.Accepted m) p lines q) :
    Checked (p.blocks.getLast?.map (·.n)) lines := by
  induction hr with
  | nil p => trivial
  | cons ha _ ih =>
    rw [Program.last_append ha] at ih
    exact ⟨(Program.number_append ha).2, ih⟩

/-- The words N of a file that was loaded increase. -/
theorem checked_of_load {file : String} {lines : List Line}
    (h : Edited m (.load file (some lines) false) p q) :
    Checked none (lines.filter Program.isCode) := by
  obtain ⟨_, hlines, hr⟩ := edited_load.mp h
  obtain rfl := Option.some.inj hlines
  exact checked_of_lines hr

theorem words_of_lines {lines : List Line} (hr : Run (Program.Accepted m) p lines q) :
    ∀ line ∈ lines, ∀ t ∈ commands line, IsWord t := by
  intro line hl
  obtain ⟨u, v, ha⟩ := hr.step_of_mem hl
  obtain ⟨-, c, hc, -⟩ := Program.accepted_iff.mp ha
  have hw := hc.words
  rwa [Block.start_line] at hw

theorem ready_of_lines {lines : List Line} (hr : Run (Program.Accepted m) p lines q)
    (h : p.Ready) : q.Ready :=
  hr.invariant Program.Ready (fun _ _ _ _ ha => Program.ready_of_accepted ha) h

theorem ready_of_edits {es : List Edit} (hr : Run (Edited m) p es q) (h : p.Ready) : q.Ready := by
  refine hr.invariant Program.Ready (fun e p q hp he => ?_) h
  cases e with
  | push line => exact Program.ready_of_accepted (edited_push.mp he)
  | load file content append =>
    obtain ⟨lines, -, hr⟩ := edited_load.mp he
    cases append with
    | true => exact ready_of_lines hr hp
    | false => exact ready_of_lines hr fun o ho => nomatch ho

/-- A line without words is accepted, and hands on what it inherits. -/
theorem twin_of_blank (hp : p.Ready) (hb : commands line = []) :
    ∃ q, Program.Accepted m line p q ∧ Twin m p q := by
  have happ : ∃ b c, Program.Appended m p line b c :=
    Program.exists_append hp (by simp [hb]) (by simp [hb]) (by rw [hb]; decide)
  obtain ⟨b, c, hcon⟩ := happ
  have ha : Program.Accepted m line p
      { p with blocks := p.front ++ [c], fresh := p.fresh + 1 } :=
    Program.append_iff.mpr ⟨b, c, hcon, rfl⟩
  obtain ⟨hpar, hb'⟩ := hcon.constructed.eq_start
  obtain ⟨x0, y0, z0, _, _, _, _, _, _, _, h0, rfl⟩ := (Block.parse_iff.mp hcon.parse).frame
  refine ⟨_, ha, ?_, ?_⟩
  · dsimp only
    rw [List.getLast?_concat]
    have hl : b.line = line := hcon.constructed.line_eq
    rw [Program.linked, Block.origin_link, origin_eq_inherited] at h0
    rw [Program.linked, Block.start_link, start_eq_inherited m] at hb'
    rw [hl, hb, hb']
    exact Prod.ext h0 rfl
  · intro o ho
    dsimp only at ho
    rw [List.getLast?_concat] at ho
    cases ho
    rfl

end Twins

/-! ## Insertion -/

/-- The place of the block at `i` once `blank` is inserted at the place `c`: a line that
`load` skips moves no block. -/
def placeAfter (c : ℕ) (blank : Line) (i : ℕ) : ℕ :=
  if i < c ∨ Program.isCode blank = false then i else i + 1

/-- The blocks of one line in two programs do the same, and a given number is kept. -/
structure SameBlock (b b' : Block K) : Prop where
  line : b'.line = b.line
  type : b'.type = b.type
  target : b'.target = b.target
  feedrate : b'.feedrate = b.feedrate
  spindle : b'.spindle = b.spindle
  tool : b'.tool = b.tool
  number : HasNumber b.line → b'.n = b.n

/-- With the line inserted at the place `c` of the text the file is still accepted, and
every line has the same block. -/
def Kept (m : Machine K) (p0 p : Program K) (file : String) (app : Bool) (pre post : List Line)
    (blank : Line) (c : ℕ) : Prop :=
  ∃ p', Edited m (.load file (some (pre ++ blank :: post)) app) p0 p' ∧
    ∀ i b, p.blocks[i]? = some b →
      ∃ b', p'.blocks[placeAfter c blank i]? = some b' ∧ SameBlock b b'

/-- The text of the program in front of the inserted line. -/
def textBefore (es : List Edit) (app : Bool) (pre : List Line) : List Line :=
  (if app then textOf es else []) ++ pre.filter Program.isCode

section Insert

variable {before post text text' : List Line} {blank line : Line} {p p' : Program K}

theorem insert_at (before post : List Line) (hb : commands blank = []) (i : ℕ) :
    let j := if i < before.length then i else i + 1
    (before ++ blank :: post)[j]? = (before ++ post)[i]? ∧
      wordsOf ((before ++ blank :: post).take (j + 1)) = wordsOf ((before ++ post).take (i + 1)) := by
  dsimp only
  split
  · next hi =>
    rw [List.getElem?_append_left hi, List.getElem?_append_left hi,
      List.take_append_of_le_length (by omega), List.take_append_of_le_length (by omega)]
    exact ⟨rfl, rfl⟩
  · next hi =>
    obtain ⟨k, rfl⟩ := Nat.exists_eq_add_of_le (not_lt.mp hi)
    rw [Nat.add_assoc, Nat.add_assoc, Nat.add_assoc, List.getElem?_append_right (by omega),
      List.getElem?_append_right (by omega), Nat.add_sub_cancel_left, Nat.add_sub_cancel_left,
      List.take_length_add_append, List.take_length_add_append]
    refine ⟨rfl, ?_⟩
    simp [wordsOf, hb]

omit [DataArith K] in
theorem SameBlock.refl (b : Block K) : SameBlock b b := ⟨rfl, rfl, rfl, rfl, rfl, rfl, fun _ => rfl⟩

/-- Blocks of one line behind the same words do the same. -/
theorem sameBlock_of_made {b b' : Block K} (h : MadeFrom m text line b)
    (h' : MadeFrom m text' line b') (hw : wordsOf (text' ++ [line]) = wordsOf (text ++ [line]))
    (hn : HasNumber line → b'.n = b.n) : SameBlock b b' := by
  have hm := h.modal
  have hm' := h'.modal
  refine ⟨h'.own.line.trans h.own.line.symm, h'.type_eq.trans h.type_eq.symm, ?_, ?_, ?_, ?_, ?_⟩
  · rw [hm.target, hm'.target, modalTarget, modalTarget, hw]
  · rw [hm.feedrate, hm'.feedrate, modalWord, modalWord, hw]
  · rw [hm.spindle, hm'.spindle, modalWord, modalWord, hw]
  · rw [hm.tool, hm'.tool, hw]
  · rw [h.own.line]
    exact hn

/-- A line without words changes no block behind it, implied numbers apart. -/
theorem sameBlock_of_insert (hb : commands blank = [])
    (h : Follows m (before ++ post) p.blocks) (h' : Follows m (before ++ blank :: post) p'.blocks)
    (hn : Numbered (before ++ post) p) (hn' : Numbered (before ++ blank :: post) p') {i : ℕ}
    {b : Block K} (hi : p.blocks[i]? = some b) :
    ∃ b', p'.blocks[if i < before.length then i else i + 1]? = some b' ∧ SameBlock b b' := by
  have hlt : i < (before ++ post).length := by
    rw [← h.length_eq]
    exact (List.getElem?_eq_some_iff.mp hi).1
  have hl := List.getElem?_eq_getElem hlt
  obtain ⟨hget, hwords⟩ := insert_at before post hb i
  generalize (if i < before.length then i else i + 1) = j at hget hwords ⊢
  have hl' := hget.trans hl
  have hj : j < p'.blocks.length := by
    rw [h'.length_eq]
    exact (List.getElem?_eq_some_iff.mp hl').1
  have hj' := List.getElem?_eq_getElem hj
  have hmade := h.get hi hl
  rw [List.take_add_one, List.take_add_one, hl, hl'] at hwords
  refine ⟨_, hj', sameBlock_of_made hmade (h'.get hj' hl') hwords fun hN => ?_⟩
  rw [hasNumber_iff hmade.words] at hN
  have hnum := congrArg (·[i]?) hn.map_n
  have hnum' := congrArg (·[j]?) hn'.map_n
  rw [List.getElem?_map, hi, numbers_get, hl] at hnum
  rw [List.getElem?_map, hj', numbers_get, hl'] at hnum'
  have hb : b.n = _ := Option.some.inj hnum
  have hb' : (p'.blocks[j]).n = _ := Option.some.inj hnum'
  rw [hb, hb']
  exact nextNumber_eq hN _ _

/-- The lines of a load are appended to a program with the text that it keeps. -/
theorem load_start {es : List Edit} {p0 s : Program K} {file : String} {app : Bool}
    (h0 : app = true → Run (Edited m) Program.empty es p0)
    (hs : (if app then { p0 with filename := file }
      else Program.reset { p0 with filename := file }) = s) :
    Follows m (if app then textOf es else []) s.blocks ∧
      Numbered (if app then textOf es else []) s ∧ s.Ready := by
  subst hs
  cases app with
  | false => exact ⟨.nil, ⟨rfl, trivial⟩, fun o ho => nomatch ho⟩
  | true =>
    have hn : Numbered (textOf es) p0 := numbered_edits (h0 rfl) ⟨rfl, trivial⟩
    have hready := ready_of_edits (h0 rfl) fun o ho => nomatch ho
    have hf : Follows m (textOf es) p0.blocks := follows_edits (h0 rfl) Follows.nil
    exact ⟨hf, ⟨hn.map_n, hn.checked⟩, hready⟩

/-- A line without words can be appended between two texts exactly where the next word N
exceeds the number that it takes. -/
theorem exists_inserted_iff {base : List Line} {s q : Program K} (hb : commands blank = [])
    (hF : Follows m base s.blocks) (hN : Numbered base s) (hready : s.Ready)
    (hpre : Run (Program.Accepted m) s before q) (hpost : Run (Program.Accepted m) q post p) :
    (∃ p', Run (Program.Accepted m) s (before ++ blank :: post) p' ∧
      ∀ i b, p.blocks[i]? = some b →
        ∃ b', p'.blocks[if i < (base ++ before).length then i else i + 1]? = some b' ∧
          SameBlock b b') ↔
      FirstFits (nextNumber (numberOf (base ++ before)) blank) post := by
  have hnumber : ∀ {u v : Program K}, Run (Program.Accepted m) s before u →
      Program.Accepted m blank u v → v.blocks.getLast?.map (·.n) =
        some (nextNumber (numberOf (base ++ before)) blank) := by
    intro u v hu hv
    have hlast := (Program.numbered_lines hu hN).last
    rw [Program.last_append hv, hlast]
  rw [← checked_iff_firstFits (words_of_lines hpost) (checked_of_lines hpost)]
  constructor
  · rintro ⟨p', hr', -⟩
    obtain ⟨u, hu, hr'⟩ := hr'.append_split
    cases hr' with
    | cons hv hr' =>
      have hc := checked_of_lines hr'
      rwa [hnumber hu hv] at hc
  · intro hc
    obtain ⟨v, hv, htwin⟩ := twin_of_blank (m := m) (ready_of_lines hpre hready) hb
    rw [← hnumber hpre hv] at hc
    obtain ⟨p', hp'⟩ := htwin.lines hpost hc
    have hr := hpre.append hpost
    have hr' := hpre.append (.cons hv hp')
    refine ⟨p', hr', fun i b hi => ?_⟩
    have hF' := Program.follows_lines hr hF
    have hN' := Program.numbered_lines hr hN
    have hF'' := Program.follows_lines hr' hF
    have hN'' := Program.numbered_lines hr' hN
    rw [← List.append_assoc] at hF' hN' hF'' hN''
    exact sameBlock_of_insert hb hF' hF'' hN' hN'' hi

/-- A blank line or a comment can be inserted exactly where `load` skips it, or where the
next word N of the file exceeds the number that the inserted line takes from it. -/
theorem insertion_iff {es : List Edit} {p0 : Program K} {file : String} {app : Bool}
    {pre : List Line} (h0 : app = true → Run (Edited m) Program.empty es p0) (hb : IsBlank blank)
    (h : Edited m (.load file (some (pre ++ post)) app) p0 p) :
    Kept m p0 p file app pre post blank (textBefore es app pre).length ↔
      Program.isCode blank = false ∨ FirstFits
        (nextNumber (numberOf (textBefore es app pre)) blank) (post.filter Program.isCode) := by
  obtain ⟨_, hlines, hr⟩ := edited_load.mp h
  obtain rfl := Option.some.inj hlines
  generalize hs : (if app then { p0 with filename := file }
    else Program.reset { p0 with filename := file }) = s at hr
  obtain ⟨hF, hN, hready⟩ := load_start h0 hs
  by_cases hcode : Program.isCode blank = false
  · refine iff_of_true ⟨p, edited_load.mpr ⟨_, rfl, ?_⟩, fun i b hi => ⟨b, ?_, .refl b⟩⟩ (.inl hcode)
    · rw [hs, List.filter_append, List.filter_cons_of_neg (by simp [hcode]), ← List.filter_append]
      exact hr
    · rw [placeAfter, if_pos (.inr hcode)]
      exact hi
  have hfilter : (pre ++ blank :: post).filter Program.isCode =
      pre.filter Program.isCode ++ blank :: post.filter Program.isCode := by
    rw [List.filter_append, List.filter_cons_of_pos (by simpa using hcode)]
  rw [List.filter_append] at hr
  obtain ⟨q, hpre, hpost⟩ := hr.append_split
  have hins := exists_inserted_iff (commands_of_blank hb) hF hN hready hpre hpost
  rw [or_iff_right hcode, textBefore, ← hins]
  simp only [Kept, placeAfter, or_iff_left hcode]
  constructor
  · rintro ⟨p', hp', hsame⟩
    obtain ⟨_, hlines', hr'⟩ := edited_load.mp hp'
    obtain rfl := Option.some.inj hlines'
    rw [hs, hfilter] at hr'
    exact ⟨p', hr', hsame⟩
  · rintro ⟨p', hr', hsame⟩
    refine ⟨p', edited_load.mpr ⟨_, rfl, ?_⟩, hsame⟩
    rw [hs, hfilter]
    exact hr'

end Insert

instance decidableFirstFits : (k : ℕ) → (text : List Line) → Decidable (FirstFits k text)
  | _, [] => isTrue trivial
  | k, line :: text =>
    have := decidableFirstFits (nextNumber (some k) line) text
    inferInstanceAs (Decidable (if HasNumber line then Exceeds (some k) line
      else FirstFits (nextNumber (some k) line) text))

def comment : Line := "  ; comment".toList

theorem isBlank_comment : IsBlank comment := by
  have hhead : (comment.dropWhile isSpace).head? = some ';' := by decide +kernel
  intro c hc
  rw [hhead] at hc
  cases hc
  exact .inl rfl

/-- Room between the numbers for a comment. -/
theorem insertion_spaced : ∃ p : Program XReal,
    Edited .default (.load "s.g" (some (["N1 G0 X1".toList] ++ ["N5 G0 X2".toList])) false) .empty p ∧
      Kept .default .empty p "s.g" false ["N1 G0 X1".toList] ["N5 G0 X2".toList] comment 1 := by
  obtain ⟨p, hp⟩ := exists_load_checked (K := XReal) .default .empty "s.g"
    (["N1 G0 X1".toList] ++ ["N5 G0 X2".toList])
    (by decide +kernel) (by decide +kernel) (by decide +kernel)
  have hlen : (textBefore [] false ["N1 G0 X1".toList]).length = 1 := by decide +kernel
  have hfits : FirstFits (nextNumber (numberOf (textBefore [] false ["N1 G0 X1".toList])) comment)
      (["N5 G0 X2".toList].filter Program.isCode) := by decide +kernel
  have h0 : false = true → Run (Edited .default) Program.empty [] (Program.empty : Program XReal) :=
    fun _ => .nil _
  have hk := insertion_iff h0 isBlank_comment hp
  rw [hlen] at hk
  exact ⟨p, hp, hk.mpr (.inr hfits)⟩

/-- A comment takes the number of the line behind it: the file is refused. -/
theorem comment_takes_number : ∃ p : Program XReal,
    Edited .default (.load "t.g" (some (["N1 G0 X1".toList] ++ ["N2 G0 X2".toList])) false) .empty p ∧
      IsBlank comment ∧ ∀ p' : Program XReal, ¬ Edited .default
        (.load "t.g" (some (["N1 G0 X1".toList] ++ comment :: ["N2 G0 X2".toList])) false) .empty p' := by
  obtain ⟨p, hp⟩ := exists_load_checked (K := XReal) .default .empty "t.g"
    (["N1 G0 X1".toList] ++ ["N2 G0 X2".toList])
    (by decide +kernel) (by decide +kernel) (by decide +kernel)
  refine ⟨p, hp, isBlank_comment, fun p' hp' => ?_⟩
  exact absurd (checked_of_load hp') (by decide +kernel)

end Cncpp
