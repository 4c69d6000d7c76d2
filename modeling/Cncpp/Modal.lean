import Cncpp.Loading
import Cncpp.MotionType

/-! The modal meaning of a program.  The code hands the modal state from block to
block; here it is read off the text, as the last word of each letter, and the
chain of blocks is proved to compute it. -/

namespace Cncpp

open DataArith Lib Lib.ExceptState

/-- The words of some lines. -/
def wordsOf (text : List Line) : List Token := text.flatMap commands

variable {K : Type} [DataArith K]

/-! ## The reference -/

/-- The position after some lines: on each axis the last word for it, or the
coordinate of the reference point. -/
def modalTarget (m : Machine K) (text : List Line) : Point K where
  x := (lastOf (dataWord 'X') (wordsOf text)).or m.zero.x
  y := (lastOf (dataWord 'Y') (wordsOf text)).or m.zero.y
  z := (lastOf (dataWord 'Z') (wordsOf text)).or m.zero.z

/-- The value of the last word with the letter `c` in some lines. -/
def modalWord (c : Char) (text : List Line) : K := (lastOf (dataWord c) (wordsOf text)).getD (num 0)

/-- What a block inherits from the lines up to its own. -/
structure ModalState (m : Machine K) (text : List Line) (b : Block K) : Prop where
  target : b.target = modalTarget m text
  feedrate : b.feedrate = modalWord 'F' text
  spindle : b.spindle = modalWord 'S' text
  tool : b.tool = (lastOf (sizeWord 'T') (wordsOf text)).getD 0

/-- The radius a block keeps: its word R, which an arc without one replaces by
the distance to the centre, and of which an arc drops the sign. -/
def ownRadius (line : Line) : K :=
  if typeCode line = .cwa ∨ typeCode line = .ccwa then
    fabs (if nonzero (ownWord 'R' line : K) then ownWord 'R' line
      else hypot (ownWord 'I' line) (ownWord 'J' line))
  else ownWord 'R' line

/-- What a block takes from its own line alone. -/
structure OwnWords (l : Line) (b : Block K) : Prop where
  line : b.line = l
  m : b.m = (lastOf (sizeWord 'M') (commands l)).getD 0
  i : b.i = ownWord 'I' l
  j : b.j = ownWord 'J' l
  r : b.r = ownRadius l

/-- The block before a line stands for the lines before it. -/
def Carried (m : Machine K) (text : List Line) : Option (Block K) → Prop
  | none => text = []
  | some p => ModalState m text p

/-! ## One block -/

namespace Block

variable {m : Machine K} {prev : Option (Block K)} {line : Line} {b c : Block K}

theorem origin_of_carried {text : List Line} (h : Carried m text prev) :
    origin m prev = modalTarget m text := by
  cases prev with
  | none =>
    cases h
    rcases hz : m.zero with ⟨x, y, z⟩
    simp [origin, modalTarget, wordsOf, hz]
  | some p => exact h.target

/-- Everything an accepted line leaves in its block, geometry and profile apart. -/
theorem modal_of_parse {text : List Line} (hb : Constructed line prev b)
    (hp : Carried m text prev) (h : (parse m prev).run b = .ok () c) :
    ModalState m (text ++ [line]) c := by
  obtain ⟨x0, y0, z0, _, _, _, _, _, _, _, h0, rfl⟩ := (parse_iff.mp h).frame
  have hw : wordsOf (text ++ [line]) = wordsOf text ++ commands line := by simp [wordsOf]
  have ht := (origin_of_carried hp).symm.trans h0
  injection ht with hx hy hz
  have hinit : b.target = {} ∧ b.feedrate = modalWord 'F' text ∧
      b.spindle = modalWord 'S' text ∧
      b.tool = (lastOf (sizeWord 'T') (wordsOf text)).getD 0 := by
    cases hb with
    | first _ => cases hp; exact ⟨rfl, rfl, rfl, rfl⟩
    | after ho =>
      obtain ⟨-, rfl, rfl⟩ := ofPrev_ok ho
      exact ⟨rfl, hp.feedrate, hp.spindle, hp.tool⟩
  obtain ⟨hbt, hf, hs, hto⟩ := hinit
  have hor : ∀ (o : Option K) (v : K), o.or (some v) = some (o.getD v) := by
    intro o v; cases o <;> rfl
  refine ⟨?_, ?_, ?_, ?_⟩
  · simp [fill, updateAll, hb.line_eq, hbt, modalTarget, hw, lastOf_append, Option.or_assoc, hx,
      hy, hz, hor, Point.ofCoords]
  · simp [fill, updateAll, hb.line_eq, hf, modalWord, hw, lastOf_append, Option.getD_or]
  · simp [fill, updateAll, hb.line_eq, hs, modalWord, hw, lastOf_append, Option.getD_or]
  · simp [fill, updateAll, hb.line_eq, hto, hw, lastOf_append, Option.getD_or]

/-- The radius input, before an arc replaces it. -/
theorem Planned.r_eq (h : Planned m prev b c) :
    c.r = if b.type = .cwa ∨ b.type = .ccwa then
      fabs (if nonzero b.r then b.r else hypot b.i b.j) else b.r := by
  cases h with
  | line ht => rw [if_neg (by rw [ht]; decide)]; rfl
  | arc ht hc =>
    obtain ⟨x0, y0, z0, xf, yf, zf, r, xc, yc, -, -, hr, -, -, rfl⟩ := calcArc_iff.mp hc
    rw [if_pos ht]
    cases hr with
    | radius hn _ _ => rw [if_pos hn]; rfl
    | center hn _ => rw [if_neg (by simp [hn])]; rfl
  | other hl hc hcc => rw [if_neg (not_or.mpr ⟨hc, hcc⟩)]

theorem own_of_parse (hb : Constructed line prev b) (h : (parse m prev).run b = .ok () c) :
    OwnWords line c := by
  obtain ⟨-, -, x0, y0, z0, b2, -, hp, rfl⟩ := parse_iff.mp h
  clear h
  obtain ⟨ht, hm, hi, hj, hbr⟩ := hb.updateAll_own
  have ht : _ = typeCode line := ht
  have hr := hp.r_eq
  obtain ⟨_, r, _, _, _, _, _, rfl⟩ := hp.frame
  refine ⟨hb.line_eq, hm, hi, hj, hr.trans ?_⟩
  simp only [fill, ht, hi, hj, hbr, ownRadius]

end Block

/-! ## The chain of blocks -/

/-- A block that `parse` made of a line behind a text, however it is linked to the
block after it. -/
inductive MadeFrom (m : Machine K) (text : List Line) (line : Line) : Block K → Prop
  | mk {prev : Option (Block K)} {b c : Block K} (next : Option Addr) :
      Block.Constructed line prev b → Carried m text prev →
      (Block.parse m prev).run b = .ok () c → MadeFrom m text line { c with next := next }

namespace MadeFrom

variable {m : Machine K} {text : List Line} {line : Line} {b : Block K}

theorem modal (h : MadeFrom m text line b) : ModalState m (text ++ [line]) b := by
  cases h with
  | mk _ hb hp h =>
    have hm := Block.modal_of_parse hb hp h
    exact ⟨hm.target, hm.feedrate, hm.spindle, hm.tool⟩

theorem own (h : MadeFrom m text line b) : OwnWords line b := by
  cases h with
  | mk _ hb _ h =>
    have ho := Block.own_of_parse hb h
    exact ⟨ho.line, ho.m, ho.i, ho.j, ho.r⟩

theorem type_eq (h : MadeFrom m text line b) : b.type = typeCode line := by
  cases h with
  | mk _ hb _ h =>
    have ht := Block.type_of_parse hb h
    exact ht

theorem link (h : MadeFrom m text line b) (next : Option Addr) :
    MadeFrom m text line { b with next := next } := by
  cases h with
  | @mk prev b c _ hb hp h => exact .mk (c := c) next hb hp h

end MadeFrom

/-- The blocks made of a text, in its order. -/
inductive Follows (m : Machine K) : List Line → List (Block K) → Prop
  | nil : Follows m [] []
  | snoc {text : List Line} {bs : List (Block K)} {line : Line} {b : Block K} :
      Follows m text bs → MadeFrom m text line b → Follows m (text ++ [line]) (bs ++ [b])

namespace Program

variable {m : Machine K} {p p' : Program K} {text : List Line}

/-- Linking the last block changes nothing that the text determines. -/
theorem follows_front (h : Follows m text p.blocks) :
    Follows m text p.front ∧ Carried m text p.linked := by
  generalize hbs : p.blocks = bs at h
  cases h with
  | nil => simpa [front, linked, hbs, Carried] using Follows.nil
  | snoc h hm =>
    simp only [front, linked, hbs, List.getLast?_append, List.getLast?_singleton, Option.some_or,
      Option.map_some, List.dropLast_concat, Option.toList_some, Carried]
    exact ⟨.snoc h (hm.link _), (hm.link _).modal⟩

theorem follows_append {line : Line} (h : Follows m text p.blocks) (ha : Accepted m line p p') :
    Follows m (text ++ [line]) p'.blocks := by
  obtain ⟨b, c, hc, rfl⟩ := append_iff.mp ha
  obtain ⟨hf, hcar⟩ := follows_front h
  exact .snoc hf (.mk c.next hc.constructed hcar hc.parse)

theorem follows_lines {lines : List Line} (hr : Run (Accepted m) p lines p')
    (h : Follows m text p.blocks) : Follows m (text ++ lines) p'.blocks := by
  induction hr generalizing text with
  | nil p => simpa using h
  | cons ha _ ih =>
    rw [List.append_cons]
    exact ih (follows_append h ha)

end Program

/-! ## Editing -/

/-- The ways lines get into a program: `operator<<`, and `load`. -/
inductive Edit where
  | push (line : Line)
  | load (file : String) (content : Option (List Line)) (append : Bool)

namespace Edit

def run (m : Machine K) : Edit → ProgramM K Unit
  | push line => Program.append m line
  | load file content append => Program.load m file content append

/-- The text of the program after an edit. -/
def text (before : List Line) : Edit → List Line
  | push line => before ++ [line]
  | load _ content append =>
    (if append then before else []) ++ (content.getD []).filter Program.isCode

end Edit

/-- An edit that returns. -/
def Edited (m : Machine K) (e : Edit) (p p' : Program K) : Prop := (e.run m).run p = .ok () p'

variable {m : Machine K} {p p' : Program K}

theorem edited_push {line : Line} :
    Edited m (.push line) p p' ↔ Program.Accepted m line p p' := Iff.rfl

theorem edited_load {file : String} {content : Option (List Line)} {app : Bool} :
    Edited m (.load file content app) p p' ↔ ∃ lines, content = some lines ∧
      Run (Program.Accepted m) (if app then { p with filename := file }
        else Program.reset { p with filename := file }) (lines.filter Program.isCode) p' :=
  Program.load_iff

theorem follows_edit {text : List Line} {e : Edit} (he : Edited m e p p')
    (h : Follows m text p.blocks) : Follows m (e.text text) p'.blocks := by
  cases e with
  | push line => exact Program.follows_append h (edited_push.mp he)
  | load file content append =>
    obtain ⟨lines, rfl, hr⟩ := edited_load.mp he
    cases append with
    | false => exact Program.follows_lines hr Follows.nil
    | true => exact Program.follows_lines hr h

theorem follows_edits {text : List Line} {es : List Edit} (hr : Run (Edited m) p es p')
    (h : Follows m text p.blocks) : Follows m (es.foldl Edit.text text) p'.blocks := by
  induction hr generalizing text with
  | nil p => exact h
  | cons he _ ih => exact ih (follows_edit he h)

theorem Follows.length_eq {text : List Line} {bs : List (Block K)} (h : Follows m text bs) :
    bs.length = text.length := by
  induction h with
  | nil => rfl
  | snoc _ _ ih => simp [ih]

theorem Follows.get {text : List Line} {bs : List (Block K)} (h : Follows m text bs) {i : ℕ}
    {b : Block K} {line : Line} (hb : bs[i]? = some b) (hl : text[i]? = some line) :
    MadeFrom m (text.take i) line b := by
  induction h with
  | nil => cases hb
  | @snoc text bs line' b' h hm ih =>
    have hlen := h.length_eq
    rcases lt_trichotomy i text.length with hi | rfl | hi
    · rw [List.getElem?_append_left (by omega)] at hb hl
      rw [List.take_append_of_le_length (by omega)]
      exact ih hb hl
    · rw [← hlen, List.getElem?_concat_length] at hb
      rw [List.getElem?_concat_length] at hl
      cases hb
      cases hl
      rw [List.take_left]
      exact hm
    · rw [List.getElem?_eq_none (by simp; omega)] at hb
      cases hb

/-- A file of known words without block numbers and arcs can be loaded. -/
theorem exists_load (m : Machine K) (file : String) (lines : List Line)
    (hw : ∀ line ∈ lines.filter Program.isCode, ∀ t ∈ commands line, IsWord t ∧ letter t ≠ 'N')
    (ht : ∀ line ∈ lines.filter Program.isCode,
      (lastOf typeWord (commands line)).getD .noMotion ∉ [BlockType.cwa, .ccwa]) :
    ∃ p : Program K, Edited m (.load file (some lines) false) Program.empty p := by
  have hready : (Program.reset { Program.empty with filename := file } : Program K).Ready := by
    intro o ho
    cases ho
  obtain ⟨p, hp⟩ := Program.exists_lines (m := m) hready hw ht
  exact ⟨p, edited_load.mpr ⟨lines, rfl, hp⟩⟩

/-- The text of a program after some edits of the empty one. -/
def textOf (es : List Edit) : List Line := es.foldl Edit.text []

/-- The blocks of an edited program are made of the lines of its text. -/
theorem madeFrom_of_edits {es : List Edit} (hr : Run (Edited m) Program.empty es p) {i : ℕ}
    {line : Line} {b : Block K} (hl : (textOf es)[i]? = some line) (hb : p.blocks[i]? = some b) :
    MadeFrom m ((textOf es).take i) line b := by
  have h : Follows m (textOf es) p.blocks := follows_edits hr Follows.nil
  exact h.get hb hl

theorem length_of_edits {es : List Edit} (hr : Run (Edited m) Program.empty es p) :
    p.blocks.length = (textOf es).length := by
  have h : Follows m (textOf es) p.blocks := follows_edits hr Follows.nil
  exact h.length_eq

/-- The modal state of a block is the one of the text up to its line. -/
theorem modal_of_edits {es : List Edit} (hr : Run (Edited m) Program.empty es p) {i : ℕ}
    {line : Line} {b : Block K} (hl : (textOf es)[i]? = some line) (hb : p.blocks[i]? = some b) :
    ModalState m ((textOf es).take (i + 1)) b := by
  rw [List.take_add_one, hl]
  exact (madeFrom_of_edits hr hl hb).modal

/-- The blocks of a program that was loaded from a file. -/
theorem blocks_of_load {file : String} {lines : List Line}
    (h : Edited m (.load file (some lines) false) Program.empty p) :
    p.blocks.length = (lines.filter Program.isCode).length ∧
      ∀ i line, (lines.filter Program.isCode)[i]? = some line → ∃ b, p.blocks[i]? = some b ∧
        MadeFrom m ((lines.filter Program.isCode).take i) line b := by
  have hfol : Follows m (lines.filter Program.isCode) p.blocks := follows_edit h Follows.nil
  refine ⟨hfol.length_eq, fun i line hl => ?_⟩
  have hi : i < p.blocks.length := by
    rw [hfol.length_eq]
    exact (List.getElem?_eq_some_iff.mp hl).1
  have hb := List.getElem?_eq_getElem hi
  exact ⟨_, hb, hfol.get hb hl⟩

theorem parsed_of_load {file : String} {content : Option (List Line)}
    (h : Edited m (.load file content false) Program.empty p) : p.Parsed := by
  obtain ⟨lines, hl, hr⟩ := edited_load.mp h
  exact Program.parsed_load (Program.load_iff.mpr ⟨lines, hl, hr⟩)

/-- Modal semantics: after any edits that are accepted, the program has one block
for each line of its text, in order; a block has the target, feedrate, spindle and
tool of the last words up to its line, and the rest from its own line. -/
theorem modal_semantics {es : List Edit} (hr : Run (Edited m) Program.empty es p) :
    p.blocks.length = (textOf es).length ∧
    ∀ i line b, (textOf es)[i]? = some line → p.blocks[i]? = some b →
      ModalState m ((textOf es).take (i + 1)) b ∧ OwnWords line b := by
  refine ⟨length_of_edits hr, fun i line b hl hb => ?_⟩
  exact ⟨modal_of_edits hr hl hb, (madeFrom_of_edits hr hl hb).own⟩

/-- A file with comments, and one more line. -/
def mixedEdits : List Edit :=
  [.load "part.g" (some ["# part".toList, "G1 X10 F100".toList, "Y5 ; F900".toList]) true,
    .push "R2 M3".toList]

theorem modal_semantics_mixed :
    ∃ p : Program XReal, Run (Edited Machine.default) Program.empty mixedEdits p ∧
      ∃ b, p.blocks[2]? = some b ∧ b.target = .ofCoords (num 10) (num 5) (num 0) ∧
        b.feedrate = num 100 ∧ b.r = num 2 := by
  have hready : ({ Program.empty with filename := "part.g" } : Program XReal).Ready := by
    intro o ho; cases ho
  have hlines : ∃ p, Run (Program.Accepted (Machine.default (K := XReal)))
      { Program.empty with filename := "part.g" }
      (["G1 X10 F100".toList, "Y5 ; F900".toList] ++ ["R2 M3".toList]) p :=
    Program.exists_lines hready (by decide +kernel) (by decide +kernel)
  obtain ⟨p, hp⟩ := hlines
  obtain ⟨q, hq, hp⟩ := hp.append_split
  have hload : Edited Machine.default (.load "part.g" (some
      ["# part".toList, "G1 X10 F100".toList, "Y5 ; F900".toList]) true) Program.empty q := by
    have hf : ["# part".toList, "G1 X10 F100".toList, "Y5 ; F900".toList].filter Program.isCode =
        ["G1 X10 F100".toList, "Y5 ; F900".toList] := by decide +kernel
    refine edited_load.mpr ⟨_, rfl, ?_⟩
    rw [hf]
    exact hq
  have hpush : Edited Machine.default (.push "R2 M3".toList) q p := by
    cases hp with
    | cons ha h => cases h; exact edited_push.mpr ha
  have hr : Run (Edited Machine.default) Program.empty mixedEdits p :=
    .cons hload (.single hpush)
  obtain ⟨hlen, hsem⟩ := modal_semantics hr
  have hlt : 2 < p.blocks.length := by rw [hlen]; decide +kernel
  obtain ⟨hm, ho⟩ := hsem 2 "R2 M3".toList _ (by decide +kernel) (List.getElem?_eq_getElem hlt)
  refine ⟨p, hr, _, List.getElem?_eq_getElem hlt, hm.target.trans ?_, hm.feedrate.trans ?_,
    ho.r.trans ?_⟩
  · have hx : lastOf (numeralWord 'X') (wordsOf ((textOf mixedEdits).take 3)) =
        some (.finite 10) := by decide +kernel
    have hy : lastOf (numeralWord 'Y') (wordsOf ((textOf mixedEdits).take 3)) =
        some (.finite 5) := by decide +kernel
    have hz : lastOf (numeralWord 'Z') (wordsOf ((textOf mixedEdits).take 3)) =
        none := by decide +kernel
    simp only [modalTarget, lastOf_dataWord, hx, hy, hz]
    rfl
  · have hf : lastOf (numeralWord 'F') (wordsOf ((textOf mixedEdits).take 3)) =
        some (.finite 100) := by decide +kernel
    simp only [modalWord, lastOf_dataWord, hf]
    rfl
  · have ht : ¬ (typeCode "R2 M3".toList = .cwa ∨ typeCode "R2 M3".toList = .ccwa) := by
      decide +kernel
    have hr : lastOf (numeralWord 'R') (commands "R2 M3".toList) = some (.finite 2) := by
      decide +kernel
    simp only [ownRadius, if_neg ht, ownWord, lastOf_dataWord, hr]
    rfl

end Cncpp
