import Mathlib.Data.List.DropRight
import Cncpp.Independence
import Cncpp.Modal
import Cncpp.Numerals

/-! Comments.  A mark is recognised at the start of a word only, and a conversion ignores
what stands behind its numeral: behind a word the mark is skipped, and the words of the
comment are executed. -/

namespace Cncpp

open DataArith Lib Lib.ExceptState

/-- The marks that start a comment. -/
def IsMark (c : Char) : Prop := c = ';' ∨ c = '#'

/-- The text is empty or ends in a blank. -/
def Separated (p : Line) : Prop := ∀ c ∈ p.getLast?, isSpace c = true

/-! ## Marks -/

section Marks

variable {mark : Char}

theorem IsMark.stops (h : IsMark mark) : Stops mark := by
  rcases h with rfl | rfl
  · refine ⟨fun base hb => ?_, by decide, by decide, by decide⟩
    simp [digitVal]
  · refine ⟨fun base hb => ?_, by decide, by decide, by decide⟩
    simp [digitVal]

theorem toUpper_eq {c d : Char} (h : c.toUpper = d) :
    c = d ∨ 97 ≤ c.toNat ∧ c.toNat ≤ 122 ∧ c.toNat = d.toNat + 32 := by
  unfold Char.toUpper at h
  split at h
  · next hc =>
    right
    rw [← h]
    simp only [UInt32.le_iff_toNat_le] at hc
    have h1 : 97 ≤ c.val.toNat := hc.1
    have h2 : c.val.toNat ≤ 122 := hc.2
    refine ⟨h1, h2, ?_⟩
    have hk : ('A'.val - 'a'.val).toNat = 2 ^ 32 - 32 := rfl
    show c.val.toNat = (c.val + ('A'.val - 'a'.val)).toNat + 32
    rw [UInt32.toNat_add, hk]
    omega
  · exact .inl h

/-- A word without marks is no comment. -/
theorem isComment_of_marks {t : Token} (hne : t ≠ []) (ht : ∀ c ∈ t, ¬ IsMark c) :
    isComment t = false := by
  cases t with
  | nil => exact absurd rfl hne
  | cons c t =>
    have hc : ¬ IsMark c := ht c (by simp)
    have hu : ∀ d, IsMark d → c.toUpper ≠ d := by
      intro d hd he
      rcases toUpper_eq he with rfl | ⟨h1, h2, h3⟩
      · exact hc hd
      · have h59 : ';'.toNat = 59 ∧ '#'.toNat = 35 := by decide
        rcases hd with rfl | rfl <;> omega
    have h1 : letter (c :: t) ≠ '#' := hu '#' (.inr rfl)
    have h2 : letter (c :: t) ≠ ';' := hu ';' (.inl rfl)
    simp [isComment, h1, h2]

theorem mem_of_words {p : Line} {t : Token} (h : t ∈ words p) {c : Char} (hc : c ∈ t) : c ∈ p := by
  induction p generalizing t with
  | nil => cases h
  | cons d p ih =>
    rw [words] at h
    split at h
    · exact List.mem_cons_of_mem d (ih h hc)
    · split at h
      · rcases List.mem_cons.mp h with rfl | h
        · rw [List.mem_singleton.mp hc]
          exact List.mem_cons_self ..
        · exact List.mem_cons_of_mem d (ih h hc)
      · rcases List.mem_cons.mp h with rfl | h
        · rcases List.mem_cons.mp hc with rfl | hc
          · exact List.mem_cons_self ..
          · cases hw : words p with
            | nil =>
              rw [hw] at hc
              cases hc
            | cons w ws =>
              rw [hw] at hc
              exact List.mem_cons_of_mem d (ih (by simp [hw]) hc)
        · exact List.mem_cons_of_mem d (ih (List.mem_of_mem_tail h) hc)

/-- Without marks every token is a command. -/
theorem commands_eq_words {p : Line} (hp : ∀ c ∈ p, ¬ IsMark c) : commands p = words p := by
  rw [commands, List.takeWhile_eq_self_iff]
  intro t ht
  rw [isComment_of_marks (words_ne_nil ht) fun c hc => hp c (mem_of_words ht hc)]
  rfl

/-- Behind a blank, a mark starts a comment. -/
theorem commands_of_separated {p : Line} (hp : Separated p) (hm : IsMark mark) (x : Line) :
    commands (p ++ mark :: x) = commands p := by
  have hcons : ∃ t ts, words (mark :: x) = (mark :: t) :: ts := by
    rw [words, if_neg (by simp [hm.stops.space])]
    split
    · exact ⟨[], _, rfl⟩
    · exact ⟨_, _, rfl⟩
  obtain ⟨t, ts, hw⟩ := hcons
  have hc : isComment (mark :: t) = true := by
    rcases hm with rfl | rfl
    · exact rfl
    · exact rfl
  rw [commands, commands, words_append hp, hw, List.takeWhile_append]
  split
  · next hl =>
    rw [List.takeWhile_cons_of_neg (by simp [hc]), List.append_nil]
    exact ((List.takeWhile_prefix _).eq_of_length hl).symm
  · rfl

/-- Behind a word, a mark is a part of it, and the words of the comment follow. -/
theorem words_of_glued {p : Line} (hp : ¬ Separated p) : ∃ ws w, w ≠ [] ∧ words p = ws ++ [w] ∧
    ∀ mark x, isSpace mark = false → words (p ++ mark :: x) =
      ws ++ (w ++ mark :: x.takeWhile (!isSpace ·)) :: words (x.dropWhile (!isSpace ·)) := by
  have hsplit := List.rdropWhile_append_rtakeWhile (p := (!isSpace ·)) (l := p)
  generalize hpre : p.rdropWhile (!isSpace ·) = pre at hsplit
  generalize hw : p.rtakeWhile (!isSpace ·) = w at hsplit
  have hblank : ∀ c ∈ pre.getLast?, isSpace c = true := by
    intro c hc
    subst hpre
    obtain ⟨hpre, rfl⟩ := List.mem_getLast?_eq_getLast hc
    simpa using List.rdropWhile_last_not (!isSpace ·) p hpre
  have hword : ∀ c ∈ w, isSpace c = false := by
    intro c hc
    rw [← hw] at hc
    simpa using List.mem_rtakeWhile_imp hc
  have hne : w ≠ [] := by
    rintro rfl
    rw [List.append_nil] at hsplit
    exact hp (hsplit ▸ hblank)
  refine ⟨words pre, w, hne, ?_, fun mark x hm => ?_⟩
  · have hnil := words_cons_append (r := []) hword hne (fun c hc => nomatch hc)
    rw [List.append_nil] at hnil
    rw [← hsplit, words_append hblank, hnil]
    rfl
  · have hgl : p ++ mark :: x = pre ++ ((w ++ mark :: x.takeWhile (!isSpace ·)) ++
        x.dropWhile (!isSpace ·)) := by
      rw [List.append_assoc, List.cons_append, List.takeWhile_append_dropWhile, ← List.append_assoc,
        hsplit]
    rw [hgl, words_append hblank, words_cons_append _ (by simp)]
    · intro c hc
      have := List.head?_dropWhile_not (!isSpace ·) x
      rw [hc] at this
      simpa using this
    · intro c hc
      rcases List.mem_append.mp hc with hc | hc
      · exact hword c hc
      rcases List.mem_cons.mp hc with rfl | hc
      · exact hm
      · simpa using List.mem_takeWhile_imp hc

/-- A word keeps its letter and its value when a mark follows. -/
theorem letter_mark {w : Token} (hw : w ≠ []) (x : List Char) :
    letter (w ++ x) = letter w ∧ (w ++ x).tail = w.tail ++ x := by
  cases w with
  | nil => exact absurd rfl hw
  | cons c w => exact ⟨rfl, rfl⟩

theorem isWord_mark (hm : IsMark mark) {w : Token} (hw : w ≠ []) (x : List Char) :
    IsWord (w ++ mark :: x) ↔ IsWord w := by
  obtain ⟨hl, ht⟩ := letter_mark hw (mark :: x)
  rw [IsWord, IsWord, hl, ht, stoi_stop hm.stops, stod_stop hm.stops]
  constructor
  · rintro ⟨-, h⟩
    refine ⟨fun hnil => ?_, h⟩
    rw [hnil] at h
    rcases h with ⟨-, v, hv⟩ | ⟨-, v, hv⟩ <;> cases hv
  · rintro ⟨-, h⟩
    exact ⟨by simp, h⟩

theorem sizeWord_mark (hm : IsMark mark) {w : Token} (hw : w ≠ []) (x : List Char) (c : Char) :
    sizeWord c (w ++ mark :: x) = sizeWord c w := by
  obtain ⟨hl, ht⟩ := letter_mark hw (mark :: x)
  rw [sizeWord, sizeWord, intWord, intWord, hl, ht, stoi_stop hm.stops]

theorem commands_of_glued {p : Line} (hp : ∀ c ∈ p, ¬ IsMark c) (hg : ¬ Separated p) :
    ∃ ws w, w ≠ [] ∧ words p = ws ++ [w] ∧ ∀ mark x, IsMark mark →
      commands (p ++ mark :: x) = ws ++ (w ++ mark :: x.takeWhile (!isSpace ·)) ::
        commands (x.dropWhile (!isSpace ·)) := by
  obtain ⟨ws, w, hne, hw, hx⟩ := words_of_glued hg
  have hc : ∀ t ∈ words p, isComment t = false := by
    intro t ht
    exact isComment_of_marks (words_ne_nil ht) fun c hc => hp c (mem_of_words ht hc)
  refine ⟨ws, w, hne, hw, fun mark x hm => ?_⟩
  have hws : ∀ t ∈ ws, (!isComment t) = true := by
    intro t ht
    rw [hc t (by simp [hw, ht])]
    rfl
  have hwm : isComment (w ++ mark :: x.takeWhile (!isSpace ·)) = false := by
    have := hc w (by simp [hw])
    rw [isComment] at this ⊢
    rw [(letter_mark hne _).1]
    exact this
  rw [commands, hx mark x hm.stops.space, List.takeWhile_append_of_pos hws,
    List.takeWhile_cons_of_pos (by simp [hwm])]
  rfl

/-- Every word of a text is still there when a comment follows, up to what its
conversion ignores. -/
theorem mem_commands_mark {p : Line} (hp : ∀ c ∈ p, ¬ IsMark c) (hm : IsMark mark) (x : Line)
    {t : Token} (ht : t ∈ words p) : ∃ t' ∈ commands (p ++ mark :: x), (IsWord t' ↔ IsWord t) ∧
      sizeWord 'N' t' = sizeWord 'N' t := by
  by_cases hs : Separated p
  · refine ⟨t, ?_, Iff.rfl, rfl⟩
    rw [commands_of_separated hs hm, commands_eq_words hp]
    exact ht
  · obtain ⟨ws, w, hne, hw, hx⟩ := commands_of_glued hp hs
    rw [hx mark x hm]
    rw [hw] at ht
    rcases List.mem_append.mp ht with ht | ht
    · exact ⟨t, List.mem_append_left _ ht, Iff.rfl, rfl⟩
    · rw [List.mem_singleton.mp ht]
      exact ⟨_, List.mem_append_right _ (List.mem_cons_self ..), isWord_mark hm hne _,
        sizeWord_mark hm hne _ 'N'⟩

end Marks

/-! ## Outcomes -/

namespace Block

variable {K : Type} [DataArith K]

/-- The block that `parse` returns, or its exception. -/
def outcome : EStateM.Result (Exn K) (Block K) Unit → Except (Exn K) (Block K)
  | .ok _ b => .ok b
  | .error e _ => .error e

/-- A block is constructed from a line and the block before it, and parsed. -/
def build (m : Machine K) (addr : Addr) (line : Line) :
    Option (Block K) → Except (Exn K) (Block K)
  | none => outcome ((parse m none).run (ofLine addr line))
  | some o => do
    let (b, o) ← ofPrev addr line o
    outcome ((parse m (some o)).run b)

/-- Both throw, or the blocks differ in the stored line only. -/
inductive SameOutcome : Except (Exn K) (Block K) → Except (Exn K) (Block K) → Prop
  | ok (c : Block K) (line : Line) : SameOutcome (.ok c) (.ok { c with line := line })
  | error (e e' : Exn K) : SameOutcome (.error e) (.error e')

omit [DataArith K] in
theorem SameOutcome.exists_ok {r r' : Except (Exn K) (Block K)} {c : Block K}
    (h : SameOutcome r r') (hr : r = .ok c) : ∃ line, r' = .ok { c with line := line } := by
  cases h with
  | ok c' line =>
    cases hr
    exact ⟨line, rfl⟩
  | error e e' => cases hr

/-- A line with this text is refused whatever the comment is: the previous block was not
parsed or has no complete target, or a word or a block number of the text is refused. -/
inductive Refused (m : Machine K) (prev : Option (Block K)) (p : Line) : Prop
  | copy {o : Block K} : prev = some o → o.parsed = false → Refused m prev p
  | origin : (origin m prev).isComplete = false → Refused m prev p
  | word {t : Token} : t ∈ words p → ¬ IsWord t → Refused m prev p
  | number {o : Block K} {t : Token} {n : ℕ} : prev = some o → t ∈ words p →
      sizeWord 'N' t = some n → n ≤ o.n → Refused m prev p

variable {m : Machine K} {addr : Addr} {line line' p : Line} {prev : Option (Block K)} {c : Block K}

omit [DataArith K] in
theorem outcome_eq_ok {r : EStateM.Result (Exn K) (Block K) Unit} :
    outcome r = .ok c ↔ r = .ok () c := by
  cases r with
  | ok _ b =>
    constructor
    · rintro ⟨⟩
      rfl
    · rintro ⟨⟩
      rfl
  | error e b => exact ⟨nofun, nofun⟩

theorem build_eq_ok : build m addr line prev = .ok c ↔ (∀ o ∈ prev, o.parsed = true) ∧
    Parsed m (prev.map ({ · with next := some addr })) (start addr line prev) c := by
  cases prev with
  | none =>
    rw [build, outcome_eq_ok, ← parse_iff]
    exact (and_iff_right fun o ho => nomatch ho).symm
  | some o =>
    have hall : (∀ q ∈ some o, q.parsed = true) ↔ o.parsed = true := by simp
    rw [hall, ← parse_iff, build, ofPrev, assign]
    split
    · next ho =>
      rw [and_iff_right ho]
      exact outcome_eq_ok
    · next ho =>
      constructor
      · intro h
        cases h
      · rintro ⟨h, -⟩
        exact absurd h ho

/-- The block that is parsed depends on the words of its line only, and on what they do. -/
theorem build_words (hm : ∀ t ∈ commands line', t ∈ commands line)
    (hu : ∀ d : Block K, updateAll (commands line') d = updateAll (commands line) d)
    (hc : build m addr line prev = .ok c) :
    build m addr line' prev = .ok { c with line := line' } := by
  obtain ⟨hpar, hp⟩ := build_eq_ok.mp hc
  have hs : start addr line' prev = (start addr line prev).as (start addr line' prev) := by
    cases prev <;> rfl
  have h' := hp.as_of_words (o := start addr line' prev) (by rw [start_line, start_line]; exact hm)
    (by rw [start_line, start_line]; exact hu) rfl hp.number
  rw [← hs] at h'
  refine build_eq_ok.mpr ⟨hpar, ?_⟩
  obtain ⟨_, _, _, _, _, _, _, _, _, _, -, rfl⟩ := hp.frame
  rw [start_line] at h'
  cases prev with
  | none => exact h'
  | some o => exact h'

/-- Lines with the same words, which do the same, have the same outcome. -/
theorem sameOutcome_of_words (hm : ∀ t, t ∈ commands line ↔ t ∈ commands line')
    (hu : ∀ d : Block K, updateAll (commands line) d = updateAll (commands line') d) :
    SameOutcome (build m addr line prev) (build m addr line' prev) := by
  cases hc : build m addr line prev with
  | ok c =>
    rw [build_words (fun t => (hm t).mpr) (fun d => (hu d).symm) hc]
    exact .ok c line'
  | error e =>
    cases hc' : build m addr line' prev with
    | ok c' =>
      rw [build_words (fun t => (hm t).mp) hu hc'] at hc
      cases hc
    | error e' => exact .error e e'

theorem sameOutcome_of_commands (h : commands line = commands line') :
    SameOutcome (build m addr line prev) (build m addr line' prev) :=
  sameOutcome_of_words (fun _ => by rw [h]) fun _ => by rw [h]

variable {mark : Char}

theorem Refused.error (hr : Refused m prev p) (addr : Addr) (hp : ∀ c ∈ p, ¬ IsMark c)
    (hm : IsMark mark) (x : Line) : ∃ e, build m addr (p ++ mark :: x) prev = .error e := by
  cases hc : build m addr (p ++ mark :: x) prev with
  | error e => exact ⟨e, rfl⟩
  | ok c =>
    exfalso
    obtain ⟨hpar, hpd⟩ := build_eq_ok.mp hc
    have hw := hpd.words
    have hn := hpd.number
    obtain ⟨x0, y0, z0, _, h0, -⟩ := hpd.planned
    rw [start_line] at hw hn
    rw [origin_link] at h0
    cases hr with
    | copy ho hf => exact absurd (hpar _ ho) (by simp [hf])
    | origin hf => exact absurd hf (by simp [h0])
    | word ht hnw =>
      obtain ⟨t', ht', hiff, -⟩ := mem_commands_mark hp hm x ht
      exact hnw (hiff.mp (hw t' ht'))
    | @number o t n ho ht hs hle =>
      obtain ⟨t', ht', -, hs'⟩ := mem_commands_mark hp hm x ht
      have hlt := hn _ (Option.mem_map_of_mem _ ho) t' ht' n (hs'.trans hs)
      exact absurd hlt (not_lt.mpr hle)

/-- A comment behind a word is executed: one with a word that is refused makes the line
fail, and one with a G word does not. -/
theorem comment_executed (addr : Addr) (hp : ∀ c ∈ p, ¬ IsMark c) (hg : ¬ Separated p)
    (hr : ¬ Refused m prev p) (hm : IsMark mark) :
    (∃ c, build m addr (p ++ mark :: " G4".toList) prev = .ok c) ∧
      ∃ e, build m addr (p ++ mark :: " ?".toList) prev = .error e := by
  obtain ⟨ws, w, hne, hw, hx⟩ := commands_of_glued hp hg
  have hword : ∀ t ∈ words p, IsWord t := fun t ht => by_contra fun h => hr (.word ht h)
  have hwords : ∀ t ∈ ws ++ [w ++ [mark]], IsWord t := by
    intro t ht
    rcases List.mem_append.mp ht with ht | ht
    · exact hword t (by simp [hw, ht])
    · rw [List.mem_singleton.mp ht, isWord_mark hm hne]
      exact hword w (by simp [hw])
  constructor
  · have hc : commands (p ++ mark :: " G4".toList) = ws ++ [w ++ [mark]] ++ ["G4".toList] := by
      rw [hx mark _ hm, List.append_assoc]
      rfl
    have hpar : ∀ o ∈ prev, o.parsed = true := by
      intro o ho
      by_contra h
      exact hr (.copy ho (by simpa using h))
    have horigin : (origin m prev).isComplete = true := by
      by_contra h
      exact hr (.origin (by simpa using h))
    have hcon := constructed_start addr (p ++ mark :: " G4".toList) hpar
    have hw4 : ∀ t ∈ commands (p ++ mark :: " G4".toList), IsWord t := by
      rw [hc]
      intro t ht
      rcases List.mem_append.mp ht with ht | ht
      · exact hwords t ht
      · rw [List.mem_singleton.mp ht]
        decide +kernel
    have hn4 : ∀ o ∈ prev.map ({· with next := some addr}),
        ∀ t ∈ commands (p ++ mark :: " G4".toList), ∀ n ∈ sizeWord 'N' t, o.n < n := by
      intro o ho t ht n hn
      obtain ⟨q, hq, rfl⟩ := Option.mem_map.mp ho
      by_contra hle
      rw [hc, List.append_assoc] at ht
      rcases List.mem_append.mp ht with ht | ht
      · exact hr (.number hq (by simp [hw, ht]) hn (not_lt.mp hle))
      rcases List.mem_cons.mp ht with rfl | ht
      · rw [sizeWord_mark hm hne] at hn
        exact hr (.number hq (by simp [hw]) hn (not_lt.mp hle))
      · rw [List.mem_singleton.mp ht] at hn
        cases hn
    have ht4 : (lastOf typeWord (commands (p ++ mark :: " G4".toList))).getD .noMotion ∉
        [BlockType.cwa, .ccwa] := by
      have hG : lastOf typeWord ["G4".toList] = some .noMotion := by decide +kernel
      rw [hc, lastOf_append, hG]
      exact of_decide_eq_true rfl
    obtain ⟨c, hparse⟩ := exists_parse (m := m) hcon hw4 hn4 (by rw [origin_link]; exact horigin) ht4
    exact ⟨c, build_eq_ok.mpr ⟨hpar, parse_iff.mp hparse⟩⟩
  · have hc : "?".toList ∈ commands (p ++ mark :: " ?".toList) := by
      rw [hx mark _ hm]
      exact List.mem_append_right _ (List.mem_cons_of_mem _ (by decide +kernel))
    cases hb : build m addr (p ++ mark :: " ?".toList) prev with
    | error e => exact ⟨e, rfl⟩
    | ok c =>
      have hw := (build_eq_ok.mp hb).2.words
      rw [start_line] at hw
      exact absurd (hw _ hc) (by decide +kernel)

/-- Comments are ignored exactly where the mark does not touch a word, or where the line
is refused anyway. -/
theorem comments_ignored_iff (hm : IsMark mark) (hp : ∀ c ∈ p, ¬ IsMark c) (m : Machine K)
    (prev : Option (Block K)) (addr : Addr) :
    (∀ x y, SameOutcome (build m addr (p ++ mark :: x) prev) (build m addr (p ++ mark :: y) prev)) ↔
      Separated p ∨ Refused m prev p := by
  constructor
  · intro h
    by_contra hno
    obtain ⟨hg, hr⟩ := not_or.mp hno
    obtain ⟨⟨c, hc⟩, e, he⟩ := comment_executed addr hp hg hr hm
    have hs := h " G4".toList " ?".toList
    rw [hc, he] at hs
    cases hs
  · rintro (hs | hr) x y
    · apply sameOutcome_of_commands
      rw [commands_of_separated hs hm, commands_of_separated hs hm]
    · obtain ⟨e, he⟩ := hr.error addr hp hm x
      obtain ⟨e', he'⟩ := hr.error addr hp hm y
      rw [he, he']
      exact .error e e'

def endsBlank : Line := "G0 X10 ".toList
def endsWord : Line := "G0 X10".toList

theorem endsBlank_text : (∀ c ∈ endsBlank, ¬ IsMark c) ∧ Separated endsBlank := by
  have hall : endsBlank.all (fun c => c ≠ ';' && c ≠ '#') = true := by decide +kernel
  have hlast : endsBlank.getLast? = some ' ' := by decide +kernel
  constructor
  · simpa [IsMark] using hall
  · intro c hc
    rw [hlast] at hc
    cases hc
    rfl

theorem comments_ignored_spaced :
    SameOutcome (build (K := XReal) .default 0 (endsBlank ++ ';' :: "a".toList) none)
      (build .default 0 (endsBlank ++ ';' :: "a Y20".toList) none) :=
  (comments_ignored_iff (.inl rfl) endsBlank_text.1 .default none 0).mpr (.inl endsBlank_text.2) _ _

/-- The words of a comment that touches the last word move the target. -/
theorem comment_moves_target : ∃ c c' : Block XReal,
    build .default 0 (endsWord ++ ';' :: "a".toList) none = .ok c ∧
      build .default 0 (endsWord ++ ';' :: "a Y20".toList) none = .ok c' ∧
      c.target ≠ c'.target ∧ ¬ SameOutcome (.ok c) (.ok c') := by
  have hparse : ∀ x ∈ ["a".toList, "a Y20".toList], ∃ c : Block XReal,
      build .default 0 (endsWord ++ ';' :: x) none = .ok c ∧
        c.target = modalTarget .default [endsWord ++ ';' :: x] := by
    intro x hx
    have hin : (∀ t ∈ commands (endsWord ++ ';' :: x), IsWord t) ∧
        (lastOf typeWord (commands (endsWord ++ ';' :: x))).getD .noMotion ∉
          [BlockType.cwa, .ccwa] := by
      revert x
      decide +kernel
    have hb : Constructed (endsWord ++ ';' :: x) none
      (ofLine (K := XReal) 0 (endsWord ++ ';' :: x)) := .first 0
    obtain ⟨c, h⟩ := exists_parse (m := Machine.default) hb hin.1 (by simp) rfl hin.2
    have hm : ModalState .default ([] ++ [endsWord ++ ';' :: x]) c := modal_of_parse hb rfl h
    exact ⟨c, build_eq_ok.mpr ⟨(fun o ho => nomatch ho), parse_iff.mp h⟩, hm.target⟩
  obtain ⟨c, hc, ht⟩ := hparse _ (List.mem_cons_self ..)
  obtain ⟨c', hc', ht'⟩ := hparse "a Y20".toList (by simp)
  have hne : c.target ≠ c'.target := by
    rw [ht, ht']
    intro he
    have hy := congrArg Point.y he
    have h1 : lastOf (numeralWord 'Y') (wordsOf [endsWord ++ ';' :: "a".toList]) = none := by
      decide +kernel
    have h2 : lastOf (numeralWord 'Y') (wordsOf [endsWord ++ ';' :: "a Y20".toList]) =
        some (.finite 20) := by decide +kernel
    simp only [modalTarget, lastOf_dataWord, h1, h2] at hy
    simp [Machine.default, Point.ofCoords, ofNumeral] at hy
  refine ⟨c, c', hc, hc', hne, fun h => ?_⟩
  cases h
  exact hne rfl

end Block

end Cncpp
