import Cncpp.Failure
import Cncpp.Modal

/-! The lines that `operator<<` accepts, and what a refused line does to the program: the
node is put into the list before it is parsed, and stays there. -/

namespace Cncpp

open DataArith Lib Lib.ExceptState

variable {K : Type} [DataArith K]

/-! ## Acceptable lines -/

/-- The inputs of an arc from `(x0, y0)` to `(x, y)` that pass the checks: the radius is a
finite number, and a target that I and J do not reach is within the tolerance. -/
def ArcAccepted (m : Machine K) (x0 y0 x y R I J : K) : Prop :=
  if nonzero R = true then isnan (fabs R) = false ∧ isinf (fabs R) = false
  else isnan (fabs (hypot I J)) = false ∧ isinf (fabs (hypot I J)) = false ∧
    lt m.error (fabs (hypot I J - hypot (x - (x0 + I)) (y - (y0 + J)))) = false

/-- A line that passes every check behind a block. -/
structure Acceptable (m : Machine K) (prev : Option (Block K)) (line : Line) : Prop where
  words : ∀ t ∈ commands line, IsWord t
  number : ∀ o ∈ prev, ∀ t ∈ commands line, ∀ n ∈ sizeWord 'N' t, o.n < n
  origin : ∃ x0 y0 z0, Block.origin m prev = .ofCoords x0 y0 z0 ∧
    ((typeCode line).IsArc → ArcAccepted m x0 y0
      ((lastOf (dataWord 'X') (commands line)).getD x0)
      ((lastOf (dataWord 'Y') (commands line)).getD y0)
      (ownWord 'R' line) (ownWord 'I' line) (ownWord 'J' line))

namespace Block

variable {m : Machine K} {prev : Option (Block K)} {line : Line} {b c : Block K}

theorem arcAccepted_iff (type : BlockType) {x0 y0 x y R I J : K} :
    ArcAccepted m x0 y0 x y R I J ↔ ∃ r xc yc, CenterOf m type R I J x0 y0 x y r xc yc ∧
      isnan (fabs r) = false ∧ isinf (fabs r) = false := by
  unfold ArcAccepted CenterOf
  split
  · constructor
    · intro h
      exact ⟨R, _, _, ⟨rfl, rfl⟩, h⟩
    · rintro ⟨_, _, _, ⟨rfl, -⟩, h⟩
      exact h
  · constructor
    · rintro ⟨hn, hi, hlt⟩
      exact ⟨_, _, _, ⟨rfl, rfl, hlt⟩, hn, hi⟩
    · rintro ⟨_, _, _, ⟨rfl, hc, hlt⟩, hn, hi⟩
      cases hc
      exact ⟨hn, hi, hlt⟩

/-- The words of a line are read, and its target is completed. -/
def filled (m : Machine K) (x0 y0 z0 : K) (addr : Addr) (line : Line) (prev : Option (Block K)) :
    Block K := fill m x0 y0 z0 (updateAll (commands line) (start addr line prev).attach)

theorem filled_inputs (m : Machine K) (x0 y0 z0 : K) (addr : Addr) (line : Line)
    (prev : Option (Block K)) : let u := filled m x0 y0 z0 addr line prev
    u.type = typeCode line ∧ u.r = ownWord 'R' line ∧ u.i = ownWord 'I' line ∧
      u.j = ownWord 'J' line ∧ u.target = .ofCoords
        ((lastOf (dataWord 'X') (commands line)).getD x0)
        ((lastOf (dataWord 'Y') (commands line)).getD y0)
        ((lastOf (dataWord 'Z') (commands line)).getD z0) ∧ u.delta = .ofCoords
        ((lastOf (dataWord 'X') (commands line)).getD x0 - x0)
        ((lastOf (dataWord 'Y') (commands line)).getD y0 - y0)
        ((lastOf (dataWord 'Z') (commands line)).getD z0 - z0) := by
  cases prev <;>
    exact ⟨rfl, rfl, rfl, rfl, by simp [filled, fill, updateAll, attach, start, ofLine],
      by simp [filled, fill, updateAll, attach, start, ofLine]⟩

/-- The centre that the inputs of a block give is the one that `calc_arc` finds. -/
theorem CenterOf.arcCenter {x0 y0 z0 x y z r xc yc : K}
    (h : CenterOf m b.type b.r b.i b.j x0 y0 x y r xc yc)
    (hd : b.delta = .ofCoords (x - x0) (y - y0) (z - z0)) : ArcCenter m b x0 y0 x y r xc yc := by
  unfold CenterOf at h
  split at h
  · next hnz =>
    obtain ⟨rfl, hc⟩ := h
    obtain ⟨rfl, rfl⟩ := Prod.mk.inj hc
    exact .radius hnz (by rw [hd]; rfl) (by rw [hd]; rfl)
  · next hnz =>
    obtain ⟨rfl, hc, hlt⟩ := h
    cases hc
    exact .center (by simpa using hnz) hlt

/-- The lines that `parse` accepts behind a block. -/
theorem acceptable_iff (addr a : Addr) :
    (∃ c, Parsed m (prev.map ({· with next := some a})) (start addr line prev) c) ↔
      Acceptable m prev line := by
  have hnum : (∀ o ∈ prev.map ({· with next := some a}), ∀ t ∈ commands line,
      ∀ n ∈ sizeWord 'N' t, o.n < n) ↔
      ∀ o ∈ prev, ∀ t ∈ commands line, ∀ n ∈ sizeWord 'N' t, o.n < n := by
    cases prev with
    | none => simp
    | some o => simp
  constructor
  · rintro ⟨c, hw, hn, x0, y0, z0, b2, h0, hp, rfl⟩
    rw [start_line] at hw hn hp
    have h0' : origin m prev = .ofCoords x0 y0 z0 := origin_link.symm.trans h0
    refine ⟨hw, hnum.mp hn, x0, y0, z0, h0', fun ha => ?_⟩
    obtain ⟨hty, hR, hI, hJ, htgt, hdel⟩ := filled_inputs m x0 y0 z0 addr line prev
    obtain ⟨r, xc, yc, hcen, hst⟩ := hp.arc_eq (b := filled m x0 y0 z0 addr line prev)
      (by rw [hty]; exact ha) h0 htgt hdel
    rw [hty, hR, hI, hJ] at hcen
    exact (arcAccepted_iff (typeCode line)).mpr ⟨r, xc, yc, hcen, hst.valid⟩
  · rintro ⟨hw, hn, x0, y0, z0, h0, harc⟩
    obtain ⟨hty, hR, hI, hJ, htgt, hdel⟩ := filled_inputs m x0 y0 z0 addr line prev
    have h0' : origin m (prev.map ({· with next := some a})) = .ofCoords x0 y0 z0 :=
      origin_link.trans h0
    have hplan : ∃ c, Planned m (prev.map ({· with next := some a}))
        (filled m x0 y0 z0 addr line prev) c := by
      by_cases hl : typeCode line = .line
      · exact ⟨_, .line (hty.trans hl)⟩
      by_cases ha : (typeCode line).IsArc
      · obtain ⟨r, xc, yc, hcen, hv⟩ := (arcAccepted_iff (typeCode line)).mp (harc ha)
        rw [← hty, ← hR, ← hI, ← hJ] at hcen
        have hs : (filled m x0 y0 z0 addr line prev).startPoint m
            (prev.map ({· with next := some a})) = .ok (.ofCoords x0 y0 z0) :=
          startPoint_eq_ok.mpr ⟨rfl, h0'⟩
        have hc := calcArc_iff.mpr ⟨x0, y0, z0, _, _, _, r, xc, yc, hs, htgt, hcen.arcCenter hdel,
          hv.1, hv.2, rfl⟩
        exact ⟨_, .arc (by rw [hty]; exact ha) hc⟩
      · rw [BlockType.IsArc, not_or] at ha
        exact ⟨_, .other (by rw [hty]; exact hl) (by rw [hty]; exact ha.1) (by rw [hty]; exact ha.2)⟩
    obtain ⟨c, hc⟩ := hplan
    refine ⟨_, ?_, ?_, x0, y0, z0, c, h0', ?_, rfl⟩
    · rw [start_line]
      exact hw
    · rw [start_line]
      exact hnum.mpr hn
    · rw [start_line]
      exact hc

/-- A block is made of its line exactly when the line is acceptable. -/
theorem Constructed.exists_parse_iff (hb : Constructed line prev b) :
    (∃ c, (parse m prev).run b = .ok () c) ↔ Acceptable m prev line := by
  simp only [parse_iff]
  cases hb with
  | first addr => exact @acceptable_iff _ _ _ none _ addr addr
  | @after addr o p b ho =>
    obtain ⟨-, rfl, rfl⟩ := ofPrev_ok ho
    exact @acceptable_iff _ _ _ (some { o with next := some addr }) _ addr addr

end Block

namespace Program

variable {m : Machine K} {p p' : Program K} {line : Line}

/-- A line is accepted behind a parsed block, or as the first one, when it is acceptable. -/
theorem exists_accepted_iff : (∃ p', Accepted m line p p') ↔
    (∀ o ∈ p.blocks.getLast?, o.parsed = true) ∧ Acceptable m p.blocks.getLast? line := by
  rw [← Block.acceptable_iff p.fresh p.fresh]
  constructor
  · rintro ⟨p', h⟩
    obtain ⟨hpar, c, hc, -⟩ := accepted_iff.mp h
    exact ⟨hpar, c, hc⟩
  · rintro ⟨hpar, c, hc⟩
    exact ⟨_, accepted_iff.mpr ⟨hpar, c, hc, rfl⟩⟩

omit [DataArith K] in
theorem exists_unparsed (h : ¬ ∀ o ∈ p.blocks.getLast?, o.parsed = true) :
    ∃ o, p.blocks.getLast? = some o ∧ o.parsed = false := by
  rw [not_forall] at h
  obtain ⟨o, h⟩ := h
  rw [Classical.not_imp] at h
  exact ⟨o, h.1, by simpa using h.2⟩

/-- If the append throws it has no effect on the blocks, the cursor and the done flag, and
every line that was accepted before is accepted after it. -/
def Atomic (m : Machine K) (p : Program K) (line : Line) : Prop :=
  ∀ e p', (append m line).run p = .error e p' →
    p'.blocks = p.blocks ∧ p'.current = p.current ∧ p'.done = p.done ∧
      ∀ line', (∃ q, Accepted m line' p q) → ∃ q, Accepted m line' p' q

/-- Once a line was refused, nothing can be appended any more. -/
theorem append_blocked {e : Exn K} (h : (append m line).run p = .error e p') (line' : Line) :
    ¬ ∃ q, Accepted m line' p' q := by
  have hlast : ∃ o, p'.blocks.getLast? = some o ∧ o.parsed = false := by
    by_cases hpar : ∀ o ∈ p.blocks.getLast?, o.parsed = true
    · have hno : ¬ ∃ c, Block.Parsed m p.linked (Block.start p.fresh line p.blocks.getLast?) c := by
        rintro ⟨c, hc⟩
        cases h.symm.trans (accepted_iff.mpr ⟨hpar, c, hc, rfl⟩)
      obtain ⟨e', b, hrun, hplace⟩ := append_refused hpar hno
      rw [hrun] at h
      cases h
      have hb : b.parsed = (Block.start (K := K) p.fresh line p.blocks.getLast?).parsed :=
        congrArg (·.2.2.2.2) hplace
      exact ⟨b, List.getLast?_concat, hb.trans (Block.start_parsed _)⟩
    · obtain ⟨o, ho, hf⟩ := exists_unparsed hpar
      rw [append_unparsed ho hf] at h
      cases h
      exact ⟨o, ho, hf⟩
  rintro ⟨q, hq⟩
  obtain ⟨o, ho, hf⟩ := hlast
  have ht := (accepted_iff.mp hq).1 o ho
  rw [ht] at hf
  cases hf

/-- Appending is atomic exactly for the lines that are acceptable, or where nothing could
be appended anyway. -/
theorem append_atomic_iff (m : Machine K) (p : Program K) (line : Line) : Atomic m p line ↔
    Acceptable m p.blocks.getLast? line ∨ ∃ o ∈ p.blocks.getLast?, o.parsed = false := by
  constructor
  · intro h
    by_contra hno
    obtain ⟨hacc, hpar⟩ := not_or.mp hno
    have hpar : ∀ o ∈ p.blocks.getLast?, o.parsed = true := by
      intro o ho
      by_contra hf
      exact hpar ⟨o, ho, by simpa using hf⟩
    rw [← Block.acceptable_iff p.fresh p.fresh] at hacc
    obtain ⟨e, b, hrun, -⟩ := append_refused hpar hacc
    have hlen := congrArg List.length (h e _ hrun).1
    rw [List.length_append, length_front, List.length_singleton] at hlen
    omega
  · intro h e p' hrun
    by_cases hpar : ∀ o ∈ p.blocks.getLast?, o.parsed = true
    · rcases h with hacc | ⟨o, ho, hf⟩
      · obtain ⟨q, hq⟩ := exists_accepted_iff.mpr ⟨hpar, hacc⟩
        cases hq.symm.trans hrun
      · rw [hpar o ho] at hf
        cases hf
    · obtain ⟨o, ho, hf⟩ := exists_unparsed hpar
      rw [append_unparsed ho hf] at hrun
      cases hrun
      exact ⟨rfl, rfl, rfl, fun _ h => h⟩

def unknownLine : Line := "Q1".toList
def knownLine : Line := "G0 X1".toList

/-- The first line of a program is refused, and its block stays. -/
theorem unknown_refused : ∃ (e : Exn XReal) (p : Program XReal) (b : Block XReal),
    (append Machine.default unknownLine).run .empty = .error e p ∧ p.blocks = [b] ∧
      b.parsed = false := by
  have hno : ¬ ∃ c, Block.Parsed Machine.default (Program.empty : Program XReal).linked
      (Block.start 0 unknownLine none) c := by
    rintro ⟨c, hc⟩
    have hw := hc.words
    exact absurd hw (by decide +kernel)
  obtain ⟨e, b, hrun, hplace⟩ := append_refused (p := Program.empty) (fun o ho => (nomatch ho)) hno
  exact ⟨e, _, b, hrun, rfl, congrArg (·.2.2.2.2) hplace⟩

/-- A known line is accepted; and behind a block that was refused every line is, without a change to
the program. -/
theorem append_atomic_known : Atomic (K := XReal) .default .empty knownLine ∧
    ∃ (e e' : Exn XReal) (p p' : Program XReal),
      (append Machine.default unknownLine).run .empty = .error e p ∧
      (append Machine.default unknownLine).run p = .error e' p' ∧ Atomic .default p unknownLine := by
  constructor
  · refine (append_atomic_iff (K := XReal) .default .empty knownLine).mpr (.inl ?_)
    refine ⟨by decide +kernel, fun o ho => (nomatch ho), _, _, _, rfl, fun ha => ?_⟩
    exact absurd ha (by decide +kernel)
  · obtain ⟨e, p, b, hrun, hblocks, hpar⟩ := unknown_refused
    have hlast : p.blocks.getLast? = some b := by
      rw [hblocks]
      rfl
    exact ⟨e, _, p, _, hrun, append_unparsed hlast hpar,
      (append_atomic_iff .default p unknownLine).mpr (.inr ⟨b, hlast, hpar⟩)⟩

/-- A refused first line stays in the program, and no line can follow it. -/
theorem append_not_atomic : (∃ q : Program XReal, Accepted .default knownLine .empty q) ∧
    ∃ e p', (append Machine.default unknownLine).run (Program.empty : Program XReal) = .error e p' ∧
      p'.blocks.length = 1 ∧ ¬ (∃ q, Accepted .default knownLine p' q) ∧
      ¬ Atomic (K := XReal) .default .empty unknownLine := by
  have hfirst : ∃ q : Program XReal, Accepted .default knownLine .empty q := by
    refine exists_accepted_iff.mpr ⟨fun o ho => (nomatch ho), by decide +kernel,
      fun o ho => (nomatch ho), _, _, _, rfl, fun ha => ?_⟩
    exact absurd ha (by decide +kernel)
  obtain ⟨e, p, b, hrun, hblocks, -⟩ := unknown_refused
  have hblocked := append_blocked hrun knownLine
  refine ⟨hfirst, e, p, hrun, by rw [hblocks]; rfl, hblocked, fun hat => ?_⟩
  exact hblocked ((hat e _ hrun).2.2.2 knownLine hfirst)

end Program

end Cncpp
