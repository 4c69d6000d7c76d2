import Cncpp.Loading

/-! What a parsed block depends on: the words of its line, and of the block before it the
target and the modal state.  Its identity, the rest of the line, its own number and its
place in the list do not matter. -/

namespace Cncpp

open DataArith Lib Lib.ExceptState

namespace Block

variable {K : Type}

/-- The data of `b` in the place of `o`: its identity, line, number and links. -/
def as (b o : Block K) : Block K :=
  { b with addr := o.addr, line := o.line, n := o.n, prev := o.prev, next := o.next }

variable [DataArith K] {m : Machine K} {prev prev' : Option (Block K)} {b c o : Block K}

theorem ArcCenter.as {x0 y0 xf yf r xc yc : K} (h : ArcCenter m b x0 y0 xf yf r xc yc) :
    ArcCenter m (b.as o) x0 y0 xf yf r xc yc := by
  cases h with
  | radius hr hx hy => exact .radius hr hx hy
  | center hr he => exact .center hr he

theorem calcArc_as (ho : origin m prev' = origin m prev) (h : (calcArc m prev).run b = .ok () c) :
    (calcArc m prev').run (b.as o) = .ok () (c.as o) := by
  obtain ⟨x0, y0, z0, xf, yf, zf, r, xc, yc, hp, ht, hc, hn, hi, rfl⟩ := calcArc_iff.mp h
  obtain ⟨hm, h0⟩ := startPoint_eq_ok.mp hp
  have hp' : (b.as o).startPoint m prev' = .ok (.ofCoords x0 y0 z0) :=
    startPoint_eq_ok.mpr ⟨hm, ho.trans h0⟩
  exact calcArc_iff.mpr ⟨x0, y0, z0, xf, yf, zf, r, xc, yc, hp', ht, hc.as, hn, hi, rfl⟩

theorem Planned.as (ho : origin m prev' = origin m prev) (h : Planned m prev b c) :
    Planned m prev' (b.as o) (c.as o) := by
  cases h with
  | line ht => exact .line ht
  | @arc d ht hc =>
    have hc' : (calcArc m prev').run (b.as o) = .ok () (d.as o) := calcArc_as ho hc
    exact .arc (b := b.as o) ht hc'
  | other hl hc hcc => exact .other hl hc hcc

/-- A block whose words have the same effect, and with the same start, is parsed to the same
data. -/
theorem Parsed.as_of_words (hm : ∀ t ∈ commands o.line, t ∈ commands b.line)
    (hu : ∀ d : Block K, updateAll (commands o.line) d = updateAll (commands b.line) d)
    (ho : origin m prev' = origin m prev)
    (hn : ∀ p ∈ prev', ∀ t ∈ commands b.line, ∀ n ∈ sizeWord 'N' t, p.n < n)
    (h : Parsed m prev b c) : Parsed m prev' (b.as o)
      (c.as { o with n := (lastOf (sizeWord 'N') (commands b.line)).getD o.n }) := by
  obtain ⟨hw, -, x0, y0, z0, b2, h0, hp, rfl⟩ := h
  refine ⟨fun t ht => hw t (hm t ht), fun p hp t ht => hn p hp t (hm t ht), x0, y0, z0, b2.as { o with
    n := (lastOf (sizeWord 'N') (commands b.line)).getD o.n }, ho.trans h0, ?_, rfl⟩
  show Planned m prev' (fill m x0 y0 z0 (updateAll (commands o.line) (b.as o).attach)) _
  rw [hu]
  exact hp.as ho

/-- A block with the same words and the same start is parsed to the same data. -/
theorem Parsed.as (hl : commands o.line = commands b.line) (ho : origin m prev' = origin m prev)
    (hn : ∀ p ∈ prev', ∀ t ∈ commands b.line, ∀ n ∈ sizeWord 'N' t, p.n < n)
    (h : Parsed m prev b c) : Parsed m prev' (b.as o)
      (c.as { o with n := (lastOf (sizeWord 'N') (commands b.line)).getD o.n }) :=
  h.as_of_words (fun _ ht => hl ▸ ht) (fun _ => by rw [hl]) ho hn

end Block

end Cncpp
