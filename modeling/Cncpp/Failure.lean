import Cncpp.Independence

/-! What a failed parse leaves behind: a block in its place in the list, which is not
parsed. -/

namespace Cncpp

open DataArith Lib Lib.ExceptState

variable {K : Type} [DataArith K]

namespace Block

/-- The place of a block in the list, and whether it is parsed. -/
def place (b : Block K) : Addr × Line × Option Addr × Option Addr × Bool :=
  (b.addr, b.line, b.prev, b.next, b.parsed)

variable {m : Machine K} {prev : Option (Block K)}

omit [DataArith K] in
theorem keeps_store {α : Type} (x : Except (Exn K) α) (f : α → Block K → Block K)
    (hf : ∀ v b, (f v b).place = b.place) :
    Keeps place (do let v ← ofExcept x; modify (f v); pure true : BlockM K Bool) :=
  .bind (.ofExcept x) fun v => .bind (.modify (hf v)) fun _ => .pure true

theorem keeps_token (t : Token) : Keeps place (parseToken prev t) := by
  unfold parseToken
  dsimp only
  split
  · exact .pure false
  split
  · exact .throw _
  split
  case h_1 =>
    refine .bind (.ofExcept _) fun v => .bind (.modify fun _ => rfl) fun _ => ?_
    cases prev with
    | none => exact keeps_store _ _ fun _ _ => rfl
    | some p =>
      dsimp only
      split
      · exact .throw _
      · exact keeps_store _ _ fun _ _ => rfl
  all_goals first
    | exact keeps_store _ _ fun _ _ => rfl
    | exact .throw _

theorem keeps_tokens (line : Line) (ts : List Token) : Keeps place (parseTokens prev line ts) := by
  induction ts with
  | nil => exact .pure ()
  | cons t ts ih =>
    intro b
    rw [parseTokens_cons]
    split
    · next h => exact (keeps_token t).error h
    · next h => exact (keeps_token t).ok h
    · next h => exact (ih _).trans ((keeps_token t).ok h)

theorem keeps_fillTarget : Keeps place (fillTarget m prev) :=
  .bind .get fun _ => .bind (.ofExcept _) fun _ => .bind (.modify fun _ => rfl) fun _ =>
    .bind (.ofExcept _) fun _ => .bind (.modify fun _ => rfl) fun _ => .bind (.ofExcept _) fun _ =>
      .modify fun _ => rfl

theorem keeps_arcCenter (x0 y0 xf yf : K) : Keeps place (arcCenter m x0 y0 xf yf) := by
  refine .bind .get fun b => ?_
  split
  · exact .bind (.ofExcept _) fun _ => .bind (.ofExcept _) fun _ => .pure _
  · refine .bind (.modify fun _ => rfl) fun _ => ?_
    dsimp only
    split
    · exact .throw _
    · exact .pure _

theorem keeps_calcArc : Keeps place (calcArc m prev) := by
  refine .bind .get fun b => .bind (.ofExcept _) fun p0 => .bind (.ofExcept _) fun x0 =>
    .bind (.ofExcept _) fun y0 => .bind (.ofExcept _) fun _ => .bind (.ofExcept _) fun xf =>
    .bind (.ofExcept _) fun yf => .bind (.ofExcept _) fun _ =>
    .bind (keeps_arcCenter x0 y0 xf yf) fun c => .bind (.modify fun _ => rfl) fun _ =>
    .bind .get fun b => ?_
  split
  · exact .throw _
  · exact .pure _

theorem keeps_calcProfile : Keeps place (calcProfile m prev) := by
  refine .bind .get fun b => ?_
  split
  · exact .modify fun _ => rfl
  · split
    · exact .bind keeps_calcArc fun _ => .modify fun _ => rfl
    · exact .pure _

/-- A parse that throws leaves the block where it was, and not parsed. -/
theorem place_of_error {b b' : Block K} {e : Exn K} (h : (parse m prev).run b = .error e b') :
    b'.place = b.place := by
  unfold parse at h
  rcases bind_eq_error.mp h with h | ⟨_, _, hm, h⟩
  · cases h
  cases hm
  rcases bind_eq_error.mp h with h | ⟨_, _, hg, h⟩
  · cases h
  cases hg
  have hb : place b.attach = b.place := rfl
  rcases bind_eq_error.mp h with h | ⟨_, b1, htok, h⟩
  · have h0 := (keeps_tokens _ _).error h
    exact h0.trans hb
  have h1 := (keeps_tokens _ _).ok htok
  rcases bind_eq_error.mp h with h | ⟨_, b2, hf, h⟩
  · exact (keeps_fillTarget.error h).trans (h1.trans hb)
  have h2 := (keeps_fillTarget.ok hf).trans (h1.trans hb)
  rcases bind_eq_error.mp h with h | ⟨_, b3, hp, h⟩
  · exact (keeps_calcProfile.error h).trans h2
  · cases h

end Block

namespace Program

variable {m : Machine K} {p p' : Program K} {line : Line}

/-- A line that `parse` refuses stays at the back, in a block that is not parsed. -/
theorem append_refused (h : ∀ o ∈ p.blocks.getLast?, o.parsed = true)
    (hp : ¬ ∃ c, Block.Parsed m p.linked (Block.start p.fresh line p.blocks.getLast?) c) :
    ∃ e b, (append m line).run p = .error e { p with blocks := p.front ++ [b], fresh := p.fresh + 1 } ∧
      b.place = (Block.start (K := K) p.fresh line p.blocks.getLast?).place := by
  rw [append_run h]
  cases hr : (Block.parse m p.linked).run (Block.start p.fresh line p.blocks.getLast?) with
  | ok _ c => exact absurd ⟨c, Block.parse_iff.mp hr⟩ hp
  | error e b =>
    refine ⟨e, b, ?_, Block.place_of_error hr⟩
    rw [run_parseBack, hr]

end Program

end Cncpp
