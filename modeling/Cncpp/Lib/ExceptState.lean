import Cncpp.Lib.Run

/-! Rules for programs that keep their state when they throw (`EStateM`): what a
sequence that returns, or throws, has done. -/

namespace Cncpp.Lib.ExceptState

variable {ε σ α β : Type}

/-- The state a program leaves behind, whether it returns or throws. -/
def state : EStateM.Result ε σ α → σ
  | .ok _ s => s
  | .error _ s => s

@[simp] theorem state_ok (a : α) (s : σ) : state (.ok a s : EStateM.Result ε σ α) = s := rfl
@[simp] theorem state_error (e : ε) (s : σ) :
    state (.error e s : EStateM.Result ε σ α) = s := rfl

/-- The state that a program leaves when it returns. -/
def final : EStateM.Result ε σ α → Except ε σ
  | .ok _ s => .ok s
  | .error e _ => .error e

theorem final_eq_ok {r : EStateM.Result ε σ PUnit} {s : σ} : final r = .ok s ↔ r = .ok ⟨⟩ s := by
  constructor
  · intro h
    cases r with
    | ok _ t =>
      cases h
      rfl
    | error e t => cases h
  · rintro rfl
    rfl

/-- How a program comes out, apart from its state. -/
def outcome : EStateM.Result ε σ α → Except ε α
  | .ok a _ => .ok a
  | .error e _ => .error e

theorem bind_eq_ok {x : EStateM ε σ α} {f : α → EStateM ε σ β} {s s' : σ} {b : β} :
    (x >>= f).run s = .ok b s' ↔
      ∃ a t, x.run s = .ok a t ∧ (f a).run t = .ok b s' := by
  rw [EStateM.run_bind]
  cases hx : x.run s with
  | ok a t =>
    constructor
    · intro h; exact ⟨a, t, rfl, h⟩
    · rintro ⟨_, _, h, h'⟩; cases h; exact h'
  | error e t => simp

theorem bind_eq_error {x : EStateM ε σ α} {f : α → EStateM ε σ β} {s s' : σ} {e : ε} :
    (x >>= f).run s = .error e s' ↔
      x.run s = .error e s' ∨ ∃ a t, x.run s = .ok a t ∧ (f a).run t = .error e s' := by
  rw [EStateM.run_bind]
  cases hx : x.run s with
  | ok a t =>
    constructor
    · intro h; exact .inr ⟨a, t, rfl, h⟩
    · rintro (h | ⟨_, _, h, h'⟩)
      · cases h
      · cases h; exact h'
  | error e t => simp

/-! `ofExcept` runs a computation that has no state of its own. -/

@[simp] theorem ofExcept_ok (a : α) : (ofExcept (.ok a) : EStateM ε σ α) = pure a := rfl
@[simp] theorem ofExcept_error (e : ε) :
    (ofExcept (.error e) : EStateM ε σ α) = throw e := rfl

theorem ofExcept_eq_ok {x : Except ε α} {s s' : σ} {a : α} :
    (ofExcept x : EStateM ε σ α).run s = .ok a s' ↔ x = .ok a ∧ s' = s := by
  cases x with
  | ok b =>
    simp only [ofExcept_ok, EStateM.run_pure, EStateM.Result.ok.injEq, Except.ok.injEq]
    exact ⟨fun h => ⟨h.1, h.2.symm⟩, fun h => ⟨h.1, h.2.symm⟩⟩
  | error e =>
    constructor
    · intro h; cases h
    · rintro ⟨h, -⟩; cases h

theorem outcome_map (x : EStateM ε σ α) (f : α → β) (s : σ) :
    outcome ((x >>= fun a => pure (f a)).run s) = (outcome (x.run s)).map f ∧
      state ((x >>= fun a => pure (f a)).run s) = state (x.run s) := by
  rw [EStateM.run_bind]
  cases x.run s with
  | ok a t => exact ⟨rfl, rfl⟩
  | error e t => exact ⟨rfl, rfl⟩

theorem outcome_ofExcept (x : Except ε α) (s : σ) :
    outcome ((ofExcept x : EStateM ε σ α).run s) = x ∧
      state ((ofExcept x : EStateM ε σ α).run s) = s := by
  cases x with
  | ok a => exact ⟨rfl, rfl⟩
  | error e => exact ⟨rfl, rfl⟩

/-- A sequence without a state. -/
theorem except_bind_eq_ok {x : Except ε α} {f : α → Except ε β} {b : β} :
    x >>= f = .ok b ↔ ∃ a, x = .ok a ∧ f a = .ok b := by
  cases x with
  | ok a =>
    constructor
    · intro h
      exact ⟨a, rfl, h⟩
    · rintro ⟨_, h, h'⟩
      cases h
      exact h'
  | error e =>
    constructor
    · intro h
      cases h
    · rintro ⟨_, h, -⟩
      cases h

theorem mapError_eq_ok {ε' : Type} {f : ε → ε'} {x : Except ε α} {a : α} :
    x.mapError f = .ok a ↔ x = .ok a := by
  cases x with
  | ok v =>
    show Except.ok v = Except.ok a ↔ _
    rw [Except.ok.injEq, Except.ok.injEq]
  | error e => exact iff_of_false nofun nofun

@[simp] theorem run_throw (e : ε) (s : σ) :
    (throw e : EStateM ε σ α).run s = .error e s := rfl

/-! ## Programs that return -/

/-- The program returns, and what it leaves satisfies `Q`. -/
def Returns (x : EStateM ε σ α) (s : σ) (Q : α → σ → Prop) : Prop :=
  ∃ a t, x.run s = .ok a t ∧ Q a t

section Returns

variable {s : σ}

theorem Returns.of_run {x : EStateM ε σ α} {Q : α → σ → Prop} {a : α} {t : σ}
    (h : x.run s = .ok a t) (hQ : Q a t) : Returns x s Q := ⟨a, t, h, hQ⟩

theorem Returns.bind {x : EStateM ε σ α} {f : α → EStateM ε σ β} {Q : β → σ → Prop}
    (h : Returns x s fun a t => Returns (f a) t Q) : Returns (x >>= f) s Q := by
  obtain ⟨a, t, hx, b, u, hf, hQ⟩ := h
  exact ⟨b, u, bind_eq_ok.mpr ⟨a, t, hx, hf⟩, hQ⟩

theorem Returns.pure {Q : α → σ → Prop} {a : α} (h : Q a s) :
    Returns (Pure.pure a : EStateM ε σ α) s Q := ⟨a, s, rfl, h⟩

theorem Returns.get {Q : σ → σ → Prop} (h : Q s s) : Returns (MonadState.get : EStateM ε σ σ) s Q :=
  ⟨s, s, rfl, h⟩

theorem Returns.modify {f : σ → σ} {Q : Unit → σ → Prop} (h : Q () (f s)) :
    Returns (modifyThe σ f : EStateM ε σ PUnit) s Q := ⟨(), f s, rfl, h⟩

theorem Returns.mono {x : EStateM ε σ α} {Q R : α → σ → Prop} (h : Returns x s Q)
    (hQR : ∀ a t, Q a t → R a t) : Returns x s R := by
  obtain ⟨a, t, hx, hQ⟩ := h
  exact ⟨a, t, hx, hQR a t hQ⟩

end Returns

/-! ## Programs that throw only what is allowed -/

/-- From the state `s` the program throws no exception but those of `E`. -/
def Throws (E : ε → Prop) (x : EStateM ε σ α) (s : σ) : Prop :=
  ∀ e t, x.run s = .error e t → E e

section Throws

variable {E : ε → Prop} {s : σ}

theorem Throws.of_run {x : EStateM ε σ α} {a : α} {t : σ} (h : x.run s = .ok a t) :
    Throws E x s := by
  intro e u he
  rw [h] at he
  cases he

theorem Throws.pure (a : α) : Throws E (Pure.pure a : EStateM ε σ α) s := .of_run rfl

theorem Throws.get : Throws E (MonadState.get : EStateM ε σ σ) s := .of_run rfl

theorem Throws.modify (f : σ → σ) : Throws E (modifyThe σ f : EStateM ε σ PUnit) s := .of_run rfl

theorem Throws.throw {e : ε} (h : E e) : Throws E (MonadExcept.throw e : EStateM ε σ α) s := by
  intro e' t he
  cases he
  exact h

/-- What follows is judged where the first part has returned. -/
theorem Throws.bind {x : EStateM ε σ α} {f : α → EStateM ε σ β} (hx : Throws E x s)
    (hf : ∀ a t, x.run s = .ok a t → Throws E (f a) t) : Throws E (x >>= f) s := by
  intro e u h
  rcases bind_eq_error.mp h with h | ⟨a, t, h1, h2⟩
  · exact hx e u h
  · exact hf a t h1 e u h2

theorem Throws.ofExcept {x : Except ε α} (h : ∀ e, x = .error e → E e) :
    Throws E (ofExcept x : EStateM ε σ α) s := by
  cases x with
  | ok a => exact .pure a
  | error e => exact .throw (h e rfl)

end Throws

/-! ## What a program leaves alone -/

/-- Whether it returns or throws, the program keeps `π` of the state. -/
def Keeps {γ : Type} (π : σ → γ) (x : EStateM ε σ α) : Prop := ∀ s, π (state (x.run s)) = π s

section Keeps

variable {γ : Type} {π : σ → γ}

theorem Keeps.ok {x : EStateM ε σ α} (h : Keeps π x) {s t : σ} {a : α} (hx : x.run s = .ok a t) :
    π t = π s := by
  have hs := h s
  rwa [hx] at hs

theorem Keeps.error {x : EStateM ε σ α} (h : Keeps π x) {s t : σ} {e : ε}
    (hx : x.run s = .error e t) : π t = π s := by
  have hs := h s
  rwa [hx] at hs

theorem Keeps.pure (a : α) : Keeps π (Pure.pure a : EStateM ε σ α) := fun _ => rfl

theorem Keeps.get : Keeps π (MonadState.get : EStateM ε σ σ) := fun _ => rfl

theorem Keeps.throw (e : ε) : Keeps π (MonadExcept.throw e : EStateM ε σ α) := fun _ => rfl

theorem Keeps.modify {f : σ → σ} (h : ∀ s, π (f s) = π s) :
    Keeps π (modifyThe σ f : EStateM ε σ PUnit) := h

theorem Keeps.ofExcept (x : Except ε α) : Keeps π (ofExcept x : EStateM ε σ α) := by
  intro s
  cases x <;> rfl

theorem Keeps.bind {x : EStateM ε σ α} {f : α → EStateM ε σ β} (hx : Keeps π x)
    (hf : ∀ a, Keeps π (f a)) : Keeps π (x >>= f) := by
  intro s
  rw [EStateM.run_bind]
  cases h : x.run s with
  | ok a t =>
    have ht := hx.ok h
    exact (hf a t).trans ht
  | error e t => exact hx.error h

end Keeps

/-! ## Loops -/

/-- The pass of a loop for `a` returns. -/
def Passes {γ : Type} (f : γ → EStateM ε σ PUnit) (a : γ) (s t : σ) : Prop :=
  (f a).run s = .ok ⟨⟩ t

section Loops

variable {γ : Type} {f : γ → EStateM ε σ PUnit} {l : List γ} {s t : σ}

theorem run_forM_cons (a : γ) :
    ((a :: l).forM f).run s = (f a >>= fun _ => l.forM f).run s := rfl

/-- A loop that returns has made its passes in order. -/
theorem forM_eq_ok : (l.forM f).run s = .ok ⟨⟩ t ↔ Run (Passes f) s l t := by
  induction l generalizing s with
  | nil =>
    constructor
    · intro h
      cases h
      exact .nil _
    · intro h
      cases h
      rfl
  | cons a l ih =>
    rw [run_forM_cons, bind_eq_ok]
    constructor
    · rintro ⟨_, u, ha, hl⟩
      exact .cons ha (ih.mp hl)
    · intro h
      cases h with
      | cons ha hl => exact ⟨_, _, ha, ih.mpr hl⟩

/-- A loop that throws does so in one of its passes, behind the earlier ones. -/
theorem forM_eq_error {e : ε} : (l.forM f).run s = .error e t ↔
    ∃ pre a post u, l = pre ++ a :: post ∧ Run (Passes f) s pre u ∧ (f a).run u = .error e t := by
  induction l generalizing s with
  | nil =>
    constructor
    · intro h
      cases h
    · rintro ⟨pre, _, _, _, h, -⟩
      cases pre <;> cases h
  | cons b l ih =>
    rw [run_forM_cons, bind_eq_error]
    constructor
    · rintro (h | ⟨_, u, hb, hl⟩)
      · exact ⟨[], b, l, s, rfl, .nil s, h⟩
      · obtain ⟨pre, a, post, v, rfl, hpre, ha⟩ := ih.mp hl
        exact ⟨b :: pre, a, post, v, rfl, .cons hb hpre, ha⟩
    · rintro ⟨pre, a, post, v, h, hpre, ha⟩
      cases pre with
      | nil =>
        cases h
        cases hpre
        exact .inl ha
      | cons c pre =>
        obtain ⟨rfl, rfl⟩ := List.cons_eq_cons.mp h
        cases hpre with
        | cons hb hpre => exact .inr ⟨_, _, hb, ih.mpr ⟨pre, a, post, v, rfl, hpre, ha⟩⟩

end Loops

end Cncpp.Lib.ExceptState
