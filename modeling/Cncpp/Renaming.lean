import Cncpp.Independence

/-! A program at other addresses.  The addresses of the nodes decide nothing that `parse` or
the constructors do, so a program that starts from the empty list does not depend on what was
in the list before. -/

namespace Cncpp

open DataArith Lib Lib.ExceptState

variable {K : Type}

/-- The same block at another address, with its pointers moved along. -/
def Block.rename (f : Addr → Addr) (b : Block K) : Block K :=
  { b with addr := f b.addr, prev := b.prev.map f, next := b.next.map f }

/-- The same program with its nodes at other addresses. -/
def Program.rename (f : Addr → Addr) (p : Program K) : Program K :=
  { p with blocks := p.blocks.map (Block.rename f), current := p.current.map f, fresh := f p.fresh }

namespace Program

variable {f : Addr → Addr} {p : Program K}

theorem linked_rename : (p.rename f).linked = p.linked.map (Block.rename f) := by
  rw [linked, linked, rename, List.getLast?_map, Option.map_map, Option.map_map]
  rfl

theorem front_rename : (p.rename f).front = p.front.map (Block.rename f) := by
  rw [front, front, linked_rename, List.map_append]
  refine congrArg₂ (· ++ ·) ?_ ?_
  · rw [rename, List.map_dropLast]
  · cases p.linked <;> rfl

end Program

variable [DataArith K] {m : Machine K} {f : Addr → Addr}

namespace Block

variable {prev : Option (Block K)} {b c : Block K}

theorem start_rename (a : Addr) (line : Line) :
    start (f a) line (prev.map (rename f)) = (start a line prev).rename f := by
  cases prev <;> rfl

/-- `parse` does the same at any addresses. -/
theorem Parsed.rename (h : Parsed m prev b c) :
    Parsed m (prev.map (Block.rename f)) (b.rename f) (c.rename f) := by
  have ho : origin m (prev.map (Block.rename f)) = origin m prev := by cases prev <;> rfl
  have hn : ∀ p ∈ prev.map (Block.rename f), ∀ t ∈ commands b.line, ∀ n ∈ sizeWord 'N' t, p.n < n := by
    intro p hp
    obtain ⟨o, ho, rfl⟩ := Option.mem_map.mp hp
    exact h.number o ho
  have has := Parsed.as (b := b) (o := b.rename f) rfl ho hn h
  obtain ⟨_, _, _, _, _, _, _, _, _, _, -, rfl⟩ := h.frame
  exact has

end Block

namespace Program

variable {p q r : Program K} {line : Line} {lines : List Line}

theorem accepted_rename (hf : f (p.fresh + 1) = f p.fresh + 1) (ha : Accepted m line p q) :
    Accepted m line (p.rename f) (q.rename f) := by
  obtain ⟨hpar, c, hc, rfl⟩ := accepted_iff.mp ha
  refine accepted_iff.mpr ⟨fun o ho => ?_, c.rename f, ?_, ?_⟩
  · rw [rename, List.getLast?_map] at ho
    obtain ⟨b, hb, rfl⟩ := Option.mem_map.mp ho
    exact hpar b hb
  · have hc' := hc.rename (f := f)
    rw [← Block.start_rename, ← linked_rename, ← List.getLast?_map] at hc'
    exact hc'
  · rw [front_rename]
    simp only [rename, List.map_append, List.map_singleton, hf]

/-- The addresses of a run can be changed as long as new ones are still taken in order. -/
theorem lines_rename (hr : Run (Accepted m) p lines q)
    (hf : ∀ a, p.fresh ≤ a → f (a + 1) = f a + 1) :
    Run (Accepted m) (p.rename f) lines (q.rename f) := by
  induction hr with
  | nil p => exact .nil _
  | cons ha _ ih =>
    refine .cons (accepted_rename (hf _ (Nat.le_refl _)) ha) (ih fun a hle => hf a ?_)
    obtain ⟨-, c, -, rfl⟩ := accepted_iff.mp ha
    exact (Nat.le_succ _).trans hle

theorem accepted_unique (h : Accepted m line p q) (h' : Accepted m line p r) : q = r := by
  have he := Eq.trans (Eq.symm h) h'
  cases he
  rfl

/-- Reloading forgets the past: whatever the program was, a file is loaded exactly when a new
program can load it, and the result is the same at other addresses. -/
theorem reload_forgets (p q : Program K) (file : String) (lines : List Line) :
    (load m file (some lines) false).run p = .ok () q ↔
      ∃ q0, (load m file (some lines) false).run empty = .ok () q0 ∧
        q = q0.rename (· + p.fresh) := by
  have hload : ∀ p q : Program K, (load m file (some lines) false).run p = .ok () q ↔
      Run (Accepted m) ⟨[], file, none, false, p.fresh⟩ (lines.filter isCode) q := by
    intro p q
    rw [load_iff]
    exact ⟨fun ⟨_, hl, hr⟩ => Option.some.inj hl ▸ hr, fun hr => ⟨lines, rfl, hr⟩⟩
  -- the empty list of the one program is the empty list of the other, moved
  have hmove : (⟨[], file, none, false, p.fresh⟩ : Program K) =
      rename (· + p.fresh) ⟨[], file, none, false, 0⟩ := by
    rw [rename, Nat.zero_add]
    rfl
  have hback : (⟨[], file, none, false, 0⟩ : Program K) =
      rename (· - p.fresh) ⟨[], file, none, false, p.fresh⟩ := by
    rw [rename, Nat.sub_self]
    rfl
  have hforth : ∀ q0, Run (Accepted m) ⟨[], file, none, false, 0⟩ (lines.filter isCode) q0 →
      Run (Accepted m) ⟨[], file, none, false, p.fresh⟩ (lines.filter isCode)
        (q0.rename (· + p.fresh)) := by
    intro q0 hr
    rw [hmove]
    exact lines_rename hr fun a _ => Nat.add_right_comm a 1 p.fresh
  rw [hload p q]
  constructor
  · intro hr
    have h0 := lines_rename (f := (· - p.fresh)) hr fun a hle => Nat.sub_add_comm hle
    rw [← hback] at h0
    refine ⟨_, (hload empty _).mpr h0, ?_⟩
    exact hr.unique (R := Accepted m) (fun _ _ _ _ ha ha' => accepted_unique ha ha') (hforth _ h0)
  · rintro ⟨q0, h0, rfl⟩
    exact hforth q0 ((hload empty q0).mp h0)

end Program

end Cncpp
