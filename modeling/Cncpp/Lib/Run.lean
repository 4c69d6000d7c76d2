import Mathlib.Data.List.Basic

/-! Labelled runs: finite sequences of labelled steps of a relation, the rule
that carries an invariant along a run, and the rule for a component that every
step either overwrites or leaves alone. -/

namespace Cncpp.Lib

/-- `Run R s l t`: the labels `l`, in order, lead from `s` to `t`. -/
inductive Run {σ ι : Type*} (R : ι → σ → σ → Prop) : σ → List ι → σ → Prop
  | nil (s : σ) : Run R s [] s
  | cons {a : ι} {s t u : σ} {l : List ι} : R a s t → Run R t l u → Run R s (a :: l) u

namespace Run

variable {σ ι : Type*} {R : ι → σ → σ → Prop}

theorem single {a : ι} {s t : σ} (h : R a s t) : Run R s [a] t := .cons h (.nil t)

theorem of_single {a : ι} {s t : σ} (h : Run R s [a] t) : R a s t := by
  cases h with
  | cons hs hr =>
    cases hr
    exact hs

theorem append {s t u : σ} {l l' : List ι} (h : Run R s l t) (h' : Run R t l' u) :
    Run R s (l ++ l') u := by
  induction h with
  | nil s => exact h'
  | cons hs _ ih => exact .cons hs (ih h')

theorem append_split {s u : σ} {l l' : List ι} (h : Run R s (l ++ l') u) :
    ∃ t, Run R s l t ∧ Run R t l' u := by
  induction l generalizing s with
  | nil => exact ⟨s, .nil s, h⟩
  | cons a l ih =>
    cases h with
    | cons hs hr =>
      obtain ⟨t, h1, h2⟩ := ih hr
      exact ⟨t, .cons hs h1, h2⟩

theorem mono {R' : ι → σ → σ → Prop} (hR : ∀ a s t, R a s t → R' a s t) {s t : σ} {l : List ι}
    (h : Run R s l t) : Run R' s l t := by
  induction h with
  | nil s => exact .nil s
  | cons hs _ ih => exact .cons (hR _ _ _ hs) ih

/-- A run that leaves `P` can be split where it does so first. -/
theorem exists_exit (P : σ → Prop) {s t : σ} {l : List ι} (h : Run R s l t) (hs : P s)
    (ht : ¬ P t) : ∃ l₁ u l₂, l = l₁ ++ l₂ ∧ l₁ ≠ [] ∧
      Run (fun a v w => P v ∧ R a v w) s l₁ u ∧ ¬ P u ∧ Run R u l₂ t := by
  induction h with
  | nil s => exact absurd hs ht
  | @cons a s u t l ha hr ih =>
    by_cases hu : P u
    · obtain ⟨l₁, v, l₂, rfl, -, h₁, hv, h₂⟩ := ih hu ht
      exact ⟨a :: l₁, v, l₂, rfl, List.cons_ne_nil a l₁, .cons ⟨hs, ha⟩ h₁, hv, h₂⟩
    · exact ⟨[a], u, l, rfl, List.cons_ne_nil a [], .single ⟨hs, ha⟩, hu, hr⟩

/-- Steps that are determined by their labels make runs that are. -/
theorem unique (hR : ∀ a s t u, R a s t → R a s u → t = u) {s t u : σ} {l : List ι}
    (h : Run R s l t) (h' : Run R s l u) : t = u := by
  induction h with
  | nil s =>
    cases h'
    rfl
  | cons hs _ ih =>
    cases h' with
    | cons hs' h' =>
      obtain rfl := hR _ _ _ _ hs hs'
      exact ih h'

/-- The invariant rule.  The labels of the run may be assumed to satisfy `P`. -/
theorem invariant_of (P : ι → Prop) (I : σ → Prop)
    (hstep : ∀ a s t, P a → I s → R a s t → I t) {s t : σ} {l : List ι}
    (h : Run R s l t) (hl : ∀ a ∈ l, P a) (hs : I s) : I t := by
  induction h with
  | nil s => exact hs
  | cons h _ ih =>
    exact ih (fun a ha => hl a (List.mem_cons_of_mem _ ha))
      (hstep _ _ _ (hl _ (List.mem_cons_self ..)) hs h)

theorem invariant (I : σ → Prop) (hstep : ∀ a s t, I s → R a s t → I t) {s t : σ}
    {l : List ι} (h : Run R s l t) (hs : I s) : I t :=
  h.invariant_of (fun _ => True) I (fun a s t _ => hstep a s t) (fun _ _ => trivial) hs

/-- Every step of a run is taken from a state that satisfies the invariant. -/
theorem invariant_at (P : ι → Prop) (I : σ → Prop)
    (hstep : ∀ a s t, P a → I s → R a s t → I t) {s t : σ} {l : List ι}
    (h : Run R s l t) (hl : ∀ a ∈ l, P a) (hs : I s) {a : ι} (ha : a ∈ l) :
    ∃ u v, I u ∧ R a u v := by
  induction h with
  | nil s => cases ha
  | @cons b s t u l h _ ih =>
    rcases List.mem_cons.mp ha with rfl | hm
    · exact ⟨s, t, hs, h⟩
    · exact ih (fun a ha => hl a (List.mem_cons_of_mem _ ha))
        (hstep _ _ _ (hl _ (List.mem_cons_self ..)) hs h) hm

/-- Every label of a run is the label of a step. -/
theorem step_of_mem {s t : σ} {l : List ι} (h : Run R s l t) {a : ι} (ha : a ∈ l) :
    ∃ u v, R a u v := by
  obtain ⟨u, v, -, hs⟩ := h.invariant_at (fun _ => True) (fun _ => True)
    (fun _ _ _ _ _ _ => trivial) (fun _ _ => trivial) trivial ha
  exact ⟨u, v, hs⟩

/-- The existence rule.  `I l s` is what lets the labels `l` be taken from `s`. -/
theorem exists_of (I : List ι → σ → Prop)
    (hstep : ∀ a l s, I (a :: l) s → ∃ t, R a s t ∧ I l t) {l : List ι} {s : σ} (hs : I l s) :
    ∃ t, Run R s l t := by
  induction l generalizing s with
  | nil => exact ⟨s, .nil s⟩
  | cons a l ih =>
    obtain ⟨t, ha, ht⟩ := hstep a l s hs
    obtain ⟨u, hr⟩ := ih ht
    exact ⟨u, .cons ha hr⟩

/-- The countdown rule.  `I j r` is what holds after `j` steps, when `r` more are needed: if
the next one can always be taken, whatever is read with it, the run can be carried through,
and the invariant holds on the way. -/
theorem exists_countdown {κ : Type*} (input : ι → κ) (P : κ → Prop) (I : ℕ → ℕ → σ → Prop)
    (hstep : ∀ j r s k, P k → I j (r + 1) s → ∃ a t, R a s t ∧ input a = k ∧ I (j + 1) r t)
    {ks : List κ} {j : ℕ} {s : σ} (hk : ∀ k ∈ ks, P k) (hs : I j ks.length s) :
    ∃ l t, Run R s l t ∧ l.map input = ks ∧ I (j + ks.length) 0 t ∧
      ∀ pre a post, l = pre ++ a :: post → ∃ r u v, I (j + pre.length) (r + 1) u ∧ R a u v := by
  induction ks generalizing j s with
  | nil =>
    refine ⟨[], s, .nil s, rfl, hs, fun pre a post h => ?_⟩
    cases pre <;> cases h
  | cons k ks ih =>
    obtain ⟨a, u, ha, hin, hu⟩ := hstep j ks.length s k (hk k (by simp)) hs
    obtain ⟨l, t, hr, hmap, ht, hall⟩ := ih (fun k' hk' => hk k' (List.mem_cons_of_mem _ hk')) hu
    refine ⟨a :: l, t, .cons ha hr, by rw [List.map_cons, hin, hmap], ?_, fun pre b post h => ?_⟩
    · rw [List.length_cons, Nat.add_comm ks.length, ← Nat.add_assoc]
      exact ht
    · cases pre with
      | nil =>
        cases h
        exact ⟨ks.length, s, u, hs, ha⟩
      | cons c pre =>
        obtain ⟨rfl, rfl⟩ := List.cons_eq_cons.mp h
        obtain ⟨r, v, w, hv, hb⟩ := hall pre b post rfl
        refine ⟨r, v, w, ?_, hb⟩
        rw [List.length_cons, Nat.add_comm pre.length, ← Nat.add_assoc]
        exact hv

/-- A run uses up a count.  `I j r` is what holds after `j` steps, when `r` more are left, and with
none left there is no step. -/
theorem countdown (P : ι → Prop) (I : ℕ → ℕ → σ → Prop)
    (hstep : ∀ j r a s t, P a → I j (r + 1) s → R a s t → I (j + 1) r t)
    (hend : ∀ j a s t, P a → I j 0 s → ¬ R a s t) {s t : σ} {l : List ι} (h : Run R s l t)
    (hl : ∀ a ∈ l, P a) {j r : ℕ} (hs : I j r s) :
    ∃ r', l.length + r' = r ∧ I (j + l.length) r' t := by
  induction h generalizing j r with
  | nil s => exact ⟨r, Nat.zero_add r, hs⟩
  | @cons a s t u l ha _ ih =>
    have hPa := hl a (List.mem_cons_self ..)
    cases r with
    | zero => exact absurd ha (hend j a s t hPa hs)
    | succ r =>
      obtain ⟨r', hlen, hu⟩ := ih (fun b hb => hl b (List.mem_cons_of_mem _ hb))
        (hstep j r a s t hPa hs ha)
      refine ⟨r', by rw [List.length_cons]; omega, ?_⟩
      rw [List.length_cons, Nat.add_comm l.length 1, ← Nat.add_assoc]
      exact hu

end Run

/-! ## Last writer wins -/

/-- The last value that `f` finds in `l`. -/
def lastOf {α β : Type*} (f : α → Option β) (l : List α) : Option β :=
  (l.filterMap f).getLast?

section Last

variable {α β : Type*} (f : α → Option β)

@[simp] theorem lastOf_nil : lastOf f [] = none := rfl

theorem lastOf_append (l l' : List α) :
    lastOf f (l ++ l') = (lastOf f l').or (lastOf f l) := by
  simp [lastOf, List.filterMap_append, List.getLast?_append]

theorem lastOf_cons (a : α) (l : List α) : lastOf f (a :: l) = (lastOf f l).or (f a) := by
  rw [← List.singleton_append, lastOf_append]
  cases h : f a <;> simp [lastOf, h]

theorem lastOf_eq_none {l : List α} (h : ∀ a ∈ l, f a = none) : lastOf f l = none := by
  have hn : l.filterMap f = [] := List.filterMap_eq_nil_iff.mpr h
  simp [lastOf, hn]

theorem lastOf_congr {f g : α → Option β} {l : List α} (h : ∀ a ∈ l, f a = g a) :
    lastOf f l = lastOf g l := by
  rw [lastOf, lastOf, List.filterMap_congr h]

/-- The order does not matter where at most one element has a value. -/
theorem lastOf_perm {l l' : List α} (hp : l.Perm l') (h : (l.filterMap f).length ≤ 1) :
    lastOf f l = lastOf f l' := by
  have hf : (l.filterMap f).Perm (l'.filterMap f) := hp.filterMap f
  rw [lastOf, lastOf]
  rcases Nat.le_one_iff_eq_zero_or_eq_one.mp h with h0 | h1
  · rw [List.length_eq_zero_iff.mp h0] at hf ⊢
    rw [hf.nil_eq]
  · obtain ⟨b, hb⟩ := List.length_eq_one_iff.mp h1
    rw [hb] at hf ⊢
    rw [List.singleton_perm.mp hf]

/-- Of elements with different keys at most one has a value that goes with the key `k`. -/
theorem length_filterMap_le_one {κ : Type*} (key : α → κ) {k : κ}
    (hf : ∀ a, key a ≠ k → f a = none) {l : List α} (hd : (l.map key).Nodup) :
    (l.filterMap f).length ≤ 1 := by
  induction l with
  | nil => exact Nat.zero_le 1
  | cons a l ih =>
    rw [List.map_cons, List.nodup_cons] at hd
    cases hv : f a with
    | none =>
      rw [List.filterMap_cons_none hv]
      exact ih hd.2
    | some v =>
      have hk : key a = k := by
        by_contra hne
        rw [hf a hne] at hv
        cases hv
      have hnone : ∀ b ∈ l, f b = none := fun b hb => hf b fun hb' =>
        hd.1 (List.mem_map.mpr ⟨b, hb, hb'.trans hk.symm⟩)
      rw [List.filterMap_cons_some hv, List.filterMap_eq_nil_iff.mpr hnone]
      exact Nat.le_refl 1

/-- Elements without a value can be left out. -/
theorem lastOf_filter {p : α → Bool} (hp : ∀ a, p a = false → f a = none) (l : List α) :
    lastOf f (l.filter p) = lastOf f l := by
  induction l with
  | nil => rfl
  | cons a l ih =>
    rw [lastOf_cons]
    cases h : p a
    · rw [List.filter_cons_of_neg (by simp [h]), ih, hp a h, Option.or_none]
    · rw [List.filter_cons_of_pos h, lastOf_cons, ih]

/-- Where only one element has a value, that is the last one. -/
theorem lastOf_ite [DecidableEq α] (a : α) (v : Option β) (l : List α) :
    lastOf (fun b => if b = a then v else none) l = if a ∈ l then v else none := by
  induction l with
  | nil => rfl
  | cons b l ih =>
    rw [lastOf_cons, ih]
    by_cases hb : b = a
    · subst hb
      by_cases hl : b ∈ l <;> simp [hl]
    · have hne : a ≠ b := fun h => hb h.symm
      by_cases hl : a ∈ l <;> simp [hb, hne, hl]

theorem lastOf_map {γ : Type*} (g : β → γ) (l : List α) :
    lastOf (fun a => (f a).map g) l = (lastOf f l).map g := by
  induction l with
  | nil => rfl
  | cons a l ih => simp [lastOf_cons, ih, Option.map_or]

/-- A component that each step overwrites with `f a`, or leaves alone where
`f a` is `none`, ends a run with the last value written. -/
theorem Run.last {σ : Type*} {R : α → σ → σ → Prop} (π : σ → β)
    (hstep : ∀ a s t, R a s t → π t = (f a).getD (π s)) {s t : σ} {l : List α}
    (h : Run R s l t) : π t = (lastOf f l).getD (π s) := by
  induction h with
  | nil s => rfl
  | cons hs _ ih =>
    rw [ih, hstep _ _ _ hs, lastOf_cons]
    cases lastOf f _ <;> simp

end Last

end Cncpp.Lib
