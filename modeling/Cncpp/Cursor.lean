import Cncpp.Modal

/-! The list of blocks as a program run walks it: nodes with distinct addresses, each
linked to the one before it, and a cursor that moves from one to the next. -/

namespace Cncpp

open DataArith Lib Lib.ExceptState

variable {K : Type}

/-- The blocks of a program: each has a new address, and points to the one before it. -/
inductive Chain : List (Block K) → Prop
  | nil : Chain []
  | snoc {bs : List (Block K)} {c : Block K} : Chain bs → (∀ b ∈ bs, b.addr ≠ c.addr) →
      c.prev = bs.getLast?.map (·.addr) → Chain (bs ++ [c])

namespace Chain

variable {bs : List (Block K)} {i : ℕ} {b c : Block K}

theorem nodup (h : Chain bs) : (bs.map (·.addr)).Nodup := by
  induction h with
  | nil => exact List.nodup_nil
  | @snoc bs c _ hne _ ih =>
    rw [List.map_append, List.map_singleton, ← List.concat_eq_append, List.nodup_concat]
    refine ⟨fun hm => ?_, ih⟩
    obtain ⟨b, hb, ha⟩ := List.mem_map.mp hm
    exact hne b hb ha

/-- The pointer of a block leads to the block before it. -/
theorem prev_eq (h : Chain bs) (hb : bs[i]? = some b) :
    b.prev = if i = 0 then none else bs[i - 1]?.map (·.addr) := by
  induction h with
  | nil => cases hb
  | @snoc bs c _ _ hp ih =>
    rcases Nat.lt_trichotomy i bs.length with hi | rfl | hi
    · rw [List.getElem?_append_left hi] at hb
      rw [List.getElem?_append_left (by omega)]
      exact ih hb
    · rw [List.getElem?_concat_length] at hb
      cases hb
      rw [hp]
      cases bs with
      | nil => rfl
      | cons d ds =>
        rw [if_neg (by simp), List.getElem?_append_left (by simp), List.getLast?_eq_getElem?]
    · rw [List.getElem?_eq_none (by simp; omega)] at hb
      cases hb

/-- A block is found at one place only. -/
theorem index_eq (h : Chain bs) {j : ℕ} (hb : bs[i]? = some b) (hc : bs[j]? = some c)
    (ha : b.addr = c.addr) : i = j := by
  obtain ⟨hi, rfl⟩ := List.getElem?_eq_some_iff.mp hb
  obtain ⟨hj, rfl⟩ := List.getElem?_eq_some_iff.mp hc
  have hnd := h.nodup
  rw [List.nodup_iff_injective_getElem] at hnd
  have := @hnd ⟨i, by simpa using hi⟩ ⟨j, by simpa using hj⟩ (by simpa using ha)
  exact congrArg Fin.val this

/-- Only the addresses and the pointers matter. -/
theorem relink (h : Chain (bs ++ [b])) (ha : c.addr = b.addr) (hp : c.prev = b.prev) :
    Chain (bs ++ [c]) := by
  generalize hl : bs ++ [b] = l at h
  cases h with
  | nil => simp at hl
  | snoc h hne hprev =>
    obtain ⟨rfl, hbc⟩ := List.append_inj' hl rfl
    cases hbc
    exact .snoc h (fun d hd => ha ▸ hne d hd) (hp.trans hprev)

end Chain

/-- A node before a block has another address. -/
theorem ne_addr_of_get {d b : Block K} {ds : List (Block K)} {i : ℕ}
    (hd : d.addr ∉ ds.map (·.addr)) (hb : ds[i]? = some b) : d.addr ≠ b.addr := by
  intro he
  exact hd (List.mem_map.mpr ⟨b, List.mem_of_getElem? hb, he.symm⟩)

/-- The node at the address of a block is the block. -/
theorem find_of_get {bs : List (Block K)} {i : ℕ} {b : Block K} (h : (bs.map (·.addr)).Nodup)
    (hb : bs[i]? = some b) : bs.find? (·.addr == b.addr) = some b := by
  induction bs generalizing i with
  | nil => cases hb
  | cons d ds ih =>
    obtain ⟨hd, hds⟩ := List.nodup_cons.mp h
    cases i with
    | zero =>
      cases hb
      simp
    | succ i =>
      have hne : d.addr ≠ b.addr := ne_addr_of_get hd hb
      rw [List.find?_cons_of_neg (by simpa using hne)]
      exact ih hds hb

/-- The node after the one at the address of a block. -/
theorem after_of_get {bs : List (Block K)} {i : ℕ} {b : Block K} (h : (bs.map (·.addr)).Nodup)
    (hb : bs[i]? = some b) : Program.after b.addr bs = bs[i + 1]?.map (·.addr) := by
  induction bs generalizing i with
  | nil => cases hb
  | cons d ds ih =>
    obtain ⟨hd, hds⟩ := List.nodup_cons.mp h
    cases i with
    | zero =>
      cases hb
      simp [Program.after, List.head?_eq_getElem?]
    | succ i =>
      have hne : d.addr ≠ b.addr := ne_addr_of_get hd hb
      rw [Program.after, if_neg hne]
      exact ih hds hb

namespace Program

variable {p : Program K} {n : ℕ} {b : Block K}

/-- The cursor once `n` blocks have been loaded: on the last one of them. -/
def CursorAt (p : Program K) : ℕ → Prop
  | 0 => p.current = none
  | n + 1 => ∃ b, p.blocks[n]? = some b ∧ p.current = some b.addr

theorem cursorAt_rewind (p : Program K) : p.rewind.CursorAt 0 := rfl

theorem CursorAt.le (h : p.CursorAt n) : n ≤ p.blocks.length := by
  cases n with
  | zero => omega
  | succ n =>
    obtain ⟨b, hb, -⟩ := h
    have := (List.getElem?_eq_some_iff.mp hb).1
    omega

/-- The block under the cursor. -/
theorem deref_of_cursorAt (hc : Chain p.blocks) (h : p.CursorAt (n + 1)) :
    p.deref = p.blocks[n]? := by
  obtain ⟨b, hb, hcur⟩ := h
  rw [deref, hcur, hb]
  exact find_of_get hc.nodup hb

theorem loadNext_current (hc : Chain p.blocks) (h : p.CursorAt n) :
    p.loadNext.current = p.blocks[n]?.map (·.addr) := by
  cases n with
  | zero =>
    have hcur : p.current = none := h
    simp [loadNext, hcur, List.head?_eq_getElem?]
  | succ n =>
    obtain ⟨b, hb, hcur⟩ := h
    simp only [loadNext, hcur]
    exact after_of_get hc.nodup hb

/-- `load_next` moves the cursor to the next block, if there is one. -/
theorem loadNext_cases (hc : Chain p.blocks) (h : p.CursorAt n) :
    (∃ b, p.blocks[n]? = some b ∧ p.loadNext.deref = some b ∧ p.loadNext.done = false ∧
      p.loadNext.CursorAt (n + 1)) ∨
    (n = p.blocks.length ∧ p.loadNext.done = true) := by
  have hcur := loadNext_current hc h
  have hdone : p.loadNext.done = p.loadNext.current.isNone := rfl
  cases hb : p.blocks[n]? with
  | none =>
    have := List.getElem?_eq_none_iff.mp hb
    have := h.le
    refine .inr ⟨by omega, ?_⟩
    rw [hdone, hcur, hb]
    rfl
  | some b =>
    have hcur : p.loadNext.current = some b.addr := by rw [hcur, hb]; rfl
    have hat : p.loadNext.CursorAt (n + 1) := ⟨b, hb, hcur⟩
    refine .inl ⟨b, rfl, ?_, ?_, hat⟩
    · exact (deref_of_cursorAt (p := p.loadNext) hc hat).trans hb
    · rw [hdone, hcur]
      rfl

theorem loadNext_of_get (hc : Chain p.blocks) (h : p.CursorAt n) (hb : p.blocks[n]? = some b) :
    p.loadNext.deref = some b ∧ p.loadNext.done = false ∧ p.loadNext.CursorAt (n + 1) := by
  rcases loadNext_cases hc h with ⟨c, hc, hd, hdone, hcur⟩ | ⟨hn, -⟩
  · cases hb.symm.trans hc
    exact ⟨hd, hdone, hcur⟩
  · rw [hn, List.getElem?_eq_none (Nat.le_refl _)] at hb
    cases hb

theorem loadNext_of_length (hc : Chain p.blocks) (h : p.CursorAt p.blocks.length) :
    p.loadNext.done = true := by
  rcases loadNext_cases hc h with ⟨b, hb, -⟩ | ⟨-, hdone⟩
  · rw [List.getElem?_eq_none (Nat.le_refl _)] at hb
    cases hb
  · exact hdone

end Program

/-! ## Accepted programs -/

section Accepted

variable [DataArith K] {m : Machine K} {p p' : Program K}

namespace Block

/-- What `parse` does not touch. -/
theorem link_of_parse {prev : Option (Block K)} {b c : Block K}
    (h : (parse m prev).run b = .ok () c) :
    c.addr = b.addr ∧ c.prev = b.prev ∧ c.next = b.next := by
  obtain ⟨_, _, _, _, _, _, _, _, _, _, -, rfl⟩ := (parse_iff.mp h).frame
  exact ⟨rfl, rfl, rfl⟩

theorem Constructed.prev_eq {line : Line} {prev : Option (Block K)} {b : Block K}
    (h : Constructed line prev b) : b.prev = prev.map (·.addr) := by
  cases h with
  | first => rfl
  | after ho => obtain ⟨-, rfl, rfl⟩ := ofPrev_ok ho; rfl

end Block

namespace Program

/-- The nodes are linked, and the address of the next one is new. -/
structure Wired (p : Program K) : Prop where
  chain : Chain p.blocks
  fresh : ∀ b ∈ p.blocks, b.addr < p.fresh

omit [DataArith K] in
theorem wired_empty (file : String) : ({ empty with filename := file } : Program K).Wired :=
  ⟨.nil, fun _ h => nomatch h⟩

omit [DataArith K] in
/-- Linking the last block to a new node keeps the chain, and the block is the one
that the new node points to. -/
theorem wired_front (h : p.Wired) : Chain p.front ∧ (∀ b ∈ p.front, b.addr < p.fresh) ∧
    p.front.getLast? = p.linked := by
  obtain ⟨hc, hf⟩ := h
  rcases List.eq_nil_or_concat p.blocks with hb | ⟨bs, o, hb⟩
  · simp [front, linked, hb, Chain.nil]
  · rw [List.concat_eq_append] at hb
    have hl : p.linked = some { o with next := some p.fresh } := by simp [linked, hb]
    have hfr : p.front = bs ++ [{ o with next := some p.fresh }] := by
      simp [front, hl, hb]
    rw [hb] at hc hf
    rw [hfr, hl]
    refine ⟨hc.relink rfl rfl, fun b hm => ?_, by simp⟩
    rcases List.mem_append.mp hm with hm | hm
    · exact hf b (List.mem_append_left _ hm)
    · rw [List.mem_singleton] at hm
      subst hm
      exact hf o (by simp)

omit [DataArith K] in
/-- A new node behind the last one. -/
theorem wired_snoc {c : Block K} (h : p.Wired) (hca : c.addr = p.fresh)
    (hp : c.prev = p.linked.map (·.addr)) :
    ({ p with blocks := p.front ++ [c], fresh := p.fresh + 1 } : Program K).Wired := by
  obtain ⟨hchain, hfresh, hlast⟩ := wired_front h
  refine ⟨.snoc hchain (fun d hd => ?_) ?_, fun d hd => ?_⟩
  · rw [hca]
    exact (hfresh d hd).ne
  · rw [hp, hlast]
  · show d.addr < p.fresh + 1
    rcases List.mem_append.mp hd with hd | hd
    · exact Nat.lt_succ_of_lt (hfresh d hd)
    · rw [List.mem_singleton] at hd
      rw [hd, hca]
      exact Nat.lt_succ_self p.fresh

theorem wired_append {line : Line} (h : p.Wired) (ha : Accepted m line p p') : p'.Wired := by
  obtain ⟨b, c, hc, rfl⟩ := append_iff.mp ha
  obtain ⟨haddr, hprev, -⟩ := Block.link_of_parse hc.parse
  exact wired_snoc h (haddr.trans hc.addr) (hprev.trans hc.constructed.prev_eq)

theorem wired_lines {lines : List Line} (hr : Run (Accepted m) p lines p') (h : p.Wired) :
    p'.Wired :=
  hr.invariant Wired (fun _ _ _ h ha => wired_append h ha) h

end Program

theorem wired_edit {e : Edit} (he : Edited m e p p') (h : p.Wired) : p'.Wired := by
  cases e with
  | push line => exact Program.wired_append h (edited_push.mp he)
  | load file content append =>
    obtain ⟨lines, -, hr⟩ := edited_load.mp he
    cases append with
    | true => exact Program.wired_lines hr ⟨h.chain, h.fresh⟩
    | false => exact Program.wired_lines hr ⟨.nil, fun _ h => nomatch h⟩

/-- The blocks of an edited program are a chain. -/
theorem chain_of_edits {es : List Edit} (hr : Run (Edited m) Program.empty es p) :
    Chain p.blocks :=
  (hr.invariant Program.Wired (fun _ _ _ h he => wired_edit he h) (Program.wired_empty "")).chain

end Accepted

end Cncpp
