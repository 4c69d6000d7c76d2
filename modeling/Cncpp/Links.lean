import Cncpp.Access

/-! The blocks of a program as a doubly linked list.  The links, and the way that leads from
block to block, hold after any calls, also after calls that throw before or after a new node
was linked. -/

namespace Cncpp

open DataArith Lib Lib.ExceptState

/-! ## Calls -/

/-- The operations of a program. -/
inductive Call where
  | edit (e : Edit)
  | loadNext
  | rewind
  | reset

/-- What a call leaves, whether it returns or throws. -/
def Call.leaves {K : Type} [DataArith K] (m : Machine K) : Call → Program K → Program K
  | edit e, p => state ((e.run m).run p)
  | loadNext, p => p.loadNext
  | rewind, p => p.rewind
  | reset, p => p.reset

def Called {K : Type} [DataArith K] (m : Machine K) (c : Call) (p q : Program K) : Prop :=
  q = c.leaves m p

variable {K : Type}

/-! ## Neighbours -/

/-- The block in front of a place in the list. -/
def before (bs : List (Block K)) : ℕ → Option (Block K)
  | 0 => none
  | i + 1 => bs[i]?

/-- The pointers of each block lead to its neighbours, and blocks have different addresses. -/
structure Linked (bs : List (Block K)) : Prop where
  nodup : (bs.map (·.addr)).Nodup
  prev : ∀ i b, bs[i]? = some b → b.prev = (before bs i).map (·.addr)
  next : ∀ i b, bs[i]? = some b → b.next = bs[i + 1]?.map (·.addr)

/-- The block has a machine, and leads from `p0` to its target. -/
def Block.Spans [DataArith K] (p0 : Point K) (b : Block K) : Prop :=
  b.hasMachine = true ∧ ∃ x0 y0 z0 x y z, p0 = .ofCoords x0 y0 z0 ∧ b.target = .ofCoords x y z ∧
    b.delta = .ofCoords (x - x0) (y - y0) (z - z0)

namespace Program

variable {p : Program K} {i : ℕ} {b c : Block K}

/-- A new node links the last block, and leaves the others alone. -/
theorem get_front (p : Program K) (i : ℕ) : p.front[i]? = p.blocks[i]?.map fun b =>
    if i + 1 = p.blocks.length then { b with next := some p.fresh } else b := by
  rcases List.eq_nil_or_concat p.blocks with hb | ⟨bs, o, hb⟩
  · simp [front, linked, hb]
  · rw [List.concat_eq_append] at hb
    have hf : p.front = bs ++ [{ o with next := some p.fresh }] := by
      simp [front, linked, hb]
    rw [hf, hb, List.length_append, List.length_singleton]
    rcases Nat.lt_trichotomy i bs.length with hi | rfl | hi
    · rw [List.getElem?_append_left hi, List.getElem?_append_left hi, List.getElem?_eq_getElem hi,
        Option.map_some, if_neg (by omega)]
    · rw [List.getElem?_concat_length, List.getElem?_concat_length, Option.map_some, if_pos rfl]
    · rw [List.getElem?_eq_none (by simp; omega), List.getElem?_eq_none (by simp; omega)]
      rfl

/-- What does not depend on the links is the same for all blocks in front of a new node. -/
theorem map_snoc {α : Type} (f : Block K → α) (hf : ∀ b a, f { b with next := a } = f b)
    (hi : i < p.blocks.length) : (p.front ++ [c])[i]?.map f = p.blocks[i]?.map f := by
  rw [List.getElem?_append_left (by rw [length_front]; exact hi), ← List.getElem?_map,
    ← List.getElem?_map, map_front f hf]

theorem map_before_snoc {α : Type} (f : Block K → α) (hf : ∀ b a, f { b with next := a } = f b)
    (hi : i ≤ p.blocks.length) : (before (p.front ++ [c]) i).map f = (before p.blocks i).map f := by
  cases i with
  | zero => rfl
  | succ i => exact map_snoc f hf hi

/-- A block of the list with a new node behind it. -/
theorem get_snoc (hb : (p.front ++ [c])[i]? = some b) :
    (i = p.blocks.length ∧ b = c) ∨ ∃ o, p.blocks[i]? = some o ∧
      b = if i + 1 = p.blocks.length then { o with next := some p.fresh } else o := by
  rcases Nat.lt_trichotomy i p.front.length with hi | rfl | hi
  · rw [List.getElem?_append_left hi, get_front] at hb
    obtain ⟨o, ho, rfl⟩ := Option.map_eq_some_iff.mp hb
    exact .inr ⟨o, ho, rfl⟩
  · rw [List.getElem?_concat_length] at hb
    cases hb
    exact .inl ⟨length_front p, rfl⟩
  · rw [List.getElem?_eq_none (by simp; omega)] at hb
    cases hb

end Program

theorem before_length (bs : List (Block K)) : before bs bs.length = bs.getLast? := by
  cases bs with
  | nil => rfl
  | cons b bs => rw [List.length_cons, before, List.getLast?_eq_getElem?]; rfl

theorem Block.origin_eq (m : Machine K) (o : Option (Block K)) :
    origin m o = (o.map (·.target)).getD m.zero := by
  cases o <;> rfl

/-! ## The invariant -/

variable [DataArith K] {m : Machine K}

/-- Each block points to the block after it, only the last one can be one that is not parsed,
and a parsed block leads from the target of the block before it to its own. -/
structure Route (m : Machine K) (bs : List (Block K)) : Prop where
  next : ∀ (i : ℕ) b, bs[i]? = some b → b.next = bs[i + 1]?.map (·.addr)
  parsed : ∀ (i : ℕ) b, i + 1 < bs.length → bs[i]? = some b → b.parsed = true
  spans : ∀ (i : ℕ) b, bs[i]? = some b → b.parsed = true → b.Spans (Block.origin m (before bs i))

theorem Route.nil : Route m [] :=
  ⟨fun _ _ h => (nomatch h), fun _ _ _ h => (nomatch h), fun _ _ h => nomatch h⟩

namespace Program

variable {p : Program K} {line : Line} {c : Block K}

/-- The nodes are linked, and their blocks are a route. -/
structure Laid (m : Machine K) (p : Program K) : Prop extends Wired p where
  route : Route m p.blocks

theorem laid_nil (file : String) (cursor : Option Addr) (done : Bool) (fresh : Addr) :
    Laid m ⟨[], file, cursor, done, fresh⟩ := ⟨⟨.nil, fun _ h => nomatch h⟩, .nil⟩

/-- A new node has the way from the last target, when its line was accepted. -/
theorem NewNode.spans (hc : NewNode m line p c) (hp : c.parsed = true) :
    c.Spans (Block.origin m (before p.blocks p.blocks.length)) := by
  obtain ⟨x0, y0, z0, x, y, z, h0, h1, hd, hm, -⟩ := Block.points_of_parse (hc.parsed hp)
  rw [linked, Block.origin_link] at h0
  rw [before_length]
  exact ⟨hm, x0, y0, z0, x, y, z, h0, h1, hd⟩

theorem route_snoc (h : Route m p.blocks) (hc : NewNode m line p c) (hn : c.next = none) :
    Route m (p.front ++ [c]) := by
  have hlen : (p.front ++ [c]).length = p.blocks.length + 1 := by
    rw [List.length_append, length_front, List.length_singleton]
  refine ⟨fun i b hb => ?_, fun i b hi hb => ?_, fun i b hb hp => ?_⟩
  · rcases get_snoc hb with ⟨rfl, rfl⟩ | ⟨o, ho, rfl⟩
    · rw [hn, List.getElem?_eq_none (by omega), Option.map_none]
    · have hi := (List.getElem?_eq_some_iff.mp ho).1
      split
      · next he =>
        -- the old last block now points to the new node
        have hlast : (p.front ++ [c])[i + 1]? = some c := by
          rw [he, ← length_front, List.getElem?_concat_length]
        rw [hlast, Option.map_some, hc.addr]
      · next he =>
        rw [map_snoc (·.addr) (fun _ _ => rfl) (by omega)]
        exact h.next i o ho
  · rw [hlen] at hi
    rcases get_snoc hb with ⟨rfl, -⟩ | ⟨o, ho, rfl⟩
    · omega
    · split
      · next he =>
        refine hc.last o ?_
        rw [List.getLast?_eq_getElem?, ← he]
        exact ho
      · exact h.parsed i o (by omega) ho
  · have hi : i ≤ p.blocks.length := by
      have := (List.getElem?_eq_some_iff.mp hb).1
      omega
    rw [Block.origin_eq, map_before_snoc (·.target) (fun _ _ => rfl) hi, ← Block.origin_eq]
    rcases get_snoc hb with ⟨rfl, rfl⟩ | ⟨o, ho, rfl⟩
    · exact hc.spans hp
    · split at hp
      · next he => rw [if_pos he]; exact h.spans i o ho hp
      · next he => rw [if_neg he]; exact h.spans i o ho hp

theorem laid_append (line : Line) (h : p.Laid m) : (state ((append m line).run p)).Laid m := by
  rcases state_append_node m line p with hs | ⟨c, hc, hn, hs⟩
  · rw [hs]
    exact h
  · rw [hs]
    exact ⟨wired_snoc h.toWired hc.addr hc.prev, route_snoc h.route hc hn⟩

theorem laid_load {file : String} {content : Option (List Line)} {app : Bool} (h : p.Laid m) :
    (state ((load m file content app).run p)).Laid m := by
  have hfile : ({ p with filename := file } : Program K).Laid m :=
    ⟨⟨h.chain, h.fresh⟩, h.route⟩
  cases content with
  | none => exact hfile
  | some lines =>
    cases app with
    | true => exact state_lines (·.Laid m) (fun line _ hq => laid_append line hq) lines hfile
    | false =>
      exact state_lines (·.Laid m) (fun line _ hq => laid_append line hq) lines
        (laid_nil file none false p.fresh)

theorem laid_leaves (call : Call) (h : p.Laid m) : (call.leaves m p).Laid m := by
  cases call with
  | edit e =>
    cases e with
    | push line => exact laid_append line h
    | load file content app => exact laid_load h
  | loadNext => exact ⟨⟨h.chain, h.fresh⟩, h.route⟩
  | rewind => exact ⟨⟨h.chain, h.fresh⟩, h.route⟩
  | reset => exact laid_nil p.filename none false p.fresh

theorem laid_of_calls {calls : List Call} (hr : Run (Called m) empty calls p) : p.Laid m := by
  refine hr.invariant (·.Laid m) (fun call q r hq hcall => ?_) (laid_nil "" none false 0)
  rw [hcall]
  exact laid_leaves call hq

theorem Laid.linked (h : p.Laid m) : Linked p.blocks := by
  refine ⟨h.chain.nodup, fun i b hb => ?_, h.route.next⟩
  rw [h.chain.prev_eq hb]
  cases i <;> rfl

/-- The pointer of a block leads to the block before it. -/
theorem Laid.find_prev (h : p.Laid m) {i : ℕ} {b : Block K} (hb : p.blocks[i]? = some b) :
    b.prev.bind p.find = before p.blocks i := by
  rw [h.linked.prev i b hb]
  cases ho : before p.blocks i with
  | none => rfl
  | some o =>
    cases i with
    | zero => cases ho
    | succ i => exact find_of_get h.chain.nodup ho

end Program

/-! ## The way so far -/

inductive Axis where
  | x
  | y
  | z

def Point.coord {K : Type} (p : Point K) : Axis → Option K
  | .x => p.x
  | .y => p.y
  | .z => p.z

/-- The coordinate that is reached from a point by the deltas of some blocks. -/
def reached (a : Axis) (p0 : Point K) (bs : List (Block K)) : Option K :=
  bs.foldl (fun v b => v.bind fun s => (b.delta.coord a).map (s + ·)) (p0.coord a)

section Exact

variable {m : Machine XReal} {p : Program XReal} {b : Block XReal} {a : Axis}

theorem Block.Spans.coord {p0 : Point XReal} {u : XReal} (h : b.Spans p0)
    (h0 : p0.coord a = some u) :
    ∃ v, b.target.coord a = some v ∧ b.delta.coord a = some (v - u) := by
  obtain ⟨-, x0, y0, z0, x, y, z, rfl, ht, hd⟩ := h
  rw [ht, hd]
  cases a <;> cases h0 <;> exact ⟨_, rfl, rfl⟩

/-- The block leads from a coordinate that is a number to its target, whatever that is. -/
theorem Block.Spans.add_delta {p0 : Point XReal} {u : ℝ} (h : b.Spans p0)
    (h0 : p0.coord a = some (.fin u)) :
    (b.delta.coord a).map (.fin u + ·) = b.target.coord a := by
  obtain ⟨v, ht, hd⟩ := h.coord h0
  rw [ht, hd, Option.map_some]
  cases v with
  | fin v => rw [XReal.sub_def, XReal.add_def, add_sub_cancel]
  | _ => rfl

/-- As long as the targets are numbers, the deltas add up to them. -/
theorem Route.reached (h : Route m p.blocks) {z : ℝ} (hz : m.zero.coord a = some (.fin z)) {i : ℕ}
    (hb : p.blocks[i]? = some b) (hp : b.parsed = true)
    (hfin : ∀ j c, j < i → p.blocks[j]? = some c → ∃ v, c.target.coord a = some (.fin v)) :
    reached a m.zero (p.blocks.take (i + 1)) = b.target.coord a := by
  induction i generalizing b with
  | zero =>
    rw [List.take_add_one, hb]
    have hspan := (h.spans 0 b hb hp).add_delta hz
    rw [← hspan]
    simp [Cncpp.reached, hz]
  | succ i ih =>
    have hlt := (List.getElem?_eq_some_iff.mp hb).1
    have hc := List.getElem?_eq_getElem (l := p.blocks) (i := i) (by omega)
    obtain ⟨v, hv⟩ := hfin i _ (by omega) hc
    have hprev := ih hc (h.parsed i _ hlt hc) fun j c hj => hfin j c (by omega)
    have ho : (Block.origin m (before p.blocks (i + 1))).coord a = some (.fin v) := by
      rw [before, hc]
      exact hv
    have hspan := (h.spans (i + 1) b hb hp).add_delta ho
    rw [List.take_add_one, hb, Cncpp.reached, List.foldl_append, ← Cncpp.reached, hprev, hv, ← hspan]
    rfl

/-- The list of a program after any calls, also ones that threw, is linked in both directions;
every parsed block starts at the target of the block before it, or at the machine zero, and the
deltas up to it add up to its target where the earlier targets are numbers. -/
theorem chain_invariant {calls : List Call} (hr : Run (Called m) Program.empty calls p) :
    Linked p.blocks ∧ ∀ (i : ℕ) b, p.blocks[i]? = some b → b.parsed = true →
      b.startPoint m (b.prev.bind p.find) = .ok (Block.origin m (before p.blocks i)) ∧
      ∀ a z, m.zero.coord a = some (.fin z) →
        (∀ j c, j < i → p.blocks[j]? = some c → ∃ v, c.target.coord a = some (.fin v)) →
        reached a m.zero (p.blocks.take (i + 1)) = b.target.coord a := by
  have h : p.Laid m := Program.laid_of_calls hr
  refine ⟨h.linked, fun i b hb hp => ⟨?_, fun a z hz hfin => h.route.reached hz hb hp hfin⟩⟩
  rw [h.find_prev hb]
  exact Block.startPoint_eq_ok.mpr ⟨(h.route.spans i b hb hp).1, rfl⟩

theorem called_of_edited {e : Edit} {q : Program XReal} (h : Edited m e p q) :
    Called m (.edit e) p q := (congrArg state h).symm

/-- Two rapid moves along X on the default machine. -/
theorem exists_moves (l l' : Line)
    (hw : ∀ line ∈ [l, l'].filter Program.isCode, ∀ t ∈ commands line, IsWord t ∧ letter t ≠ 'N')
    (ht : ∀ line ∈ [l, l'].filter Program.isCode,
      (lastOf typeWord (commands line)).getD .noMotion ∉ [BlockType.cwa, .ccwa])
    (hc : [l, l'].filter Program.isCode = [l, l']) {u v : XReal}
    (hx : lastOf (dataWord 'X') (wordsOf [l]) = some u)
    (hx' : lastOf (dataWord 'X') (wordsOf [l, l']) = some v) :
    ∃ (p : Program XReal) (c b : Block XReal),
      Run (Called Machine.default) Program.empty
        [.edit (.load "part.g" (some [l, l']) false)] p ∧
      p.blocks = [c, b] ∧ c.parsed = true ∧ b.parsed = true ∧
      c.target.coord .x = some u ∧ b.target.coord .x = some v := by
  obtain ⟨p, hp⟩ := exists_load (Machine.default (K := XReal)) "part.g" [l, l'] hw ht
  obtain ⟨hlen, hmade⟩ := blocks_of_load hp
  rw [hc] at hlen hmade
  obtain ⟨c, hgc, hmc⟩ := hmade 0 l rfl
  obtain ⟨b, hgb, hmb⟩ := hmade 1 l' rfl
  have hbs : p.blocks = [c, b] := by
    match hbs : p.blocks with
    | [] | [_] | _ :: _ :: _ :: _ => simp [hbs] at hlen
    | [c', b'] =>
      rw [hbs] at hgc hgb
      cases hgc
      cases hgb
      rfl
  have hpar := parsed_of_load hp
  refine ⟨p, c, b, .single (called_of_edited hp), hbs, hpar c (by simp [hbs]), hpar b (by simp [hbs]),
    ?_, ?_⟩
  · rw [hmc.modal.target]
    exact congrArg (Option.or · _) hx
  · rw [hmb.modal.target]
    exact congrArg (Option.or · _) hx'

theorem chain_invariant_sample : ∃ (calls : List Call) (p : Program XReal) (b : Block XReal),
    Run (Called Machine.default) Program.empty calls p ∧ Linked p.blocks ∧
      p.blocks[1]? = some b ∧ b.startPoint Machine.default (b.prev.bind p.find) =
        .ok (Block.origin Machine.default (before p.blocks 1)) ∧
      reached .x Machine.default.zero (p.blocks.take 2) = some (.fin 5) := by
  have hone : lastOf (numeralWord 'X') (wordsOf ["G0 X1".toList]) = some (.finite 1) := by
    decide +kernel
  have hfive : lastOf (numeralWord 'X') (wordsOf ["G0 X1".toList, "G0 X5".toList]) =
      some (.finite 5) := by decide +kernel
  obtain ⟨p, c, b, hr, hbs, -, hbp, hc, hb⟩ := exists_moves "G0 X1".toList "G0 X5".toList
    (u := .fin 1) (v := .fin 5) (by decide +kernel) (by decide +kernel) (by decide +kernel)
    (by rw [lastOf_dataWord, hone]; simp [ofNumeral]) (by rw [lastOf_dataWord, hfive]; simp [ofNumeral])
  have hgb : p.blocks[1]? = some b := by rw [hbs]; rfl
  obtain ⟨hlinked, hall⟩ := chain_invariant hr
  obtain ⟨hstart, hsum⟩ := hall 1 b hgb hbp
  refine ⟨_, p, b, hr, hlinked, hgb, hstart, (hsum .x ((0 : ℚ) : ℝ) rfl ?_).trans hb⟩
  intro j d hj hd
  obtain rfl : j = 0 := by omega
  rw [hbs] at hd
  cases hd
  exact ⟨1, hc⟩

/-- From an infinite target the deltas do not lead back to a number. -/
theorem deltas_lose_target : ∃ (calls : List Call) (p : Program XReal) (b : Block XReal),
    Run (Called Machine.default) Program.empty calls p ∧ p.blocks[1]? = some b ∧ b.parsed = true ∧
      reached .x Machine.default.zero (p.blocks.take 2) ≠ b.target.coord .x := by
  have hinf : lastOf (numeralWord 'X') (wordsOf ["G0 Xinf".toList]) = some (.infinite false) := by
    decide +kernel
  have hfive : lastOf (numeralWord 'X') (wordsOf ["G0 Xinf".toList, "G0 X5".toList]) =
      some (.finite 5) := by decide +kernel
  obtain ⟨p, c, b, hr, hbs, hcp, hbp, hc, hb⟩ := exists_moves "G0 Xinf".toList "G0 X5".toList
    (u := .posInf) (v := .fin 5) (by decide +kernel) (by decide +kernel) (by decide +kernel)
    (by rw [lastOf_dataWord, hinf]; rfl) (by rw [lastOf_dataWord, hfive]; rfl)
  refine ⟨_, p, b, hr, by rw [hbs]; rfl, hbp, ?_⟩
  have h : p.Laid Machine.default := Program.laid_of_calls hr
  have hgc : p.blocks[0]? = some c := by rw [hbs]; rfl
  have hgb : p.blocks[1]? = some b := by rw [hbs]; rfl
  have hz : (Block.origin Machine.default (before p.blocks 0)).coord .x = some (num 0) := rfl
  have hz' : (Block.origin Machine.default (before p.blocks 1)).coord .x = some .posInf := by
    rw [before, hgc]
    exact hc
  obtain ⟨_, htc, hdc⟩ := (h.route.spans 0 c hgc hcp).coord hz
  obtain ⟨_, htb, hdb⟩ := (h.route.spans 1 b hgb hbp).coord hz'
  cases hc.symm.trans htc
  cases hb.symm.trans htb
  rw [hbs, hb]
  simp only [reached, List.take_succ_cons, List.take_zero, List.foldl_cons, List.foldl_nil, hdc, hdb]
  intro h5
  -- the sum is inf + (5 - inf)
  have hnan : (num 0 + (.posInf - num 0) + (.fin 5 - .posInf) : XReal) = .nan := rfl
  change some (num 0 + (.posInf - num 0) + (.fin 5 - .posInf) : XReal) = some (.fin 5) at h5
  rw [hnan] at h5
  cases h5

end Exact

end Cncpp
