import Cncpp.Parsing
import Cncpp.Program

/-! What a program holds after lines were put into it: one appended line links
the last block to a new one at the back, and a load appends the lines of a file
one by one. -/

namespace Cncpp

open DataArith Lib Lib.ExceptState

variable {K : Type}

namespace Block

variable [DataArith K] {m : Machine K} {prev : Option (Block K)} {b : Block K}

/-- The block that a constructor makes. -/
def start (addr : Addr) (line : Line) : Option (Block K) → Block K
  | none => ofLine addr line
  | some o => { ofLine addr line with
      tool := o.tool, feedrate := o.feedrate, spindle := o.spindle, n := (o.n + 1) % 2 ^ 64,
      prev := some o.addr }

variable {addr : Addr} {line : Line}

/-! What the words do not decide: the line, the place in the list, and that the block has
not been parsed. -/

@[simp] theorem start_line (prev : Option (Block K)) : (start addr line prev).line = line := by
  cases prev <;> rfl

@[simp] theorem start_addr (prev : Option (Block K)) : (start addr line prev).addr = addr := by
  cases prev <;> rfl

@[simp] theorem start_prev (prev : Option (Block K)) :
    (start addr line prev).prev = prev.map (·.addr) := by
  cases prev <;> rfl

@[simp] theorem start_next (prev : Option (Block K)) : (start addr line prev).next = none := by
  cases prev <;> rfl

@[simp] theorem start_parsed (prev : Option (Block K)) :
    (start addr line prev).parsed = false := by
  cases prev <;> rfl

theorem constructed_start (addr : Addr) (line : Line) (h : ∀ o ∈ prev, o.parsed = true) :
    Constructed line (prev.map ({· with next := some addr})) (start addr line prev) := by
  cases prev with
  | none => exact .first addr
  | some o =>
    have ho : o.parsed = true := h o rfl
    have : ofPrev addr line o = .ok (start addr line (some o), { o with next := some addr }) := by
      rw [ofPrev, assign, if_pos ho]
      rfl
    exact .after this

theorem start_link (a : Addr) (prev : Option (Block K)) :
    start addr line (prev.map ({· with next := some a})) = start addr line prev := by
  cases prev <;> rfl

/-- The constructors make nothing else. -/
theorem Constructed.eq_start (h : Constructed line prev b) :
    (∀ o ∈ prev, o.parsed = true) ∧ b = start b.addr line prev := by
  cases h with
  | first addr => exact ⟨(fun o ho => nomatch ho), rfl⟩
  | after ho =>
    obtain ⟨hop, rfl, rfl⟩ := ofPrev_ok ho
    constructor
    · intro q hq
      cases hq
      exact hop
    · rfl

omit [DataArith K] in
theorem origin_link : origin m (prev.map ({· with next := some addr})) = origin m prev := by
  cases prev <;> rfl

end Block

namespace Program

/-- The last block, linked to the node that will follow it. -/
def linked (p : Program K) : Option (Block K) :=
  p.blocks.getLast?.map ({ · with next := some p.fresh })

/-- The blocks of `p` when a node is put behind them. -/
def front (p : Program K) : List (Block K) := p.blocks.dropLast ++ p.linked.toList

/-- What does not depend on the pointer to the next node stays. -/
theorem map_front {α : Type} (f : Block K → α) (hf : ∀ b a, f { b with next := a } = f b)
    (p : Program K) : p.front.map f = p.blocks.map f := by
  rcases List.eq_nil_or_concat p.blocks with h | ⟨bs, b, h⟩
  · simp [front, linked, h]
  · simp [front, linked, h, hf]

theorem length_front (p : Program K) : p.front.length = p.blocks.length := by
  simpa using congrArg List.length (map_front (fun _ => ()) (fun _ _ => rfl) p)

variable [DataArith K]

theorem run_parseBack (m : Machine K) (bs : List (Block K)) (prev : Option (Block K))
    (b : Block K) (p : Program K) : (parseBack m bs prev b).run p =
      match (Block.parse m prev).run b with
      | .ok _ b' => .ok () { p with blocks := bs ++ [b'] }
      | .error e b' => .error e { p with blocks := bs ++ [b'] } := rfl

theorem parseBack_iff {m : Machine K} {bs : List (Block K)} {prev : Option (Block K)}
    {b : Block K} {p p' : Program K} : (parseBack m bs prev b).run p = .ok () p' ↔
      ∃ c, (Block.parse m prev).run b = .ok () c ∧ p' = { p with blocks := bs ++ [c] } := by
  rw [run_parseBack]
  cases (Block.parse m prev).run b with
  | ok _ c =>
    constructor
    · intro h; cases h; exact ⟨c, rfl, rfl⟩
    · rintro ⟨_, h, rfl⟩; cases h; rfl
  | error e c => simp

/-- Behind a parsed block a line is constructed, linked and parsed. -/
theorem append_run {m : Machine K} {p : Program K} {line : Line}
    (h : ∀ o ∈ p.blocks.getLast?, o.parsed = true) :
    (append m line).run p = (parseBack m p.front p.linked (Block.start p.fresh line p.blocks.getLast?)).run
      { p with fresh := p.fresh + 1 } := by
  rw [append, EStateM.run_bind, EStateM.run_get]
  dsimp only
  cases hb : p.blocks.getLast? with
  | none =>
    have hnil := List.getLast?_eq_none_iff.mp hb
    simp only [front, linked, hnil]
    rfl
  | some back =>
    have hpar : back.parsed = true := h back hb
    have ho : Block.ofPrev p.fresh line back =
        .ok (Block.start p.fresh line (some back), { back with next := some p.fresh }) := by
      rw [Block.ofPrev, Block.assign, if_pos hpar]
      rfl
    simp only [ho, front, linked, hb]
    rfl

/-- Behind a block that is not parsed no line is constructed. -/
theorem append_unparsed {m : Machine K} {p : Program K} {line : Line} {o : Block K}
    (ho : p.blocks.getLast? = some o) (hp : o.parsed = false) :
    (append m line).run p = .error .copyNotParsed p := by
  have hcopy : Block.ofPrev p.fresh line o = .error .copyNotParsed := by
    rw [Block.ofPrev, Block.assign, if_neg (by simp [hp])]
  rw [append, EStateM.run_bind, EStateM.run_get]
  dsimp only
  rw [ho]
  simp only [hcopy]
  rfl

/-- The block `c` that an accepted line has put at the back of `p`. -/
structure Appended (m : Machine K) (p : Program K) (line : Line) (b c : Block K) : Prop where
  constructed : Block.Constructed line p.linked b
  addr : b.addr = p.fresh
  parse : (Block.parse m p.linked).run b = .ok () c

/-- Accepting one line. -/
def Accepted (m : Machine K) (line : Line) (p p' : Program K) : Prop :=
  (append m line).run p = .ok () p'

/-- A line is accepted behind a parsed block when `parse` accepts what the constructor
makes of it. -/
theorem accepted_iff {m : Machine K} {line : Line} {p p' : Program K} :
    Accepted m line p p' ↔ (∀ o ∈ p.blocks.getLast?, o.parsed = true) ∧
      ∃ c, Block.Parsed m p.linked (Block.start p.fresh line p.blocks.getLast?) c ∧
        p' = { p with blocks := p.front ++ [c], fresh := p.fresh + 1 } := by
  constructor
  · intro h
    have hpar : ∀ o ∈ p.blocks.getLast?, o.parsed = true := by
      intro o ho
      by_contra hn
      rw [Accepted, append_unparsed ho (by simpa using hn)] at h
      cases h
    rw [Accepted, append_run hpar] at h
    obtain ⟨c, hc, rfl⟩ := parseBack_iff.mp h
    exact ⟨hpar, c, Block.parse_iff.mp hc, rfl⟩
  · rintro ⟨hpar, c, hc, rfl⟩
    rw [Accepted, append_run hpar]
    exact parseBack_iff.mpr ⟨c, Block.parse_iff.mpr hc, rfl⟩

theorem append_iff {m : Machine K} {line : Line} {p p' : Program K} :
    Accepted m line p p' ↔ ∃ b c, Appended m p line b c ∧
      p' = { p with blocks := p.front ++ [c], fresh := p.fresh + 1 } := by
  rw [accepted_iff]
  constructor
  · rintro ⟨hpar, c, hc, rfl⟩
    exact ⟨_, c, ⟨Block.constructed_start _ _ hpar, Block.start_addr _,
      Block.parse_iff.mpr hc⟩, rfl⟩
  · rintro ⟨b, c, ⟨hcon, haddr, hc⟩, rfl⟩
    obtain ⟨hpar, hb⟩ := hcon.eq_start
    rw [haddr, linked, Block.start_link] at hb
    subst hb
    refine ⟨fun o ho => ?_, c, Block.parse_iff.mp hc, rfl⟩
    have hl : { o with next := some p.fresh } ∈ p.linked := Option.mem_map_of_mem _ ho
    have ho' := hpar _ hl
    exact ho'

theorem appendAll_iff {m : Machine K} {lines : List Line} {p p' : Program K} :
    (appendAll m lines).run p = .ok () p' ↔ Run (Accepted m) p (lines.filter isCode) p' := by
  induction lines generalizing p with
  | nil =>
    constructor
    · intro h; cases h; exact .nil _
    · intro h; cases h; rfl
  | cons line lines ih =>
    rw [appendAll]
    split
    · next hc =>
      rw [List.filter_cons_of_pos hc, bind_eq_ok]
      constructor
      · rintro ⟨_, q, hq, h⟩
        exact .cons hq (ih.mp h)
      · intro h
        cases h with
        | cons hq h => exact ⟨(), _, hq, ih.mpr h⟩
    · next hc =>
      rw [List.filter_cons_of_neg hc]
      exact ih

/-- A load that returns has accepted the code lines of a file that it could open. -/
theorem load_iff {m : Machine K} {file : String} {content : Option (List Line)} {app : Bool}
    {p p' : Program K} : (load m file content app).run p = .ok () p' ↔
      ∃ lines, content = some lines ∧
        Run (Accepted m) (if app then { p with filename := file }
          else reset { p with filename := file }) (lines.filter isCode) p' := by
  unfold load
  rw [EStateM.run_bind, EStateM.run_modify]
  cases content with
  | none => simp
  | some lines =>
    cases app with
    | false => simpa [EStateM.run_bind] using appendAll_iff
    | true => simpa [EStateM.run_bind] using appendAll_iff

/-- Every block of the program has been parsed. -/
def Parsed (p : Program K) : Prop := ∀ b ∈ p.blocks, b.parsed = true

theorem parsed_append {m : Machine K} {line : Line} {p p' : Program K} (h : p.Parsed)
    (ha : Accepted m line p p') : p'.Parsed := by
  obtain ⟨b, c, hc, rfl⟩ := append_iff.mp ha
  have hpar : c.parsed = true := by
    obtain ⟨_, _, _, _, _, _, _, _, _, _, -, rfl⟩ := (Block.parse_iff.mp hc.parse).frame
    rfl
  intro d hd
  simp only [List.mem_append, List.mem_singleton, front, linked, Option.mem_toList,
    Option.map_eq_some_iff] at hd
  rcases hd with (hd | ⟨o, ho, rfl⟩) | rfl
  · exact h d (List.mem_of_mem_dropLast hd)
  · exact h o (List.mem_of_getLast? ho)
  · exact hpar

/-- A load that returns leaves parsed blocks only. -/
theorem parsed_load {m : Machine K} {file : String} {content : Option (List Line)}
    {p p' : Program K} (h : (load m file content false).run p = .ok () p') : p'.Parsed := by
  obtain ⟨lines, -, hr⟩ := load_iff.mp h
  exact hr.invariant Parsed (fun _ _ _ h ha => parsed_append h ha) (fun _ hb => nomatch hb)

/-! ## Accepted texts -/

/-- The program ends with a block that the next line can inherit from. -/
def Ready (p : Program K) : Prop :=
  ∀ o ∈ p.blocks.getLast?, o.parsed = true ∧ o.target.isComplete = true

theorem exists_append {m : Machine K} {line : Line} {p : Program K} (hp : p.Ready)
    (hw : ∀ t ∈ commands line, IsWord t)
    (hn : ∀ o ∈ p.blocks.getLast?, ∀ t ∈ commands line, ∀ n ∈ sizeWord 'N' t, o.n < n)
    (ht : (lastOf typeWord (commands line)).getD .noMotion ∉ [BlockType.cwa, .ccwa]) :
    ∃ b c, Appended m p line b c := by
  have hcon : Block.Constructed line p.linked (Block.start p.fresh line p.blocks.getLast?) :=
    Block.constructed_start p.fresh line fun o ho => (hp o ho).1
  have hn' : ∀ o ∈ p.linked, ∀ t ∈ commands line, ∀ n ∈ sizeWord 'N' t, o.n < n := by
    intro o' ho'
    obtain ⟨o, ho, rfl⟩ := Option.map_eq_some_iff.mp ho'
    exact hn o ho
  have h0 : (Block.origin m p.linked).isComplete = true := by
    rw [linked, Block.origin_link]
    cases hb : p.blocks.getLast? with
    | none => exact m.zero_complete
    | some o => exact (hp o hb).2
  obtain ⟨c, hc⟩ := Block.exists_parse hcon hw hn' h0 ht
  exact ⟨_, c, hcon, Block.start_addr _, hc⟩

/-- Behind an accepted line the next one can be appended. -/
theorem ready_of_accepted {m : Machine K} {line : Line} {p p' : Program K}
    (ha : Accepted m line p p') : p'.Ready := by
  obtain ⟨b, c, hc, rfl⟩ := append_iff.mp ha
  intro o ho
  rw [List.getLast?_concat] at ho
  cases ho
  obtain ⟨_, _, _, _, _, _, _, _, _, _, -, rfl⟩ := (Block.parse_iff.mp hc.parse).frame
  exact ⟨rfl, rfl⟩

/-- Behind a block that it can inherit from a line of known words is accepted, if it is no arc
and its number exceeds the one before. -/
theorem exists_accepted {m : Machine K} {line : Line} {p : Program K} (hp : p.Ready)
    (hw : ∀ t ∈ commands line, IsWord t)
    (hn : ∀ o ∈ p.blocks.getLast?, ∀ t ∈ commands line, ∀ n ∈ sizeWord 'N' t, o.n < n)
    (ht : (lastOf typeWord (commands line)).getD .noMotion ∉ [BlockType.cwa, .ccwa]) :
    ∃ p', Accepted m line p p' ∧ p'.Ready := by
  obtain ⟨b, c, hc⟩ := exists_append (m := m) hp hw hn ht
  have ha : Accepted m line p { p with blocks := p.front ++ [c], fresh := p.fresh + 1 } :=
    append_iff.mpr ⟨b, c, hc, rfl⟩
  exact ⟨_, ha, ready_of_accepted ha⟩

/-- A text of known words without block numbers and arcs is accepted. -/
theorem exists_lines {m : Machine K} {lines : List Line} {p : Program K} (hp : p.Ready)
    (hw : ∀ line ∈ lines, ∀ t ∈ commands line, IsWord t ∧ letter t ≠ 'N')
    (ht : ∀ line ∈ lines,
      (lastOf typeWord (commands line)).getD .noMotion ∉ [BlockType.cwa, .ccwa]) :
    ∃ p', Run (Accepted m) p lines p' := by
  refine Run.exists_of (fun lines (p : Program K) => p.Ready ∧ ∀ line ∈ lines,
    (∀ t ∈ commands line, IsWord t ∧ letter t ≠ 'N') ∧
      (lastOf typeWord (commands line)).getD .noMotion ∉ [BlockType.cwa, .ccwa])
    ?_ ⟨hp, fun line hl => ⟨hw line hl, ht line hl⟩⟩
  rintro line lines p ⟨hp, hall⟩
  obtain ⟨hw, ht⟩ := hall line (List.mem_cons_self ..)
  have hn : ∀ t ∈ commands line, sizeWord 'N' t = none := fun t h => by
    simp [sizeWord, intWord, (hw t h).2]
  obtain ⟨p', ha, hp'⟩ := exists_accepted (m := m) hp (fun t h => (hw t h).1)
    (fun o _ t h n hn' => by rw [hn t h] at hn'; cases hn') ht
  exact ⟨p', ha, hp', fun l hl => hall l (List.mem_cons_of_mem _ hl)⟩

end Program

end Cncpp
