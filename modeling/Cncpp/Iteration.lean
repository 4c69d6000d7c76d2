import Cncpp.Links

/-! The cursor of a program.  Between a rewind and the end of the list `load_next` returns the
blocks in their order, whatever is appended meanwhile. -/

namespace Cncpp

open DataArith Lib Lib.ExceptState

/-- A call while a program is iterated over: `load_next`, with the node it returns (none is
`end()`), or `operator<<`. -/
inductive Visit where
  | next (position : Option Addr)
  | push (line : Line)

/-- The node that `load_next` returns. -/
def Visit.position : Visit → Option (Option Addr)
  | next a => some a
  | push _ => none

variable {K : Type} [DataArith K] {m : Machine K} {p q : Program K}

/-- A call that returns. -/
def Visited (m : Machine K) : Visit → Program K → Program K → Prop
  | .next a, p, q => q = p.loadNext ∧ q.current = a
  | .push line, p, q => Program.Accepted m line p q

namespace Program

/-- Appending leaves the blocks of the list and the cursor where they are. -/
theorem cursorAt_accepted {line : Line} (ha : Accepted m line p q) {n : ℕ} (hc : p.CursorAt n) :
    q.CursorAt n ∧ q.done = p.done ∧ ∃ a, q.addrs = p.addrs ++ [a] := by
  obtain ⟨-, c, -, rfl⟩ := accepted_iff.mp ha
  refine ⟨?_, rfl, c.addr, ?_⟩
  · cases n with
    | zero => exact hc
    | succ n =>
      obtain ⟨b, hb, hcur⟩ := hc
      have hn := (List.getElem?_eq_some_iff.mp hb).1
      have haddr := map_snoc (c := c) (·.addr) (fun _ _ => rfl) hn
      rw [hb] at haddr
      obtain ⟨b', hb', ha'⟩ := Option.map_eq_some_iff.mp haddr
      exact ⟨b', hb', hcur.trans (congrArg some ha'.symm)⟩
  · rw [addrs, List.map_append, map_front _ fun _ _ => rfl]
    rfl

omit [DataArith K] in
/-- `load_next` returns the next block, and is done where there is none. -/
theorem loadNext_at (hw : p.Wired) {n : ℕ} (hc : p.CursorAt n) :
    p.loadNext.deref = p.blocks[n]? ∧ (p.loadNext.done = true ↔ p.blocks.length < n + 1) := by
  rcases loadNext_cases hw.chain hc with ⟨b, hb, hderef, hdone, -⟩ | ⟨rfl, hdone⟩
  · have hlt := (List.getElem?_eq_some_iff.mp hb).1
    rw [hderef, hb, hdone]
    exact ⟨rfl, by simp; omega⟩
  · have hcur : p.loadNext.current = none := Option.isNone_iff_eq_none.mp hdone
    rw [deref, hcur, hdone, List.getElem?_eq_none (Nat.le_refl _)]
    exact ⟨rfl, by simp⟩

end Program

/-- Over a run of the cursor the nodes of the list are returned one after the other. -/
theorem visits_in_order {vs : List Visit} (hr : Run (Visited m) p vs q)
    (hgo : ∀ v ∈ vs, v.position ≠ some none) {n : ℕ} (hw : p.Wired) (hc : p.CursorAt n)
    (hd : p.done = false) :
    q.Wired ∧ q.CursorAt (n + (vs.filterMap Visit.position).length) ∧ q.done = false ∧
      p.addrs <+: q.addrs ∧ vs.filterMap Visit.position =
        ((q.addrs.drop n).take (vs.filterMap Visit.position).length).map some := by
  induction hr generalizing n with
  | nil p => exact ⟨hw, hc, hd, List.prefix_rfl, rfl⟩
  | @cons v p r q vs hv _ ih =>
    have ih := @ih (fun w hm => hgo w (List.mem_cons_of_mem _ hm))
    cases v with
    | push line =>
      obtain ⟨hcr, hdr, a, hadd⟩ := Program.cursorAt_accepted hv hc
      obtain ⟨hwq, hcq, hdq, hpre, hpos⟩ := ih (Program.wired_append hw hv) hcr (hdr.trans hd)
      exact ⟨hwq, hcq, hdq, (hadd ▸ List.prefix_append _ _).trans hpre, hpos⟩
    | next a =>
      obtain ⟨rfl, hcur⟩ := hv
      rcases Program.loadNext_cases hw.chain hc with ⟨b, hb, hderef, hdone, hcr⟩ | ⟨-, hdone⟩
      · obtain ⟨hwq, hcq, hdq, hpre, hpos⟩ := ih ⟨hw.chain, hw.fresh⟩ hcr hdone
        have ha : a = some b.addr := by
          obtain ⟨b', hb', hcur'⟩ := hcr
          cases hb.symm.trans hb'
          rw [← hcur, hcur']
        have hget : q.addrs[n]? = some b.addr := by
          obtain ⟨as, has⟩ := hpre
          have hp : p.addrs[n]? = some b.addr := by
            rw [Program.addrs, List.getElem?_map, hb]
            rfl
          rw [← has]
          exact (List.getElem?_append_left (List.getElem?_eq_some_iff.mp hp).1).trans hp
        have hdrop : q.addrs.drop n = b.addr :: q.addrs.drop (n + 1) := by
          obtain ⟨hlt, heq⟩ := List.getElem?_eq_some_iff.mp hget
          rw [List.drop_eq_getElem_cons hlt, heq]
        have hcons : (Visit.next a :: vs).filterMap Visit.position =
            a :: vs.filterMap Visit.position := rfl
        rw [hcons, List.length_cons]
        refine ⟨hwq, ?_, hdq, hpre, ?_⟩
        · rwa [Nat.add_assoc, Nat.add_comm 1] at hcq
        · rw [hdrop, List.take_succ_cons, List.map_cons, ← hpos, ha]
      · -- the end of the list is excluded
        have hnone : p.loadNext.current = none := Option.isNone_iff_eq_none.mp hdone
        rw [hnone] at hcur
        subst hcur
        exact absurd rfl (hgo (.next none) (List.mem_cons_self ..))

/-- The cursor law: after a rewind the `k`-th `load_next` returns the `k`-th block of the list,
whatever was appended meanwhile, and is done exactly where `k` exceeds the number of blocks;
after that it starts again from the first one. -/
theorem cursor_law {calls : List Call} {vs : List Visit}
    (hp : Run (Called m) Program.empty calls p) (hr : Run (Visited m) p.rewind vs q)
    (hgo : ∀ v ∈ vs, v.position ≠ some none) :
    let k := (vs.filterMap Visit.position).length
    q.addrs.Nodup ∧ q.done = false ∧
      vs.filterMap Visit.position = (q.addrs.take k).map some ∧
      q.loadNext.deref = q.blocks[k]? ∧ (q.loadNext.done = true ↔ q.blocks.length < k + 1) ∧
      (q.loadNext.done = true → ∀ lines r, Run (Program.Accepted m) q.loadNext lines r →
        r.loadNext.deref = r.blocks[0]? ∧ (r.loadNext.done = true ↔ r.blocks = [])) := by
  have hlaid : p.Laid m := Program.laid_of_calls hp
  obtain ⟨hw, hc, hd, -, hpos⟩ := visits_in_order hr hgo (n := 0)
    ⟨hlaid.chain, hlaid.fresh⟩ (Program.cursorAt_rewind p) rfl
  rw [Nat.zero_add] at hc
  obtain ⟨hderef, hdone⟩ := Program.loadNext_at hw hc
  refine ⟨hw.chain.nodup, hd, hpos, hderef, hdone, fun hend lines r hlines => ?_⟩
  have hstart : q.loadNext.Wired ∧ q.loadNext.CursorAt 0 :=
    ⟨⟨hw.chain, hw.fresh⟩, Option.isNone_iff_eq_none.mp hend⟩
  obtain ⟨hwr, hcr⟩ := hlines.invariant (fun r => r.Wired ∧ r.CursorAt 0)
    (fun line r r' h ha => ⟨Program.wired_append h.1 ha, (Program.cursorAt_accepted ha h.2).1⟩) hstart
  obtain ⟨hfirst, hempty⟩ := Program.loadNext_at hwr hcr
  exact ⟨hfirst, hempty.trans (by rw [Nat.lt_one_iff, List.length_eq_zero_iff])⟩

/-- One line is appended after the rewind; the second call is done, the third one starts again. -/
theorem cursor_law_sample : ∃ (vs : List Visit) (q : Program XReal) (b : Block XReal),
    Run (Visited Machine.default) Program.empty.rewind vs q ∧ q.blocks = [b] ∧
      vs.filterMap Visit.position = [some b.addr] ∧ q.loadNext.done = true ∧
      q.loadNext.loadNext.deref = some b := by
  have hready : (Program.empty.rewind : Program XReal).Ready := fun o ho => nomatch ho
  have happ : ∃ b c, Program.Appended Machine.default (Program.empty.rewind : Program XReal)
      "G0 X1".toList b c :=
    Program.exists_append hready (by decide +kernel) (fun o ho => nomatch ho) (by decide +kernel)
  obtain ⟨b, c, hc⟩ := happ
  have hpush : Program.Accepted Machine.default "G0 X1".toList Program.empty.rewind
      ⟨[c], "", none, false, 1⟩ := Program.append_iff.mpr ⟨b, c, hc, rfl⟩
  have hp : Run (Called (Machine.default (K := XReal))) Program.empty [] Program.empty := .nil _
  have hr : Run (Visited Machine.default) Program.empty.rewind
      [.push "G0 X1".toList, .next (some c.addr)] (Program.loadNext ⟨[c], "", none, false, 1⟩) :=
    .cons hpush (.single ⟨rfl, rfl⟩)
  obtain ⟨-, -, hpos, -, hdone, hagain⟩ := cursor_law hp hr fun v hv => by
    rcases List.mem_cons.mp hv with rfl | hv
    · exact fun h => nomatch h
    · cases List.mem_singleton.mp hv
      exact fun h => nomatch h
  have hend := hdone.mpr (Nat.lt_succ_self 1)
  exact ⟨_, _, c, hr, rfl, hpos, hend, (hagain hend [] _ (.nil _)).1⟩

end Cncpp
