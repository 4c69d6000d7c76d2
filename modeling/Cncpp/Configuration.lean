import Cncpp.Machine

/-! Loading a configuration into a machine, from JSON or from TOML.  The two loaders go
through the same parameters in the same order, and differ in what they take for a number
and in when they keep the configuration itself. -/

namespace Cncpp

open DataArith Lib Lib.ExceptState

/-! ## The parameters -/

/-- What a configuration can set, in the order in which it is loaded. -/
inductive Parameter where
  | tq | tqMax | A | fmax | maxError | zero | offset
  deriving DecidableEq, Repr

/-- A point whose three coordinates are set. -/
abbrev CompletePoint (K : Type) := {p : Point K // p.isComplete = true}

namespace Parameter

def key : Parameter → String
  | tq => "tq"
  | tqMax => "tq_max"
  | A => "A"
  | fmax => "fmax"
  | maxError => "max_error"
  | zero => "zero"
  | offset => "offset"

/-- What a machine stores for a parameter. -/
@[reducible] def Value (K : Type) : Parameter → Type
  | zero => CompletePoint K
  | offset => CompletePoint K
  | _ => K

def all : List Parameter := [tq, tqMax, A, fmax, maxError, zero, offset]

theorem mem_all (p : Parameter) : p ∈ all := by
  cases p <;> decide

theorem all_nodup : all.Nodup := by decide

end Parameter

/-- What a configuration says of each parameter: nothing, its value, or the exception that
refuses its entry. -/
abbrev Settings (K : Type) := (p : Parameter) → Except (Exn K) (Option (p.Value K))

namespace Settings

variable {K : Type}

/-- The value that is stored for a parameter, if there is one. -/
def value (c : Settings K) (p : Parameter) : Option (p.Value K) :=
  match c p with
  | .ok v => v
  | .error _ => none

/-- No entry is refused. -/
def Accepted (c : Settings K) : Prop := ∀ p, ∃ v, c p = .ok v

theorem value_of_ok {c : Settings K} {p : Parameter} {v : Option (p.Value K)} (h : c p = .ok v) :
    c.value p = v := by
  rw [value, h]

end Settings

section Checks

variable {K N : Type}

/-- The check of an entry that has to be a number. -/
def scalarEntry (number : N → Option K) (name : String) (entry : Option N) :
    Except (Exn K) (Option K) :=
  match entry with
  | none => .ok none
  | some n =>
    match number n with
    | some v => .ok (some v)
    | none => .error (.machineParameter name "must be a number")

/-- The check of an entry that has to be an array of three numbers, with what is said of
other entries and of other elements. -/
def tripleEntry (elements : N → Option (List N)) (number : N → Option K)
    (name other element : String) (entry : Option N) :
    Except (Exn K) (Option (CompletePoint K)) :=
  match entry with
  | none => .ok none
  | some n =>
    match elements n with
    | some [a, b, c] =>
      match number a, number b, number c with
      | some x, some y, some z => .ok (some ⟨.ofCoords x y z, rfl⟩)
      | _, _, _ => .error (.machineParameter name element)
    | _ => .error (.machineParameter name other)

variable {elements : N → Option (List N)} {number : N → Option K}
  {name other element : String} {n : N}

theorem scalarEntry_eq_ok {v : Option K} :
    scalarEntry number name (some n) = .ok v ↔ ∃ x, number n = some x ∧ v = some x := by
  rw [scalarEntry]
  cases number n with
  | none => simp
  | some x => simp [eq_comm]

theorem tripleEntry_eq_ok {v : Option (CompletePoint K)} :
    tripleEntry elements number name other element (some n) = .ok v ↔
      ∃ a b c x y z, elements n = some [a, b, c] ∧ number a = some x ∧ number b = some y ∧
        number c = some z ∧ v = some ⟨.ofCoords x y z, rfl⟩ := by
  constructor
  · intro h
    simp only [tripleEntry] at h
    split at h
    · next a b c hn =>
      split at h
      · next x y z ha hb hc =>
        cases h
        exact ⟨a, b, c, x, y, z, hn, ha, hb, hc, rfl⟩
      · cases h
    · cases h
  · rintro ⟨a, b, c, x, y, z, hn, ha, hb, hc, rfl⟩
    simp only [tripleEntry, hn, ha, hb, hc]

end Checks

/-! ## The two formats

Of nlohmann::json and toml++ the documented behaviour of the accessors is assumed. -/

namespace Json

variable {K : Type}

/-- `_data.contains(key)`, with the entry: only an object contains keys. -/
def member (key : String) : Json K → Option (Json K)
  | object o => o.lookup key
  | _ => none

/-- `is_array()`, with the elements, of which `size()` is the number. -/
def elements : Json K → Option (List (Json K))
  | array a => some a
  | _ => none

def point (name : String) (j : Json K) : Except (Exn K) (Option (CompletePoint K)) :=
  tripleEntry elements getNumber name "must be an array of 3 numbers"
    "must be an array of 3 numbers" (j.member name)

/-- What `load` makes of the members of a document.  `is_number()` holds of integers and of
floating-point numbers, which `getNumber` reads. -/
def settings (j : Json K) : Settings K
  | .tq => scalarEntry getNumber "tq" (j.member "tq")
  | .tqMax => scalarEntry getNumber "tq_max" (j.member "tq_max")
  | .A => scalarEntry getNumber "A" (j.member "A")
  | .fmax => scalarEntry getNumber "fmax" (j.member "fmax")
  | .maxError => scalarEntry getNumber "_max_error" (j.member "max_error")
  | .zero => j.point "zero"
  | .offset => j.point "offset"

end Json

/-- TOML values. -/
inductive Toml (K : Type) where
  | string (s : String)
  | integer (n : ℤ)
  | float (v : K)
  | boolean (b : Bool)
  /-- A date, a time, or both. -/
  | date (text : String)
  | array (a : List (Toml K))
  | table (t : List (String × Toml K))

namespace Toml

variable {K : Type}

/-- `is_floating_point()`, with the value that `value_or` reads: it does not hold of integers. -/
def getFloat : Toml K → Option K
  | float v => some v
  | _ => none

/-- `is_array()`, with the elements, of which `size()` is the number. -/
def elements : Toml K → Option (List (Toml K))
  | array a => some a
  | _ => none

def point (name : String) (t : List (String × Toml K)) :
    Except (Exn K) (Option (CompletePoint K)) :=
  tripleEntry elements getFloat name "must be an array of three numbers"
    "has a non-numerical value" (t.lookup name)

/-- What `load` makes of the entries of a table, in which `contains(key)` finds each key once. -/
def settings (t : List (String × Toml K)) : Settings K
  | .tq => scalarEntry getFloat "tq" (t.lookup "tq")
  | .tqMax => scalarEntry getFloat "tq_max" (t.lookup "tq_max")
  | .A => scalarEntry getFloat "A" (t.lookup "A")
  | .fmax => scalarEntry getFloat "fmax" (t.lookup "fmax")
  | .maxError => scalarEntry getFloat "max_error" (t.lookup "max_error")
  | .zero => point "zero" t
  | .offset => point "offset" t

end Toml

/-- The arguments of `load`. -/
inductive Config (K : Type) where
  | json (j : Json K)
  | toml (t : List (String × Toml K))

def Config.settings {K : Type} : Config K → Settings K
  | json j => j.settings
  | toml t => Toml.settings t

/-! ## Loading -/

namespace Machine

variable {K : Type}

/-- The stored value of a parameter. -/
def parameter (m : Machine K) : (p : Parameter) → p.Value K
  | .tq => m.tq
  | .tqMax => m.tqMax
  | .A => m.A
  | .fmax => m.fmax
  | .maxError => m.maxError
  | .zero => ⟨m.zero, m.zero_complete⟩
  | .offset => ⟨m.offset, m.offset_complete⟩

def setParameter (m : Machine K) : (p : Parameter) → p.Value K → Machine K
  | .tq, v => { m with tq := v }
  | .tqMax, v => { m with tqMax := v }
  | .A, v => { m with A := v }
  | .fmax, v => { m with fmax := v }
  | .maxError, v => { m with maxError := v }
  | .zero, v => { m with zero := v.1, zero_complete := v.2 }
  | .offset, v => { m with offset := v.1, offset_complete := v.2 }

/-- One parameter: its entry is checked before it is stored. -/
def store (c : Settings K) (p : Parameter) : MachineM K Unit := do
  match ← ofExcept (c p) with
  | some v => modify (·.setParameter p v)
  | none => pure ()

def storeAll (c : Settings K) : MachineM K Unit := Parameter.all.forM (store c)

/-- `load(json)`. -/
def loadJson (j : Json K) : MachineM K Unit := do
  modify ({ · with data := j })
  storeAll j.settings

/-- `load(toml::table)`.  `jsonOf` prints a table as JSON and reads it back. -/
def loadToml (jsonOf : List (String × Toml K) → Json K) (t : List (String × Toml K)) :
    MachineM K Unit := do
  storeAll (Toml.settings t)
  modify ({ · with data := jsonOf t })

def load (jsonOf : List (String × Toml K) → Json K) : Config K → MachineM K Unit
  | .json j => loadJson j
  | .toml t => loadToml jsonOf t

section Store

variable {c : Settings K} {p q : Parameter} {m m' : Machine K} {l : List Parameter}

@[simp] theorem parameter_setParameter (v : p.Value K) : (m.setParameter p v).parameter p = v := by
  cases p <;> rfl

theorem parameter_setParameter_of_ne (h : q ≠ p) (v : q.Value K) :
    (m.setParameter q v).parameter p = m.parameter p := by
  cases q <;> cases p <;> first | rfl | exact absurd rfl h

theorem setParameter_data (v : p.Value K) : (m.setParameter p v).data = m.data := by
  cases p <;> rfl

theorem setParameter_agent (v : p.Value K) : (m.setParameter p v).agent = m.agent := by
  cases p <;> rfl

/-- What `store` does to the machine. -/
theorem store_eq_ok : (store c p).run m = .ok () m' ↔
    ∃ v, c p = .ok v ∧ m' = v.elim m (m.setParameter p) := by
  rw [store, bind_eq_ok]
  constructor
  · rintro ⟨v, t, hx, h⟩
    obtain ⟨hv, rfl⟩ := ofExcept_eq_ok.mp hx
    refine ⟨v, hv, ?_⟩
    cases v <;> cases h <;> rfl
  · rintro ⟨v, hv, rfl⟩
    refine ⟨v, m, ofExcept_eq_ok.mpr ⟨hv, rfl⟩, ?_⟩
    cases v <;> rfl

/-- A refused entry leaves the machine alone. -/
theorem store_eq_error {e : Exn K} (h : (store c p).run m = .error e m') :
    c p = .error e ∧ m' = m := by
  rw [store] at h
  cases hc : c p with
  | ok v =>
    rw [hc] at h
    cases v <;> cases h
  | error e' =>
    rw [hc] at h
    cases h
    exact ⟨rfl, rfl⟩

/-- Storing the parameters `l`: each of them has its new value, if there is one, and the
others keep theirs. -/
theorem stored_parameter (h : Run (Passes (store c)) m l m') (p : Parameter) :
    m'.parameter p = (if p ∈ l then c.value p else none).getD (m.parameter p) := by
  have hstep : ∀ q (s t : Machine K), Passes (store c) q s t →
      t.parameter p = (if q = p then c.value p else none).getD (s.parameter p) := by
    intro q s t hq
    obtain ⟨v, hv, rfl⟩ := store_eq_ok.mp hq
    by_cases hqp : q = p
    · subst hqp
      rw [if_pos rfl, Settings.value_of_ok hv]
      cases v with
      | none => rfl
      | some v => exact parameter_setParameter v
    · rw [if_neg hqp]
      cases v with
      | none => rfl
      | some v => exact parameter_setParameter_of_ne hqp v
  rw [h.last _ (parameter · p) hstep, lastOf_ite]

/-- Storing parameters keeps what is no parameter. -/
theorem stored_keeps {γ : Type} {π : Machine K → γ}
    (hπ : ∀ m p v, π (setParameter m p v) = π m) (h : Run (Passes (store c)) m l m') :
    π m' = π m := by
  refine h.invariant (fun s => π s = π m) (fun q s t hs hq => ?_) rfl
  obtain ⟨v, -, rfl⟩ := store_eq_ok.mp hq
  cases v with
  | none => exact hs
  | some v => exact (hπ s q v).trans hs

/-- The entries of stored parameters are accepted. -/
theorem stored_accepted (h : Run (Passes (store c)) m l m') (hp : p ∈ l) : ∃ v, c p = .ok v := by
  obtain ⟨s, t, hst⟩ := h.step_of_mem hp
  obtain ⟨v, hv, -⟩ := store_eq_ok.mp hst
  exact ⟨v, hv⟩

theorem storeAll_eq_ok (h : (storeAll c).run m = .ok () m') :
    c.Accepted ∧ (∀ p, m'.parameter p = (c.value p).getD (m.parameter p)) ∧
      m'.agent = m.agent := by
  have hrun := forM_eq_ok.mp h
  refine ⟨fun p => stored_accepted hrun (Parameter.mem_all p), fun p => ?_,
    stored_keeps (fun _ _ => setParameter_agent) hrun⟩
  rw [stored_parameter hrun, if_pos (Parameter.mem_all p)]

theorem storeAll_eq_error {e : Exn K} (h : (storeAll c).run m = .error e m') :
    ∃ pre p post, Parameter.all = pre ++ p :: post ∧ Run (Passes (store c)) m pre m' ∧
      c p = .error e := by
  obtain ⟨pre, p, post, u, hl, hrun, hp⟩ := forM_eq_error.mp h
  obtain ⟨hc, rfl⟩ := store_eq_error hp
  exact ⟨pre, p, post, hl, hrun, hc⟩

theorem storeAll_returns (hc : c.Accepted) (m : Machine K) : ∃ m', (storeAll c).run m = .ok () m' := by
  cases h : (storeAll c).run m with
  | ok u m' => exact ⟨m', rfl⟩
  | error e m' =>
    obtain ⟨-, p, -, -, -, hp⟩ := storeAll_eq_error h
    obtain ⟨v, hv⟩ := hc p
    cases hv.symm.trans hp

end Store

section Load

variable {jsonOf : List (String × Toml K) → Json K} {c : Config K} {m m' : Machine K}

/-- A configuration that is loaded has no refused entry, and every parameter has the value
it says, or keeps its own. -/
theorem load_eq_ok (h : (load jsonOf c).run m = .ok () m') :
    c.settings.Accepted ∧ ∀ p, m'.parameter p = (c.settings.value p).getD (m.parameter p) := by
  cases c with
  | json j =>
    rw [load, loadJson, bind_eq_ok] at h
    obtain ⟨_, t, hm, h⟩ := h
    cases hm
    obtain ⟨hc, hp, -⟩ := storeAll_eq_ok h
    refine ⟨hc, fun p => ?_⟩
    rw [hp p]
    cases p <;> rfl
  | toml t =>
    rw [load, loadToml, bind_eq_ok] at h
    obtain ⟨_, u, h, hm⟩ := h
    cases hm
    obtain ⟨hc, hp, -⟩ := storeAll_eq_ok h
    refine ⟨hc, fun p => ?_⟩
    show _ = ((Toml.settings t).value p).getD _
    rw [← hp p]
    cases p <;> rfl

theorem load_returns (jsonOf : List (String × Toml K) → Json K) (hc : c.settings.Accepted)
    (m : Machine K) : ∃ m', (load jsonOf c).run m = .ok () m' := by
  cases c with
  | json j =>
    obtain ⟨m', h⟩ := storeAll_returns hc { m with data := j }
    exact ⟨m', bind_eq_ok.mpr ⟨(), _, rfl, h⟩⟩
  | toml t =>
    obtain ⟨u, h⟩ := storeAll_returns hc m
    exact ⟨{ u with data := jsonOf t }, bind_eq_ok.mpr ⟨(), u, h, rfl⟩⟩

/-- A configuration is loaded into every machine or into none. -/
theorem load_throws (jsonOf : List (String × Toml K) → Json K) (hc : ¬ c.settings.Accepted)
    (m : Machine K) : ∃ e m', (load jsonOf c).run m = .error e m' := by
  cases h : (load jsonOf c).run m with
  | ok u m' => exact absurd (load_eq_ok h).1 hc
  | error e m' => exact ⟨e, m', rfl⟩

/-! ## Failures -/

/-- A load that throws changes nothing. -/
def AllOrNothing (jsonOf : List (String × Toml K) → Json K) (m : Machine K) (c : Config K) : Prop :=
  ∀ e m', (load jsonOf c).run m = .error e m' →
    (∀ p, m'.parameter p = m.parameter p) ∧ m'.data = m.data

/-- A load that throws has stored the parameters in front of the refused entry and no other;
from TOML, it has not stored the configuration. -/
theorem load_failure {e : Exn K} (h : (load jsonOf c).run m = .error e m') :
    ∃ pre p post, Parameter.all = pre ++ p :: post ∧ c.settings p = .error e ∧
      (∀ q ∈ pre, ∃ v, c.settings q = .ok v ∧ m'.parameter q = v.getD (m.parameter q)) ∧
      (∀ q ∈ p :: post, m'.parameter q = m.parameter q) ∧
      ∀ t, c = .toml t → m'.data = m.data := by
  -- the state in which the parameters are stored differs from `m` in the data at most
  have hstart : ∃ s : Machine K, (storeAll c.settings).run s = .error e m' ∧
      (∀ q, s.parameter q = m.parameter q) ∧ ∀ t, c = .toml t → s.data = m.data := by
    cases c with
    | json j =>
      refine ⟨{ m with data := j }, ?_, fun q => by cases q <;> rfl, fun t ht => nomatch ht⟩
      exact h
    | toml t =>
      rw [load, loadToml, bind_eq_error] at h
      rcases h with h | ⟨_, u, -, hm⟩
      · exact ⟨m, h, fun _ => rfl, fun _ _ => rfl⟩
      · cases hm
  obtain ⟨s, hs, hparam, hdata⟩ := hstart
  obtain ⟨pre, p, post, hl, hrun, hp⟩ := storeAll_eq_error hs
  have hnot : ∀ q ∈ p :: post, q ∉ pre := by
    have hnd := Parameter.all_nodup
    rw [hl] at hnd
    intro q hq hpre
    exact (List.nodup_append.mp hnd).2.2 q hpre q hq rfl
  refine ⟨pre, p, post, hl, hp, fun q hq => ?_, fun q hq => ?_, fun t ht => ?_⟩
  · obtain ⟨v, hv⟩ := stored_accepted hrun hq
    refine ⟨v, hv, ?_⟩
    rw [stored_parameter hrun, if_pos hq, Settings.value_of_ok hv, hparam]
  · rw [stored_parameter hrun, if_neg (hnot q hq), Option.getD_none, hparam]
  · exact (stored_keeps (fun _ _ => setParameter_data) hrun).trans (hdata t ht)

end Load

/-- The control period is given, and the acceleration is not a number. -/
noncomputable def mixedConfig : Config XReal :=
  .json (.object [("tq", .number (.fin (2 / 1000))), ("A", .string "fast")])

theorem mixed_run : ∃ e m', (load (fun _ => .null) mixedConfig).run .default = .error e m' ∧
    m'.tq = .fin (2 / 1000) := ⟨_, _, rfl, rfl⟩

theorem load_failure_mixed : ¬ AllOrNothing (fun _ => .null) Machine.default mixedConfig := by
  intro hall
  obtain ⟨e, m', h, htq⟩ := mixed_run
  have hold : m'.tq = (Machine.default : Machine XReal).tq := (hall e m' h).1 .tq
  rw [htq] at hold
  have hval := XReal.fin.inj (hold : (.fin (2 / 1000) : XReal) = .fin ((1 / 1000 : ℚ) : ℝ))
  norm_num at hval

theorem load_failure_sample : ∃ e m' pre p post,
    (load (fun _ => .null) mixedConfig).run .default = .error e m' ∧
      Parameter.all = pre ++ p :: post ∧ mixedConfig.settings p = .error e ∧
      ∀ q ∈ p :: post, m'.parameter q = (Machine.default : Machine XReal).parameter q := by
  obtain ⟨e, m', h, -⟩ := mixed_run
  obtain ⟨pre, p, post, hl, hp, -, hkeep, -⟩ := load_failure h
  exact ⟨e, m', pre, p, post, h, hl, hp, hkeep⟩

end Machine

end Cncpp
