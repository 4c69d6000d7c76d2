import Cncpp.Configuration

/-! The two formats of a configuration.  A table that can be written in both of them is
loaded in the same way, unless one of its numbers is written as an integer: TOML keeps
integers and decimals apart, and its loader takes only the latter. -/

namespace Cncpp

open DataArith Lib Lib.ExceptState

/-! ## Tables -/

/-- What can be written in both formats. -/
inductive Entry where
  | integer (n : ℤ)
  | decimal (q : ℚ)
  | string (s : String)
  | boolean (b : Bool)
  | array (a : List Entry)
  | table (t : List (String × Entry))

namespace Entry

def IsNumber : Entry → Prop
  | integer _ => True
  | decimal _ => True
  | _ => False

def IsDecimal : Entry → Prop
  | decimal _ => True
  | _ => False

def elements : Entry → Option (List Entry)
  | array a => some a
  | _ => none

variable {K : Type} [DataArith K]

mutual

def toJson : Entry → Json K
  | integer n => .number (num n)
  | decimal q => .number (num q)
  | string s => .string s
  | boolean b => .boolean b
  | array a => .array (toJsonAll a)
  | table t => .object (toJsonTable t)

def toJsonAll : List Entry → List (Json K)
  | [] => []
  | e :: es => e.toJson :: toJsonAll es

def toJsonTable : List (String × Entry) → List (String × Json K)
  | [] => []
  | (k, e) :: t => (k, e.toJson) :: toJsonTable t

end

mutual

def toToml : Entry → Toml K
  | integer n => .integer n
  | decimal q => .float (num q)
  | string s => .string s
  | boolean b => .boolean b
  | array a => .array (toTomlAll a)
  | table t => .table (toTomlTable t)

def toTomlAll : List Entry → List (Toml K)
  | [] => []
  | e :: es => e.toToml :: toTomlAll es

def toTomlTable : List (String × Entry) → List (String × Toml K)
  | [] => []
  | (k, e) :: t => (k, e.toToml) :: toTomlTable t

end

theorem toJsonAll_eq (a : List Entry) : toJsonAll (K := K) a = a.map toJson := by
  induction a with
  | nil => rfl
  | cons e a ih => rw [toJsonAll, ih, List.map_cons]

theorem toTomlAll_eq (a : List Entry) : toTomlAll (K := K) a = a.map toToml := by
  induction a with
  | nil => rfl
  | cons e a ih => rw [toTomlAll, ih, List.map_cons]

theorem lookup_toJsonTable (t : List (String × Entry)) (key : String) :
    (toJsonTable (K := K) t).lookup key = (t.lookup key).map toJson := by
  induction t with
  | nil => rfl
  | cons x t ih =>
    obtain ⟨k, e⟩ := x
    rw [toJsonTable, List.lookup_cons, List.lookup_cons, ih]
    cases key == k <;> rfl

theorem lookup_toTomlTable (t : List (String × Entry)) (key : String) :
    (toTomlTable (K := K) t).lookup key = (t.lookup key).map toToml := by
  induction t with
  | nil => rfl
  | cons x t ih =>
    obtain ⟨k, e⟩ := x
    rw [toTomlTable, List.lookup_cons, List.lookup_cons, ih]
    cases key == k <;> rfl

end Entry

/-- A table that can be written in both formats. -/
abbrev Table := List (String × Entry)

namespace Table

variable {K : Type} [DataArith K]

def json (t : Table) : Config K := .json (.object (Entry.toJsonTable t))
def toml (t : Table) : Config K := .toml (Entry.toTomlTable t)

/-- The shape of the entry for a parameter, with what is to be a number. -/
def EntryFits (number : Entry → Prop) : Parameter → Entry → Prop
  | .zero, e => ∃ a b c, e = .array [a, b, c] ∧ number a ∧ number b ∧ number c
  | .offset, e => ∃ a b c, e = .array [a, b, c] ∧ number a ∧ number b ∧ number c
  | _, e => number e

/-- The entries for the parameters are numbers, or arrays of three numbers. -/
def Fits (number : Entry → Prop) (t : Table) : Prop :=
  ∀ p e, t.lookup p.key = some e → EntryFits number p e

theorem Fits.mono {P Q : Entry → Prop} {t : Table} (hPQ : ∀ e, P e → Q e) (h : t.Fits P) :
    t.Fits Q := by
  intro p e he
  have hp := h p e he
  cases p with
  | zero =>
    obtain ⟨a, b, c, rfl, ha, hb, hc⟩ := hp
    exact ⟨a, b, c, rfl, hPQ a ha, hPQ b hb, hPQ c hc⟩
  | offset =>
    obtain ⟨a, b, c, rfl, ha, hb, hc⟩ := hp
    exact ⟨a, b, c, rfl, hPQ a ha, hPQ b hb, hPQ c hc⟩
  | _ => exact hPQ e hp

end Table

/-! ## Reading the entries -/

section Reading

variable {K N N' : Type} {f : Entry → N} {elements : N → Option (List N)} {number : N → Option K}
  {f' : Entry → N'} {elements' : N' → Option (List N')} {number' : N' → Option K}
  {P : Entry → Prop} {name name' other other' element element' : String} {entry : Option Entry}

/-- A format in which the entries `P` read as numbers. -/
structure Reads (f : Entry → N) (elements : N → Option (List N)) (number : N → Option K)
    (P : Entry → Prop) : Prop where
  number_iff : ∀ e, (∃ v, number (f e) = some v) ↔ P e
  elements_eq : ∀ e, elements (f e) = e.elements.map (·.map f)

theorem Reads.scalar (h : Reads f elements number P) :
    (∃ v, scalarEntry number name (entry.map f) = .ok v) ↔ ∀ e, entry = some e → P e := by
  cases entry with
  | none => simp [scalarEntry]
  | some e =>
    rw [Option.map_some]
    constructor
    · rintro ⟨v, hv⟩ _ ⟨⟩
      obtain ⟨x, hx, -⟩ := scalarEntry_eq_ok.mp hv
      exact (h.number_iff e).mp ⟨x, hx⟩
    · intro he
      obtain ⟨x, hx⟩ := (h.number_iff e).mpr (he e rfl)
      exact ⟨some x, scalarEntry_eq_ok.mpr ⟨x, hx, rfl⟩⟩

/-- The array behind three elements. -/
theorem Reads.elements_eq_some (h : Reads f elements number P) {e : Entry} {x y z : N} :
    elements (f e) = some [x, y, z] ↔
      ∃ a b c, e = .array [a, b, c] ∧ f a = x ∧ f b = y ∧ f c = z := by
  rw [h.elements_eq]
  constructor
  · intro he
    cases e with
    | array l =>
      obtain ⟨a, l1, rfl, ha, h1⟩ := List.map_eq_cons_iff.mp (Option.some.inj he)
      obtain ⟨b, l2, rfl, hb, h2⟩ := List.map_eq_cons_iff.mp h1
      obtain ⟨c, l3, rfl, hc, h3⟩ := List.map_eq_cons_iff.mp h2
      obtain rfl := List.map_eq_nil_iff.mp h3
      exact ⟨a, b, c, rfl, ha, hb, hc⟩
    | _ => cases he
  · rintro ⟨a, b, c, rfl, rfl, rfl, rfl⟩
    rfl

theorem Reads.triple (h : Reads f elements number P) :
    (∃ v, tripleEntry elements number name other element (entry.map f) = .ok v) ↔
      ∀ e, entry = some e → ∃ a b c, e = .array [a, b, c] ∧ P a ∧ P b ∧ P c := by
  cases entry with
  | none => simp [tripleEntry]
  | some e =>
    rw [Option.map_some]
    constructor
    · rintro ⟨v, hv⟩ _ ⟨⟩
      obtain ⟨_, _, _, x, y, z, he, hx, hy, hz, -⟩ := tripleEntry_eq_ok.mp hv
      obtain ⟨a, b, c, rfl, rfl, rfl, rfl⟩ := h.elements_eq_some.mp he
      exact ⟨a, b, c, rfl, (h.number_iff a).mp ⟨x, hx⟩, (h.number_iff b).mp ⟨y, hy⟩,
        (h.number_iff c).mp ⟨z, hz⟩⟩
    · intro he
      obtain ⟨a, b, c, rfl, ha, hb, hc⟩ := he e rfl
      obtain ⟨x, hx⟩ := (h.number_iff a).mpr ha
      obtain ⟨y, hy⟩ := (h.number_iff b).mpr hb
      obtain ⟨z, hz⟩ := (h.number_iff c).mpr hc
      exact ⟨_, tripleEntry_eq_ok.mpr ⟨f a, f b, f c, x, y, z, h.elements_eq _, hx, hy, hz, rfl⟩⟩

/-- Two formats that read the same numbers. -/
structure SameNumbers (f : Entry → N) (elements : N → Option (List N)) (number : N → Option K)
    (f' : Entry → N') (elements' : N' → Option (List N')) (number' : N' → Option K)
    (P P' : Entry → Prop) : Prop where
  left : Reads f elements number P
  right : Reads f' elements' number' P'
  same : ∀ e v v', number (f e) = some v → number' (f' e) = some v' → v = v'

theorem SameNumbers.scalar (h : SameNumbers f elements number f' elements' number' P P')
    {v v' : Option K} (hv : scalarEntry number name (entry.map f) = .ok v)
    (hv' : scalarEntry number' name' (entry.map f') = .ok v') : v = v' := by
  cases entry with
  | none =>
    cases hv
    cases hv'
    rfl
  | some e =>
    obtain ⟨x, hx, rfl⟩ := scalarEntry_eq_ok.mp hv
    obtain ⟨y, hy, rfl⟩ := scalarEntry_eq_ok.mp hv'
    rw [h.same e x y hx hy]

theorem SameNumbers.triple (h : SameNumbers f elements number f' elements' number' P P')
    {v v' : Option (CompletePoint K)}
    (hv : tripleEntry elements number name other element (entry.map f) = .ok v)
    (hv' : tripleEntry elements' number' name' other' element' (entry.map f') = .ok v') :
    v = v' := by
  cases entry with
  | none =>
    cases hv
    cases hv'
    rfl
  | some e =>
    obtain ⟨_, _, _, x, y, z, he, hx, hy, hz, rfl⟩ := tripleEntry_eq_ok.mp hv
    obtain ⟨_, _, _, x', y', z', he', hx', hy', hz', rfl⟩ := tripleEntry_eq_ok.mp hv'
    obtain ⟨a, b, c, rfl, rfl, rfl, rfl⟩ := h.left.elements_eq_some.mp he
    cases (h.right.elements_eq _).symm.trans he'
    cases h.same a x x' hx hx'
    cases h.same b y y' hy hy'
    cases h.same c z z' hz hz'
    rfl

end Reading

/-! ## The loaders -/

section Loaders

variable {K : Type} [DataArith K] {t : Table} {p : Parameter}

theorem json_reads : Reads (K := K) Entry.toJson Json.elements Json.getNumber Entry.IsNumber where
  number_iff e := by
    cases e <;> simp [Entry.toJson, Json.getNumber, Entry.IsNumber]
  elements_eq e := by
    cases e with
    | array a => exact congrArg some (Entry.toJsonAll_eq a)
    | _ => rfl

theorem toml_reads : Reads (K := K) Entry.toToml Toml.elements Toml.getFloat Entry.IsDecimal where
  number_iff e := by
    cases e <;> simp [Entry.toToml, Toml.getFloat, Entry.IsDecimal]
  elements_eq e := by
    cases e with
    | array a => exact congrArg some (Entry.toTomlAll_eq a)
    | _ => rfl

theorem sameNumbers : SameNumbers (K := K) Entry.toJson Json.elements Json.getNumber Entry.toToml
    Toml.elements Toml.getFloat Entry.IsNumber Entry.IsDecimal where
  left := json_reads
  right := toml_reads
  same e v v' hv hv' := by
    cases e with
    | decimal q => exact Option.some.inj (hv.symm.trans hv')
    | _ => cases hv'

theorem member_json (t : Table) (key : String) :
    (Json.object (Entry.toJsonTable (K := K) t)).member key = (t.lookup key).map Entry.toJson :=
  Entry.lookup_toJsonTable t key

theorem json_settings_ok : (∃ v, t.json.settings (K := K) p = .ok v) ↔
    ∀ e, t.lookup p.key = some e → Table.EntryFits Entry.IsNumber p e := by
  cases p <;> simp only [Table.json, Config.settings, Json.settings, Json.point, member_json] <;>
    first | exact json_reads.triple | exact json_reads.scalar

theorem toml_settings_ok : (∃ v, t.toml.settings (K := K) p = .ok v) ↔
    ∀ e, t.lookup p.key = some e → Table.EntryFits Entry.IsDecimal p e := by
  cases p <;> simp only [Table.toml, Config.settings, Toml.settings, Toml.point,
    Entry.lookup_toTomlTable] <;> first | exact toml_reads.triple | exact toml_reads.scalar

/-- What both loaders take has one value. -/
theorem settings_agree {v v' : Option (p.Value K)} (hv : t.json.settings p = .ok v)
    (hv' : t.toml.settings p = .ok v') : v = v' := by
  cases p <;> simp only [Table.json, Table.toml, Config.settings, Json.settings, Toml.settings,
    Json.point, Toml.point, member_json, Entry.lookup_toTomlTable] at hv hv' <;>
    first | exact sameNumbers.triple hv hv' | exact sameNumbers.scalar hv hv'

theorem json_accepted : (t.json (K := K)).settings.Accepted ↔ t.Fits Entry.IsNumber :=
  forall_congr' fun _ => json_settings_ok

theorem toml_accepted : (t.toml (K := K)).settings.Accepted ↔ t.Fits Entry.IsDecimal :=
  forall_congr' fun _ => toml_settings_ok

namespace Machine

variable {jsonOf : List (String × Toml K) → Json K} {m : Machine K}

/-- The two forms of a table are both refused, or leave the same parameters. -/
def FormatsAgree (jsonOf : List (String × Toml K) → Json K) (m : Machine K) (t : Table) : Prop :=
  (∃ e m₁ e' m₂, (load jsonOf t.json).run m = .error e m₁ ∧
    (load jsonOf t.toml).run m = .error e' m₂) ∨
  ∃ m₁ m₂, (load jsonOf t.json).run m = .ok () m₁ ∧ (load jsonOf t.toml).run m = .ok () m₂ ∧
    ∀ p, m₁.parameter p = m₂.parameter p

/-- The formats agree exactly on the tables that have no number written as an integer, and on
those that both of them refuse. -/
theorem formats_agree_iff : FormatsAgree jsonOf m t ↔
    ¬ t.Fits Entry.IsNumber ∨ t.Fits Entry.IsDecimal := by
  have hmono : t.Fits Entry.IsDecimal → t.Fits Entry.IsNumber :=
    Table.Fits.mono fun e he => by cases e <;> trivial
  constructor
  · rintro (⟨e, m₁, -, -, h, -⟩ | ⟨m₁, m₂, -, h, -⟩)
    · left
      intro hfits
      obtain ⟨m', h'⟩ := load_returns jsonOf (json_accepted.mpr hfits) m
      cases h.symm.trans h'
    · exact .inr (toml_accepted.mp (load_eq_ok h).1)
  · intro h
    by_cases hfits : t.Fits Entry.IsNumber
    · have hdec : t.Fits Entry.IsDecimal := h.resolve_left (not_not_intro hfits)
      obtain ⟨m₁, h₁⟩ := load_returns jsonOf (json_accepted.mpr hfits) m
      obtain ⟨m₂, h₂⟩ := load_returns jsonOf (toml_accepted.mpr hdec) m
      refine .inr ⟨m₁, m₂, h₁, h₂, fun p => ?_⟩
      obtain ⟨hacc, hval⟩ := load_eq_ok h₁
      obtain ⟨hacc', hval'⟩ := load_eq_ok h₂
      obtain ⟨v, hv⟩ := hacc p
      obtain ⟨v', hv'⟩ := hacc' p
      rw [hval, hval', Settings.value_of_ok hv, Settings.value_of_ok hv', settings_agree hv hv']
    · obtain ⟨e, m₁, h₁⟩ := load_throws jsonOf (mt json_accepted.mp hfits) m
      obtain ⟨e', m₂, h₂⟩ :=
        load_throws jsonOf (mt toml_accepted.mp (mt hmono hfits)) m
      exact .inl ⟨e, m₁, e', m₂, h₁, h₂⟩

/-- An acceleration of 10. -/
def wholeTable : Table := [("A", .integer 10)]

theorem wholeTable_runs (jsonOf : List (String × Toml K) → Json K) (m : Machine K) :
    (∃ m₁, (load jsonOf wholeTable.json).run m = .ok () m₁ ∧ m₁.A = num 10) ∧
    (load jsonOf wholeTable.toml).run m =
      .error (.machineParameter "A" "must be a number") m := ⟨⟨_, rfl, rfl⟩, rfl⟩

theorem formats_agree_whole :
    ¬ FormatsAgree (K := XReal) (fun _ => .null) .default wholeTable := by
  obtain ⟨⟨m₁, hj, -⟩, ht⟩ := wholeTable_runs (K := XReal) (fun _ => .null) .default
  rintro (⟨e, m', -, -, h, -⟩ | ⟨-, m', -, h, -⟩)
  · cases hj.symm.trans h
  · cases ht.symm.trans h

end Machine

end Loaders

end Cncpp
