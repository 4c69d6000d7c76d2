import Cncpp.Defines

/-! Points with optional coordinates.  A missing coordinate is inherited by
`modal`; reading it throws. -/

namespace Cncpp

open DataArith

structure Point (K : Type) where
  x : Option K := none
  y : Option K := none
  z : Option K := none

namespace Point

variable {K : Type}

/-- A point with its three coordinates. -/
def ofCoords (x y z : K) : Point K := ⟨some x, some y, some z⟩

def isComplete (p : Point K) : Bool := p.x.isSome && p.y.isSome && p.z.isSome

def value : Option K → Except (Exn K) K
  | some v => .ok v
  | none => .error .badOptionalAccess

def getX (p : Point K) : Except (Exn K) K := value p.x
def getY (p : Point K) : Except (Exn K) K := value p.y
def getZ (p : Point K) : Except (Exn K) K := value p.z

variable [DataArith K]

def delta (p o : Point K) : Except (Exn K) (Point K) :=
  match p, o with
  | ⟨some px, some py, some pz⟩, ⟨some ox, some oy, some oz⟩ =>
    .ok (ofCoords (px - ox) (py - oy) (pz - oz))
  | _, _ => .error .incompleteDelta

def length (p : Point K) : Except (Exn K) K :=
  match p with
  | ⟨some x, some y, some z⟩ => .ok (hypot3 x y z)
  | _ => .error .incompleteLength

omit [DataArith K] in
/-- Modal completion: coordinates that `p` lacks are taken from `o`. -/
def modal (p o : Point K) : Point K :=
  ⟨p.x.or o.x, p.y.or o.y, p.z.or o.z⟩

end Point

section

variable {K : Type}

@[simp] theorem Point.isComplete_ofCoords (x y z : K) :
    (Point.ofCoords x y z).isComplete = true := rfl
@[simp] theorem Point.getX_ofCoords (x y z : K) :
    (Point.ofCoords x y z).getX = .ok x := rfl
@[simp] theorem Point.getY_ofCoords (x y z : K) :
    (Point.ofCoords x y z).getY = .ok y := rfl
@[simp] theorem Point.getZ_ofCoords (x y z : K) :
    (Point.ofCoords x y z).getZ = .ok z := rfl
@[simp] theorem Point.modal_nil (o : Point K) : (⟨none, none, none⟩ : Point K).modal o = o := by
  cases o; rfl

theorem Point.isComplete_iff (p : Point K) :
    p.isComplete = true ↔ ∃ x y z, p = .ofCoords x y z := by
  constructor
  · intro h
    rcases p with ⟨_ | x, _ | y, _ | z⟩ <;> first | (cases h; done) | exact ⟨x, y, z, rfl⟩
  · rintro ⟨x, y, z, rfl⟩; rfl

theorem Point.value_eq_ok {o : Option K} {v : K} :
    (Point.value o : Except (Exn K) K) = .ok v ↔ o = some v := by
  cases o with
  | none => constructor <;> (intro h; cases h)
  | some w => constructor <;> (intro h; cases h; rfl)

/-- The three coordinates can be read exactly where they are set. -/
theorem Point.get_eq_ok {p : Point K} {x y z : K} :
    (p.getX = .ok x ∧ p.getY = .ok y ∧ p.getZ = .ok z) ↔ p = .ofCoords x y z := by
  simp only [Point.getX, Point.getY, Point.getZ, Point.value_eq_ok]
  constructor
  · rintro ⟨hx, hy, hz⟩; cases p; simp_all [Point.ofCoords]
  · rintro rfl; exact ⟨rfl, rfl, rfl⟩

theorem Point.modal_ofCoords (p : Point K) (x y z : K) :
    p.modal (.ofCoords x y z) = .ofCoords (p.x.getD x) (p.y.getD y) (p.z.getD z) := by
  rcases p with ⟨_ | _, _ | _, _ | _⟩ <;> rfl

variable [DataArith K]

@[simp] theorem Point.delta_ofCoords (px py pz ox oy oz : K) :
    (Point.ofCoords px py pz).delta (.ofCoords ox oy oz) =
      .ok (.ofCoords (px - ox) (py - oy) (pz - oz)) := rfl
@[simp] theorem Point.length_ofCoords (x y z : K) :
    (Point.ofCoords x y z).length = .ok (hypot3 x y z) := rfl

end

end Cncpp
