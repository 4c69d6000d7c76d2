import Cncpp.Machine

/-! G-code blocks: construction with inheritance from the previous block, the
parser, the arc geometry, the motion profile and the interpolation.

A block is an object with an identity: `addr` stands for its address, and
`prev` and `next` hold addresses.  The methods that follow `prev` take the block
it points to as an argument. -/

namespace Cncpp

open DataArith Lib.ExceptState

abbrev Addr := ℕ

/-- The motion type: an `enum class` over `int`, so every `int` is a value. -/
structure BlockType where
  toInt : ℤ
  deriving DecidableEq, Repr

namespace BlockType

def rapid : BlockType := ⟨0⟩
def line : BlockType := ⟨1⟩
def cwa : BlockType := ⟨2⟩
def ccwa : BlockType := ⟨3⟩
def noMotion : BlockType := ⟨4⟩

/-- The types of arcs. -/
def IsArc (t : BlockType) : Prop := t = cwa ∨ t = ccwa

/-- The types of the blocks that are interpolated along a profile. -/
def Interpolated (t : BlockType) : Prop := t = line ∨ t.IsArc

instance (t : BlockType) : Decidable t.IsArc := inferInstanceAs (Decidable (_ ∨ _))
instance (t : BlockType) : Decidable t.Interpolated := inferInstanceAs (Decidable (_ ∨ _))

end BlockType

/-- The kinematic profile of a block. -/
structure Profile (K : Type) where
  a : K
  d : K
  f : K
  l : K
  dt1 : K
  dtM : K
  dt2 : K
  dt : K

/-- What a profile reports at one time: the progress, the speed in mm/min and
the current acceleration. -/
structure Sample (K : Type) where
  lambda : K
  speed : K
  currentAcc : K

structure Block (K : Type) where
  addr : Addr
  line : Line
  n : ℕ
  parsed : Bool
  target : Point K
  center : Point K
  delta : Point K
  length : K
  i : K
  j : K
  r : K
  theta0 : K
  dtheta : K
  feedrate : K
  arcFeedrate : K
  spindle : K
  acc : K
  m : ℕ
  tool : ℕ
  type : BlockType
  profile : Profile K
  /-- The machine pointer is set. -/
  hasMachine : Bool
  prev : Option Addr
  next : Option Addr

/-- Block operations keep their effects when they throw. -/
abbrev BlockM (K : Type) := EStateM (Exn K) (Block K)

variable {K : Type} [DataArith K]

namespace Profile

def zero : Profile K :=
  ⟨num 0, num 0, num 0, num 0, num 0, num 0, num 0, num 0⟩

/-- The accelerations follow from the speed and the durations of the phases. -/
def ofPhases (l f dt1 dtM dt2 dt : K) : Profile K where
  a := f / dt1
  d := -(f / dt2)
  f := f
  l := l
  dt1 := dt1
  dtM := dtM
  dt2 := dt2
  dt := dt

/-- The walked distance at time `t`, not yet normalised, the speed in mm/s and
the acceleration. -/
def phase (p : Profile K) (t : K) : K × K × K :=
  if lt t (num 0) then (num 0, num 0, num 0)
  else if lt t p.dt1 then (p.a * t * t / num 2, p.a * t, p.a)
  else if lt t (p.dt1 + p.dtM) then (p.f * (p.dt1 / num 2 + (t - p.dt1)), p.f, num 0)
  else if lt t (p.dt1 + p.dtM + p.dt2) then
    let t2 := p.dt1 + p.dtM
    (p.f * (p.dt1 / num 2 + p.dtM) + p.f * (t - t2) + p.d / num 2 * (t * t + t2 * t2)
      - p.d * t * t2, p.f + p.d * (t - t2), p.d)
  else (p.l, num 0, num 0)

def lambda (p : Profile K) (t : K) : Sample K :=
  let (r, s, acc) := p.phase t
  ⟨r / p.l, s * num 60, acc⟩

end Profile

namespace Block

/-! ## Life cycle -/

/-- `Block(line)`. -/
def ofLine (addr : Addr) (line : Line) : Block K where
  addr := addr
  line := line
  n := 0
  parsed := false
  target := {}
  center := {}
  delta := {}
  length := num 0
  i := num 0
  j := num 0
  r := num 0
  theta0 := num 0
  dtheta := num 0
  feedrate := num 0
  arcFeedrate := num 0
  spindle := num 0
  acc := num 0
  m := 0
  tool := 0
  type := .noMotion
  profile := .zero
  hasMachine := false
  prev := none
  next := none

omit [DataArith K] in
/-- `operator=`: the modal state is copied, and the two blocks are linked.
Returns this block and the source block. -/
def assign (b o : Block K) : Except (Exn K) (Block K × Block K) :=
  if o.parsed then
    .ok ({ b with
        tool := o.tool
        feedrate := o.feedrate
        spindle := o.spindle
        n := (o.n + 1) % 2 ^ 64
        target := {}
        prev := some o.addr },
      { o with next := some b.addr })
  else .error .copyNotParsed

/-- `Block(line, prev)`. -/
def ofPrev (addr : Addr) (line : Line) (prev : Block K) :
    Except (Exn K) (Block K × Block K) :=
  (ofLine addr line).assign prev

omit [DataArith K] in
/-- `desc`, of which only the failure matters here. -/
def desc (b : Block K) : Except (Exn K) Unit :=
  if b.parsed then .ok () else .error .describeNotParsed

/-! ## Tokens -/

def readInt (arg : List Char) : Except (Exn K) ℤ :=
  (stoi arg).mapError (.ofConv "stoi")

def readData (arg : List Char) : Except (Exn K) K :=
  match stod arg with
  | .ok v => .ok (ofNumeral v)
  | .error e => .error (.ofConv "stod" e)

/-- `parse_token`: false on a comment.  The case of `N` has no `break`, so it
goes on with the case of `G`. -/
def parseToken (prev : Option (Block K)) (token : Token) : BlockM K Bool :=
  let cmd := (token.headD ' ').toUpper
  let arg := token.tail
  let setType : BlockM K Bool := do
    let v ← ofExcept (readInt arg)
    modify ({ · with type := ⟨v⟩ })
    pure true
  if cmd = '#' ∨ cmd = ';' then pure false
  else if arg = [] then throw (.missingArgument cmd)
  else match cmd with
    | 'N' => do
      let v ← ofExcept (readInt arg)
      modify ({ · with n := sizeT v })
      match prev with
      | some p => if sizeT v ≤ p.n then throw (.blockNumber arg p.n) else setType
      | none => setType
    | 'G' => setType
    | 'X' => do
      let v ← ofExcept (readData arg)
      modify fun b => { b with target := { b.target with x := some v } }
      pure true
    | 'Y' => do
      let v ← ofExcept (readData arg)
      modify fun b => { b with target := { b.target with y := some v } }
      pure true
    | 'Z' => do
      let v ← ofExcept (readData arg)
      modify fun b => { b with target := { b.target with z := some v } }
      pure true
    | 'I' => do let v ← ofExcept (readData arg); modify ({ · with i := v }); pure true
    | 'J' => do let v ← ofExcept (readData arg); modify ({ · with j := v }); pure true
    | 'R' => do let v ← ofExcept (readData arg); modify ({ · with r := v }); pure true
    | 'F' => do let v ← ofExcept (readData arg); modify ({ · with feedrate := v }); pure true
    | 'S' => do let v ← ofExcept (readData arg); modify ({ · with spindle := v }); pure true
    | 'T' => do let v ← ofExcept (readInt arg); modify ({ · with tool := sizeT v }); pure true
    | 'M' => do let v ← ofExcept (readInt arg); modify ({ · with m := sizeT v }); pure true
    | _ => throw (.unknownCommand cmd)

/-- The token loop of `parse`: it stops at a comment, and an exception is
reported with the line and the token. -/
def parseTokens (prev : Option (Block K)) (line : Line) : List Token → BlockM K Unit
  | [] => pure ()
  | t :: ts => fun b =>
    match parseToken prev t b with
    | .error e b' => .error (.parsingError line t e) b'
    | .ok false b' => .ok () b'
    | .ok true b' => parseTokens prev line ts b'

/-! ## Geometry and profile -/

omit [DataArith K] in
/-- The target of the previous block, or the machine reference point. -/
def startPoint (m : Machine K) (prev : Option (Block K)) (b : Block K) :
    Except (Exn K) (Point K) :=
  if b.hasMachine then
    match prev with
    | some p => .ok p.target
    | none => .ok m.zero
  else .error (.machineNotSet b.n)

/-- The profile that `compute` stores, for a path of length `l`, the machine
acceleration `A` and the feed `fM` in mm/s. -/
def motionProfile (m : Machine K) (l A fM : K) : Profile K :=
  let dt1 := fM / A
  let dt2 := dt1
  let dtM := l / fM - (dt1 + dt2) / num 2
  if lt (num 0) dtM then                          -- long block, trapezoid
    let (dt, dq) := m.quantize (dt1 + dtM + dt2)
    let dtM := dtM + dq
    let fM := num 2 * l / (dt1 + dt2 + num 2 * dtM)
    .ofPhases l fM dt1 dtM dt2 dt
  else                                            -- short block, triangle
    let dt1 := sqrt (l / A)
    let dt2 := dt1
    let (dt, dq) := m.quantize (dt1 + dt2)
    let dt2 := dt2 + dq
    let fM := num 2 * l / (dt1 + dt2)
    .ofPhases l fM dt1 (num 0) dt2 dt

def compute (m : Machine K) (b : Block K) : Block K :=
  { b with profile := motionProfile m b.length b.acc (b.arcFeedrate / num 60) }

/-- The centre of an arc of radius `r` with the sign table of `calc_arc`. -/
def radiusCenter (type : BlockType) (r x0 y0 xf yf dx dy : K) : K × K :=
  let s : ℤ := (if lt (num 0) r then 1 else 0) - (if lt r (num 0) then 1 else 0)
  let s := s * (if type = .ccwa then 1 else -1)
  let d := hypot dx dy
  let sq := sqrt (pow r (num 2) - pow d (num 2) / num 4) / d
  ((x0 + xf) / num 2 - num s * dy * sq, (y0 + yf) / num 2 + num s * dx * sq)

/-- The net angle of the sweep: the complement is taken when it is negative,
and for a clockwise arc the negative complement. -/
def sweep (type : BlockType) (theta0 thetaF : K) : K :=
  let dtheta := thetaF - theta0
  let dtheta := if lt dtheta (num 0) then num 2 * pi + dtheta else dtheta
  if type = .cwa then -(num 2 * pi - dtheta) else dtheta

/-- The part of `calc_arc` that finds the centre. -/
def arcCenter (m : Machine K) (x0 y0 xf yf : K) : BlockM K (K × K) := do
  let b ← get
  if nonzero b.r then                             -- the radius is given
    let dx ← ofExcept b.delta.getX
    let dy ← ofExcept b.delta.getY
    pure (radiusCenter b.type b.r x0 y0 xf yf dx dy)
  else                                            -- I and J are given
    let r := hypot b.i b.j
    modify ({ · with r := r })
    let xc := x0 + b.i
    let yc := y0 + b.j
    let r2 := hypot (xf - xc) (yf - yc)
    if lt m.error (fabs (r - r2)) then throw (.arcMismatch b.n (r - r2) m.maxError)
    else pure (xc, yc)

/-- The arc fields, once the centre is known and `r` holds the signed radius. -/
def setArc (x0 y0 xf yf xc yc : K) (b : Block K) : Block K :=
  let theta0 := atan2 (y0 - yc) (x0 - xc)
  let dtheta := sweep b.type theta0 (atan2 (yf - yc) (xf - xc))
  { b with
    center := { b.center with x := some xc, y := some yc }
    theta0 := theta0
    dtheta := dtheta
    length := fabs (dtheta * b.r)
    r := fabs b.r }

def calcArc (m : Machine K) (prev : Option (Block K)) : BlockM K Unit := do
  let b ← get
  let p0 ← ofExcept (b.startPoint m prev)
  let x0 ← ofExcept p0.getX
  let y0 ← ofExcept p0.getY
  let _ ← ofExcept p0.getZ
  let xf ← ofExcept b.target.getX
  let yf ← ofExcept b.target.getY
  let _ ← ofExcept b.target.getZ
  let c ← arcCenter m x0 y0 xf yf
  modify (setArc x0 y0 xf yf c.1 c.2)
  let b ← get
  if isnan b.r || isinf b.r then throw (.invalidRadius b.n b.r)

/-- The feedrate that keeps the centripetal acceleration within `A`. -/
def arcLimit (A r : K) : K := pow (A * A * r * r) (num (1 / 4)) * num 60

/-- The middle of `parse`: modal completion of the target, and the path length. -/
def fillTarget (m : Machine K) (prev : Option (Block K)) : BlockM K Unit := do
  let b ← get
  let p0 ← ofExcept (b.startPoint m prev)
  let target := b.target.modal p0
  modify ({ · with target := target })
  let delta ← ofExcept (target.delta p0)
  modify ({ · with delta := delta, acc := m.A })
  let length ← ofExcept delta.length
  modify ({ · with length := length })

/-- The end of `parse`: the profile, by the motion type. -/
def calcProfile (m : Machine K) (prev : Option (Block K)) : BlockM K Unit := do
  let b ← get
  if b.type = .line then
    modify fun b => compute m { b with arcFeedrate := b.feedrate }
  else if b.type = .cwa ∨ b.type = .ccwa then
    calcArc m prev
    modify fun b => compute m { b with arcFeedrate := DataArith.min b.feedrate (arcLimit m.A b.r) }

def parse (m : Machine K) (prev : Option (Block K)) : BlockM K Unit := do
  modify ({ · with hasMachine := true })
  let b ← get
  parseTokens prev b.line (words b.line)
  fillTarget m prev
  calcProfile m prev
  modify ({ · with parsed := true })

/-! ## Trajectory -/

/-- `lambda(time, speed)`. -/
def lambda (b : Block K) (time : K) : Except (Exn K) (Sample K) :=
  if b.parsed then .ok (b.profile.lambda time) else .error .lambdaNotParsed

/-- `interpolate(lambda)`. -/
def interpolate (m : Machine K) (prev : Option (Block K)) (b : Block K) (lambda : K) :
    Except (Exn K) (Point K) := do
  if !b.parsed then throw .interpolationNotParsed
  let p0 ← b.startPoint m prev
  let (x, y) ← if b.type = .line then do
      pure ((← p0.getX) + (← b.delta.getX) * lambda, (← p0.getY) + (← b.delta.getY) * lambda)
    else if b.type = .cwa ∨ b.type = .ccwa then do
      let angle := b.theta0 + b.dtheta * lambda
      pure ((← b.center.getX) + b.r * cos angle, (← b.center.getY) + b.r * sin angle)
    else throw (.cannotInterpolate b.line)
  pure (.ofCoords x y ((← p0.getZ) + (← b.delta.getZ) * lambda))

/-- `interpolate(time, lambda, speed)`. -/
def interpolateAt (m : Machine K) (prev : Option (Block K)) (b : Block K) (time : K) :
    Except (Exn K) (Point K × Sample K) := do
  let s ← b.lambda time
  pure (← b.interpolate m prev s.lambda, s)

/-- The loop of `walk` from the time `t` on: what the callback is called with.  Without
enough fuel there is no result. -/
def walkFrom (b : Block K) (tq : K) : ℕ → K → Except (Exn K) (Option (List (K × Sample K)))
  | 0, _ => .ok none
  | fuel + 1, t =>
    if le t b.profile.dt then do
      let s ← b.lambda t
      let visits ← walkFrom b tq fuel (t + tq)
      pure (visits.map ((t, s) :: ·))
    else .ok (some [])

/-- `walk`. -/
def walk (m : Machine K) (b : Block K) (fuel : ℕ) :
    Except (Exn K) (Option (List (K × Sample K))) := walkFrom b m.tq fuel (num 0)

end Block

end Cncpp
