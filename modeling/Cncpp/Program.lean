import Cncpp.Block

/-! Programs: the list of blocks with its cursor.  A list node keeps its address
until the list is cleared, and `fresh` is the address of the next node, so the
cursor and the links between blocks can be followed, or found to dangle. -/

namespace Cncpp

open DataArith Lib.ExceptState

structure Program (K : Type) where
  blocks : List (Block K)
  filename : String
  /-- The node the iterator designates; `none` is `end()`. -/
  current : Option Addr
  done : Bool
  fresh : Addr

/-- Program operations keep their effects when they throw. -/
abbrev ProgramM (K : Type) := EStateM (Exn K) (Program K)

namespace Program

variable {K : Type}

/-- `Program(m)`: an empty program. -/
def empty : Program K := ⟨[], "", none, false, 0⟩

def addrs (p : Program K) : List Addr := p.blocks.map (·.addr)

def find (p : Program K) (a : Addr) : Option (Block K) := p.blocks.find? (·.addr == a)

/-- The block the cursor designates. -/
def deref (p : Program K) : Option (Block K) := p.current.bind p.find

/-- The node after the one at `a`. -/
def after (a : Addr) : List (Block K) → Option Addr
  | [] => none
  | b :: bs => if b.addr = a then bs.head?.map (·.addr) else after a bs

/-- `load_next`. -/
def loadNext (p : Program K) : Program K :=
  let c := match p.current with
    | none => p.blocks.head?.map (·.addr)
    | some a => after a p.blocks
  { p with current := c, done := c.isNone }

def rewind (p : Program K) : Program K := { p with current := none, done := false }

def reset (p : Program K) : Program K := rewind { p with blocks := [] }

/-- `desc`: the first block that is not parsed throws. -/
def desc (p : Program K) : Except (Exn K) Unit :=
  p.blocks.forM fun b => b.desc

variable [DataArith K]

/-- Parse the block that was just put at the back; it stays there whatever the
outcome. -/
def parseBack (m : Machine K) (front : List (Block K)) (prev : Option (Block K))
    (b : Block K) : ProgramM K Unit := fun p =>
  match (Block.parse m prev).run b with
  | .ok _ b' => .ok () { p with blocks := front ++ [b'] }
  | .error e b' => .error e { p with blocks := front ++ [b'] }

/-- `operator<<`: a line is appended as a new block, and parsed. -/
def append (m : Machine K) (line : Line) : ProgramM K Unit := do
  let p ← get
  match p.blocks.getLast? with
  | some back =>                                  -- not the first block
    let (b, back) ← ofExcept (Block.ofPrev p.fresh line back)
    set { p with fresh := p.fresh + 1 }
    parseBack m (p.blocks.dropLast ++ [back]) (some back) b
  | none =>                                       -- first block
    set { p with fresh := p.fresh + 1 }
    parseBack m [] none (Block.ofLine p.fresh line)

/-- The lines that `load` passes on. -/
def isCode (line : Line) : Bool := !(line.isEmpty || line.head? = some '#')

def appendAll (m : Machine K) : List Line → ProgramM K Unit
  | [] => pure ()
  | line :: lines =>
    if isCode line then do
      append m line
      appendAll m lines
    else appendAll m lines

/-- `load`.  The content of the file, as the lines `getline` returns, is an
input; `none` is a file that cannot be opened. -/
def load (m : Machine K) (filename : String) (content : Option (List Line))
    (append : Bool) : ProgramM K Unit := do
  modify ({ · with filename := filename })
  match content with
  | none => throw (.cannotOpen filename)
  | some lines =>
    if !append then modify reset
    appendAll m lines

end Program

end Cncpp
