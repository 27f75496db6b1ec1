import TurtleScript.Bytecode.Instr
import TurtleScript.Diagnostic

/-!
# Code under construction

A marker names a place in the code of one function, so that a jump can be put there
after the code it has to skip is known. Putting an instruction at a marker inserts
it, and everything that named a later place moves along: a marker at a larger index,
and a marker at the same index if it was acquired later, since the code it names
comes after the inserted instruction. A jump keeps its own place and a copy of the
marker it aims at; both follow the same rule, and its operand is their distance.
-/
namespace TurtleScript

/-- A place in the code of a function. -/
structure Marker where
  id : Nat
  function : Nat
deriving DecidableEq, Repr

/-- Where a marker stands now. -/
structure Anchor where
  id : Nat
  index : Nat
deriving DecidableEq, Repr

/-- The place after an insertion at `spot`. -/
def Anchor.shift (a spot : Anchor) : Anchor :=
  if spot.index < a.index ∨ (a.index = spot.index ∧ spot.id < a.id) then
    { a with index := a.index + 1 }
  else a

/-- A jump that has its target. -/
structure AimedJump where
  site : Nat
  target : Anchor
deriving DecidableEq, Repr

namespace AimedJump

/-- The jump after an insertion at `spot`; an instruction at the spot itself moves. -/
def shift (spot : Anchor) (j : AimedJump) : AimedJump where
  site := if spot.index ≤ j.site then j.site + 1 else j.site
  target := j.target.shift spot

def delta (j : AimedJump) : Int32 := Int32.ofInt (j.target.index - j.site : Int)

/-- Writes the distance into the jump. -/
def aim (code : Array Instr) (j : AimedJump) : Array Instr :=
  code.modify j.site (·.withDelta j.delta)

end AimedJump

/-- The code of one function, the markers in use and the jumps that have a target. -/
structure CodeBuilder where
  function : Nat
  code : Array Instr := #[]
  live : List Anchor := []
  jumps : List AimedJump := []
  nextMarker : Nat := 0
deriving DecidableEq, Repr

namespace CodeBuilder

/-- A step of construction. A failed step keeps what it wrote before it failed. -/
abbrev Build := EStateM Diagnostic CodeBuilder

def fail {α : Type} (p : CodeProblem) : Build α := throw ⟨.code p, {}⟩

/-- Appends an instruction and gives its index. -/
def emit (i : Instr) : Build Nat :=
  modifyGet fun b => (b.code.size, { b with code := b.code.push i })

/-- A marker for the end of the code so far. -/
def acquire : Build Marker :=
  modifyGet fun b =>
    ({ id := b.nextMarker, function := b.function },
      { b with live := b.live ++ [{ id := b.nextMarker, index := b.code.size }],
               nextMarker := b.nextMarker + 1 })

/-- The place of a marker, if it belongs to this function and is in use. -/
def anchor (m : Marker) : Build Anchor := do
  let b ← get
  if m.function ≠ b.function then fail (.foreignMarker m.function b.function)
  match b.live.find? (·.id = m.id) with
  | some a => return a
  | none => fail (.deadMarker m.id)

def index (m : Marker) : Build Nat := return (← anchor m).index

/-- Puts an instruction at a place in use; all other places move along. -/
def insert (b : CodeBuilder) (spot : Anchor) (i : Instr) : CodeBuilder :=
  let jumps := b.jumps.map (·.shift spot)
  { b with
    code := jumps.foldl AimedJump.aim (b.code.insertIdxIfInBounds spot.index i)
    live := b.live.map fun a => if a.id = spot.id then a else a.shift spot
    jumps }

/-- Puts an instruction at the marker and gives its index. -/
def place (m : Marker) (i : Instr) : Build Nat := do
  let spot ← anchor m
  modify (·.insert spot i)
  return spot.index

/-- Aims the jump at `site`. -/
def aim (site : Nat) (target : Marker) : Build Unit := do
  let jump : AimedJump := { site, target := ← anchor target }
  modify fun b => { b with code := jump.aim b.code, jumps := b.jumps ++ [jump] }

/-- Puts a jump at a marker. -/
def placeJump (m : Marker) (kind : JumpKind) (target : Marker) : Build Unit := do
  aim (← place m (.jump kind 0)) target

/-- Appends a jump and gives its index. -/
def emitJump (kind : JumpKind) (target : Marker) : Build Nat := do
  let site ← emit (.jump kind 0)
  aim site target
  return site

/-- Ends the use of a marker. Jumps aimed at it stay aimed. -/
def release (m : Marker) : Build Unit := do
  let spot ← anchor m
  modify fun b => { b with live := b.live.erase spot }

/-- The finished code; every marker must have been released. -/
def finish (b : CodeBuilder) : Except Diagnostic (Array Instr) :=
  if b.live.isEmpty then .ok b.code
  else .error ⟨.code (.liveMarkers b.function b.live.length), {}⟩

end CodeBuilder

end TurtleScript
