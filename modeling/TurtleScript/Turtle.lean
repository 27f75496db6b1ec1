import TurtleScript.Machine.Run

/-!
# The turtle

A turtle walks over the plane with a pen. Its natives stand in the order in which the
turtle host declares them.
-/
namespace TurtleScript

/-- A line that was drawn. -/
structure Segment where
  startX : Double
  startY : Double
  stopX : Double
  stopY : Double
deriving DecidableEq, Repr

def Segment.length (s : Segment) : Double := (s.stopX.sub s.startX).hypot (s.stopY.sub s.startY)

structure Turtle where
  x : Double := .zero
  y : Double := .zero
  /-- In degrees; zero looks along the first axis. -/
  heading : Double := .zero
  penDown : Bool := true
  segments : Array Segment := #[]
  printed : Array String := #[]
deriving DecidableEq, Repr

namespace Turtle

/-- The double nearest to `pi`. -/
def pi : Double := ⟨0x400921fb54442d18⟩

/-- The double nearest to `pi / 180`. -/
def radiansPerDegree : Double := ⟨0x3f91df46a2529d39⟩

/-- A full turn, 360 degrees. -/
def fullTurn : Double := ⟨0x4076800000000000⟩

def forward (t : Turtle) (distance : Double) : Turtle :=
  let radians := t.heading.mul radiansPerDegree
  let x := t.x.add (distance.mul radians.cos)
  let y := t.y.add (distance.mul radians.sin)
  { t with
    x, y
    segments := if t.penDown then t.segments.push ⟨t.x, t.y, x, y⟩ else t.segments }

/-- The heading stays in one full turn. -/
def turn (t : Turtle) (degrees : Double) : Turtle :=
  { t with heading := (t.heading.add degrees).remEuclid fullTurn }

/-- The length of everything drawn. The empty sum is a negative zero. -/
def distance (t : Turtle) : Double :=
  t.segments.foldl (fun sum s => sum.add s.length) (.ofSign true 0)

/-- A native that takes one number. -/
def onNumber (name : String) (act : Turtle → Double → Turtle) : Native Turtle := fun args h t =>
  match args.head?.bind Value.double? with
  | some d => (.ok none, h, act t d)
  | none => (.error (.fault (.native name "expects one number")), h, t)

def setPen (down : Bool) : Native Turtle := fun _ h t => (.ok none, h, { t with penDown := down })

def print : Native Turtle := fun args h t =>
  match args.head?.elim (some "") h.text? with
  | some line => (.ok none, h, { t with printed := t.printed.push line })
  | none => (.error .crash, h, t)

def natives : List (Native Turtle) :=
  [.concat, .concat, .concat, onNumber "forward" forward, onNumber "turn" turn,
    setPen false, setPen true, print, print]

/-- The values a turtle host's variables start with. -/
def startGlobals (host : Host) (h : Heap) : Array Value × Heap :=
  let (globals, h) := host.startGlobals h
  match host.variableIndex? "pi" with
  | some index => (globals.setIfInBounds index (.double pi), h)
  | none => (globals, h)

end Turtle

end TurtleScript
