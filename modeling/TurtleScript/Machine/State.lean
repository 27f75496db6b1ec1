import TurtleScript.Bytecode.Module
import TurtleScript.Machine.Fault

/-!
# States of the machine

All functions share one operand stack. A frame remembers how high the stack was when
its function was entered, and nothing below that height is popped while the function
runs. What the natives act on is a state of the host's own type.
-/
namespace TurtleScript

/-- A function that is running. -/
structure Frame where
  /-- The boot code belongs to no function. -/
  function : Option FunctionDef := none
  /-- The index of the next instruction. -/
  next : Nat := 0
  locals : Array Value := #[]
  /-- The height of the stack at entry. -/
  base : Nat := 0
deriving DecidableEq, Repr

structure State (σ : Type) where
  stack : Array Value := #[]
  frame : Frame := {}
  /-- The frames below, innermost first. -/
  callers : List Frame := []
  globals : Array Value
  heap : Heap
  host : σ

/-- A piece of a step. A piece that stops the run leaves the state it had reached. -/
abbrev Exec (σ : Type) := EStateM Stop (State σ)

/-- A function of the host. It gets its arguments in order, may read and change arrays
and the state of the host, and may return a value. -/
def Native (σ : Type) := List Value → Heap → σ → Except Stop (Option Value) × Heap × σ

namespace Native

variable {σ τ : Type}

/-- A native of a host that is the first half of another. -/
def onFst (f : Native σ) : Native (σ × τ) := fun args h (s, t) =>
  let (r, h, s) := f args h s
  (r, h, s, t)

/-- Joins the texts of its arguments. -/
def concat : Native σ := fun args h s =>
  match args.mapM h.text? with
  | some parts => (.ok (some (.string (String.join parts))), h, s)
  | none => (.error .crash, h, s)

end Native

namespace Exec

variable {σ : Type}

def fault {α : Type} (f : Fault) : Exec σ α := throw (.fault f)

def crash {α : Type} : Exec σ α := throw .crash

def push (v : Value) : Exec σ Unit := modify fun s => { s with stack := s.stack.push v }

def pop (op : Opcode) : Exec σ Value := fun s =>
  if s.stack.size ≤ s.frame.base then .error (.fault (.stackUnderflow op)) s
  else
    match s.stack.back? with
    | some v => .ok v { s with stack := s.stack.pop }
    | none => .error (.fault (.stackUnderflow op)) s

/-- The most values that a stack in memory can hold. -/
def capacity : Nat := UInt64.size / 2 - 1

/-- The last `n` values, the deepest first. The number is a 64-bit word, and its sum with the base
is not checked: it fails if it is no such word. Stacks are unbounded here, so a base that no stack
in memory can have counts as the highest one. -/
def popMany (n : Nat) (op : Opcode) : Exec σ (Array Value) := fun s =>
  if UInt64.size ≤ min s.frame.base capacity + n then .error .crash s
  else if s.stack.size < s.frame.base + n then .error (.fault (.stackUnderflow op)) s
  else
    let height := s.stack.size - n
    let values := s.stack.extract height s.stack.size
    .ok values { s with stack := s.stack.shrink height }

def popDouble (op : Opcode) : Exec σ Double := do
  match ← pop op with
  | .double d => return d
  | v => fault (.typeMismatch op .number v.classOf)

def popBool (op : Opcode) : Exec σ Bool := do
  match ← pop op with
  | .boolean b => return b
  | v => fault (.typeMismatch op .boolean v.classOf)

def popInt (op : Opcode) : Exec σ Int64 := do
  match ← pop op with
  | .int n => return n
  | v => fault (.typeMismatch op .integer v.classOf)

def orFault {α : Type} (f : Fault) : Option α → Exec σ α
  | some a => pure a
  | none => fault f

/-- A new array on the heap. -/
def alloc (c : Cell) : Exec σ Value :=
  modifyGet fun s =>
    let (ref, heap) := s.heap.alloc c
    (.array ref, { s with heap })

def defaultOf (k : Kind) : Exec σ Value :=
  modifyGet fun s =>
    let (v, heap) := s.heap.defaultOf k
    (v, { s with heap })

end Exec

end TurtleScript
