import TurtleScript.Bytecode.Constant
import TurtleScript.Host

/-!
# Values at run time

Arrays live in a heap and are shared: a value holds only the number of its cell. An
address is an array and a byte offset into its payload.
-/
namespace TurtleScript

inductive Value where
  /-- What a slot without a type holds. -/
  | empty
  | boolean (b : Bool)
  | double (d : Double)
  /-- A result of address arithmetic. -/
  | int (n : Int64)
  | string (s : String)
  | array (ref : Nat)
  | address (ref : Nat) (offset : Int64)
deriving DecidableEq, Repr, Inhabited

/-- What messages call a value. -/
inductive ValueClass where
  | empty | boolean | number | integer | string | array | address
deriving DecidableEq, Repr

def ValueClass.name : ValueClass → String
  | .empty => "empty"
  | .boolean => "boolean"
  | .number => "number"
  | .integer => "integer"
  | .string => "string"
  | .array => "array"
  | .address => "address"

namespace Value

def classOf : Value → ValueClass
  | .empty => .empty
  | .boolean _ => .boolean
  | .double _ => .number
  | .int _ => .integer
  | .string _ => .string
  | .array _ => .array
  | .address _ _ => .address

def double? : Value → Option Double
  | .double d => some d
  | _ => none

def bool? : Value → Option Bool
  | .boolean b => some b
  | _ => none

def string? : Value → Option String
  | .string s => some s
  | _ => none

def ofConstant : Constant → Value
  | .boolean b => .boolean b
  | .double d => .double d
  | .string s => .string s

end Value

/-- An array. -/
structure Cell where
  elementType : UInt32
  /-- The bytes an element counts for in addresses. -/
  stride : UInt32
  elements : Array Value
deriving DecidableEq, Repr

structure Heap where
  cells : Array Cell := #[]
deriving DecidableEq, Repr

namespace Heap

/-- A new array. -/
def alloc (h : Heap) (c : Cell) : Nat × Heap := (h.cells.size, ⟨h.cells.push c⟩)

/-- The array with this number; where there is none, an empty one. -/
def cell (h : Heap) (ref : Nat) : Cell :=
  (h.cells[ref]?).getD { elementType := 0, stride := 0, elements := #[] }

def write (h : Heap) (ref index : Nat) (v : Value) : Heap :=
  ⟨h.cells.modify ref fun c => { c with elements := c.elements.setIfInBounds index v }⟩

/-- The value a variable of a kind starts with. -/
def defaultOf (h : Heap) : Kind → Value × Heap
  | .boolean => (.boolean false, h)
  | .byte | .int16 | .int32 | .int64 => (.int 0, h)
  | .single | .double => (.double .zero, h)
  | .string => (.string "", h)
  | .array =>
    let (ref, h) := h.alloc { elementType := Kind.empty.id, stride := 0, elements := #[] }
    (.array ref, h)
  | .struct | .empty => (.empty, h)

/-- The value a variable of a type starts with. -/
def defaultFor (h : Heap) : Ty → Value × Heap
  | .array element =>
    let (ref, h) := h.alloc { elementType := element.id, stride := element.size, elements := #[] }
    (.array ref, h)
  | t => h.defaultOf t.kind

/-- The text of a value whose arrays nest less than `depth` deep. -/
def textWithin (h : Heap) (depth : Nat) (v : Value) : Option String :=
  match v with
  | .empty => some ""
  | .boolean b => some (if b then "true" else "false")
  | .double d => some d.text
  | .int n => some (toString n.toInt)
  | .string s => some s
  | .address _ offset => some ("<address +" ++ toString offset.toInt ++ ">")
  | .array ref =>
    match depth with
    | 0 => none
    | depth + 1 => do
      let parts ← (h.cell ref).elements.toList.mapM (h.textWithin depth)
      return "[" ++ ", ".intercalate parts ++ "]"
termination_by structural depth

/-- The text of a value; an array that contains itself has none. -/
def text? (h : Heap) (v : Value) : Option String := h.textWithin (h.cells.size + 1) v

/-- Equality of values whose arrays nest less than `depth` deep. Arrays are equal if
they are the same or have equal parts, addresses if they are the same. -/
def equalWithin (h : Heap) (depth : Nat) (v w : Value) : Bool :=
  match v, w with
  | .empty, .empty => true
  | .boolean a, .boolean b => a = b
  | .double a, .double b => a.equal b
  | .int a, .int b => a = b
  | .string a, .string b => a = b
  | .address a x, .address b y => a = b && x = y
  | .array a, .array b =>
    a = b ||
      match depth with
      | 0 => false
      | depth + 1 =>
        let x := h.cell a
        let y := h.cell b
        x.elementType = y.elementType && x.stride = y.stride &&
          x.elements.size = y.elements.size &&
          (x.elements.zip y.elements).all fun (v, w) => h.equalWithin depth v w
  | _, _ => false
termination_by structural depth

def equal (h : Heap) (v w : Value) : Bool := h.equalWithin (h.cells.size + 1) v w

end Heap

/-- The values the host's variables start with. -/
def Host.startGlobals (host : Host) (h : Heap) : Array Value × Heap :=
  host.globals.foldl (fun (globals, h) v =>
    let (value, h) := h.defaultFor v.type
    (globals.push value, h)) (#[], h)

end TurtleScript
