import TurtleScript.Bytecode.Opcode
import TurtleScript.Machine.Value

/-!
# What can stop a run
-/
namespace TurtleScript

/-- What an instruction wanted to find on the stack. -/
inductive Expectation where
  | number | boolean | integer | integerOrArray | array | address | scalar
deriving DecidableEq, Repr

def Expectation.name : Expectation → String
  | .number => "number"
  | .boolean => "boolean"
  | .integer => "integer"
  | .integerOrArray => "integer or array"
  | .array => "array"
  | .address => "address"
  | .scalar => "scalar"

/-- The tables and ranges operands point into. -/
inductive Entry where
  | constant | local | global | type | function | native | field | arrayLength | jumpTarget
deriving DecidableEq, Repr

def Entry.name : Entry → String
  | .constant => "constant"
  | .local => "local"
  | .global => "global"
  | .type => "type"
  | .function => "function"
  | .native => "native"
  | .field => "field"
  | .arrayLength => "array length"
  | .jumpTarget => "jump target"

inductive Fault where
  | stackUnderflow (op : Opcode)
  | typeMismatch (op : Opcode) (expected : Expectation) (found : ValueClass)
  | unknownEntry (entry : Entry) (index : Int)
  | arityMismatch (function : String) (expected found : Nat)
  | indexOutOfBounds (index : Int) (length : Nat)
  | misaligned (offset : Int64) (stride : Int32)
  | missingReturnValue (function : String)
  /-- The code ended; without a function it was the boot code. -/
  | fellOffEnd (function : Option String)
  | stepLimit (budget : Nat)
  | native (name message : String)
deriving DecidableEq, Repr

def Fault.message : Fault → String
  | .stackUnderflow op => "stack underflow in " ++ op.name
  | .typeMismatch op expected found =>
    op.name ++ " expects " ++ expected.name ++ ", found " ++ found.name
  | .unknownEntry entry index => "unknown " ++ entry.name ++ s!" #{index}"
  | .arityMismatch function expected found =>
    "function '" ++ function ++ s!"' takes {expected} argument(s), got {found}"
  | .indexOutOfBounds index length =>
    s!"index {index} out of bounds for array of length {length}"
  | .misaligned offset stride =>
    s!"misaligned access: offset {offset.toInt} with stride {stride.toInt}"
  | .missingReturnValue function => "function '" ++ function ++ "' returned without a value"
  | .fellOffEnd function =>
    "execution ran off the end of function '" ++ function.getD "<trampoline>" ++ "'"
  | .stepLimit budget => s!"step limit of {budget} exceeded"
  | .native name message => "native '" ++ name ++ "' failed: " ++ message

/-- Why a run ended early. -/
inductive Stop where
  | fault (f : Fault)
  /-- The machine itself gave up; nothing is reported to the program's user. -/
  | crash
deriving DecidableEq, Repr

end TurtleScript
