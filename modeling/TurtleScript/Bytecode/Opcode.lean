/-!
# Operation codes

Each operation has a byte, a mnemonic and a fixed number of operands.
-/
namespace TurtleScript

inductive Opcode where
  | nop | loadConst | loadLocal | storeLocal | loadGlobal | storeGlobal | pushInt | pushDefault
  | pop | dup
  | add | sub | mul | div | mod
  | lt | gt | le | ge | eq
  | and | or
  | toInt | intMul | intAdd
  | newArray | length | getField | setField
  | jump | jumpIfFalse | jumpIfTrue
  | call | callNative | ret | halt
deriving DecidableEq, Repr

namespace Opcode

/-- Every operation, in the order of the bytes. -/
def all : List Opcode :=
  [.nop, .loadConst, .loadLocal, .storeLocal, .loadGlobal, .storeGlobal, .pushInt, .pushDefault,
    .pop, .dup, .add, .sub, .mul, .div, .mod, .lt, .gt, .le, .ge, .eq, .and, .or, .toInt, .intMul,
    .intAdd, .newArray, .length, .getField, .setField, .jump, .jumpIfFalse, .jumpIfTrue, .call,
    .callNative, .ret, .halt]

def byte : Opcode → UInt8
  | .nop => 0x00
  | .loadConst => 0x01
  | .loadLocal => 0x02
  | .storeLocal => 0x03
  | .loadGlobal => 0x04
  | .storeGlobal => 0x05
  | .pushInt => 0x06
  | .pushDefault => 0x07
  | .pop => 0x08
  | .dup => 0x09
  | .add => 0x10
  | .sub => 0x11
  | .mul => 0x12
  | .div => 0x13
  | .mod => 0x14
  | .lt => 0x18
  | .gt => 0x19
  | .le => 0x1a
  | .ge => 0x1b
  | .eq => 0x1c
  | .and => 0x20
  | .or => 0x21
  | .toInt => 0x28
  | .intMul => 0x29
  | .intAdd => 0x2a
  | .newArray => 0x30
  | .length => 0x31
  | .getField => 0x32
  | .setField => 0x33
  | .jump => 0x40
  | .jumpIfFalse => 0x41
  | .jumpIfTrue => 0x42
  | .call => 0x48
  | .callNative => 0x49
  | .ret => 0x4a
  | .halt => 0x4f

def ofByte? (b : UInt8) : Option Opcode := all.find? (·.byte = b)

def name : Opcode → String
  | .nop => "Nop"
  | .loadConst => "LoadConst"
  | .loadLocal => "LoadLocal"
  | .storeLocal => "StoreLocal"
  | .loadGlobal => "LoadGlobal"
  | .storeGlobal => "StoreGlobal"
  | .pushInt => "PushInt"
  | .pushDefault => "PushDefault"
  | .pop => "Pop"
  | .dup => "Dup"
  | .add => "Add"
  | .sub => "Sub"
  | .mul => "Mul"
  | .div => "Div"
  | .mod => "Mod"
  | .lt => "Lt"
  | .gt => "Gt"
  | .le => "Le"
  | .ge => "Ge"
  | .eq => "Eq"
  | .and => "And"
  | .or => "Or"
  | .toInt => "ToInt"
  | .intMul => "IMul"
  | .intAdd => "IAdd"
  | .newArray => "NewArray"
  | .length => "Length"
  | .getField => "GetField"
  | .setField => "SetField"
  | .jump => "Jump"
  | .jumpIfFalse => "JumpIfFalse"
  | .jumpIfTrue => "JumpIfTrue"
  | .call => "Call"
  | .callNative => "CallNative"
  | .ret => "Ret"
  | .halt => "Halt"

def ofName? (name : String) : Option Opcode := all.find? (·.name = name)

/-- How many operands always follow the operation. -/
def arity : Opcode → Nat
  | .loadConst | .loadLocal | .storeLocal | .loadGlobal | .storeGlobal | .pushInt
  | .pushDefault | .jump | .jumpIfFalse | .jumpIfTrue | .ret => 1
  | .newArray | .getField | .setField | .call | .callNative => 2
  | _ => 0

def isJump : Opcode → Bool
  | .jump | .jumpIfFalse | .jumpIfTrue => true
  | _ => false

theorem ofByte?_byte (op : Opcode) : ofByte? op.byte = some op := by cases op <;> rfl

end Opcode

end TurtleScript
