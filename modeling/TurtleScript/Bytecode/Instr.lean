import TurtleScript.Bytecode.Opcode

/-!
# Instructions

Operands are signed 32-bit words. The operand of a jump is relative: the index of
the target minus the jump's own. An instruction has the operands of its opcode and no
others; words that are kept beside them and that neither run nor are written down have
no place here.
-/
namespace TurtleScript

inductive Arith where
  | add | sub | mul | div | mod
deriving DecidableEq, Repr

inductive Comparison where
  | lt | gt | le | ge
deriving DecidableEq, Repr

inductive Connective where
  | and | or
deriving DecidableEq, Repr

/-- When a jump is taken. -/
inductive JumpKind where
  | always | ifFalse | ifTrue
deriving DecidableEq, Repr

inductive Instr where
  | nop
  | loadConst (index : Int32)
  | loadLocal (slot : Int32)
  | storeLocal (slot : Int32)
  | loadGlobal (index : Int32)
  | storeGlobal (index : Int32)
  | pushInt (n : Int32)
  /-- Pushes the default value of a type of the catalogue. -/
  | pushDefault (type : Int32)
  | pop
  | dup
  | arith (op : Arith)
  | compare (op : Comparison)
  /-- Equality of two scalars. -/
  | eq
  | logic (op : Connective)
  /-- Truncates a double to an integer. -/
  | toInt
  | intMul
  /-- Adds integers; an array plus an integer is the address of an element. -/
  | intAdd
  | newArray (count type : Int32)
  | length
  | getField (field stride : Int32)
  /-- Stores into a field; the value stays on the stack. -/
  | setField (field stride : Int32)
  | jump (kind : JumpKind) (delta : Int32)
  | call (function argc : Int32)
  | callNative (native argc : Int32)
  /-- Returns with one value if `count` is one, with none otherwise. -/
  | ret (count : Int32)
  | halt
deriving DecidableEq, Repr, Inhabited

def Arith.opcode : Arith → Opcode
  | .add => .add
  | .sub => .sub
  | .mul => .mul
  | .div => .div
  | .mod => .mod

def Comparison.opcode : Comparison → Opcode
  | .lt => .lt
  | .gt => .gt
  | .le => .le
  | .ge => .ge

def Connective.opcode : Connective → Opcode
  | .and => .and
  | .or => .or

def JumpKind.opcode : JumpKind → Opcode
  | .always => .jump
  | .ifFalse => .jumpIfFalse
  | .ifTrue => .jumpIfTrue

namespace Instr

def opcode : Instr → Opcode
  | nop => .nop
  | loadConst _ => .loadConst
  | loadLocal _ => .loadLocal
  | storeLocal _ => .storeLocal
  | loadGlobal _ => .loadGlobal
  | storeGlobal _ => .storeGlobal
  | pushInt _ => .pushInt
  | pushDefault _ => .pushDefault
  | pop => .pop
  | dup => .dup
  | arith op => op.opcode
  | compare op => op.opcode
  | eq => .eq
  | logic op => op.opcode
  | toInt => .toInt
  | intMul => .intMul
  | intAdd => .intAdd
  | newArray _ _ => .newArray
  | length => .length
  | getField _ _ => .getField
  | setField _ _ => .setField
  | jump kind _ => kind.opcode
  | call _ _ => .call
  | callNative _ _ => .callNative
  | ret _ => .ret
  | halt => .halt

def operands : Instr → List Int32
  | loadConst a | loadLocal a | storeLocal a | loadGlobal a | storeGlobal a | pushInt a
  | pushDefault a | jump _ a | ret a => [a]
  | newArray a b | getField a b | setField a b | call a b | callNative a b => [a, b]
  | _ => []

/-- The instruction with this operation and these operands, if their number is right. -/
def ofParts? : Opcode → List Int32 → Option Instr
  | .nop, [] => some nop
  | .loadConst, [a] => some (loadConst a)
  | .loadLocal, [a] => some (loadLocal a)
  | .storeLocal, [a] => some (storeLocal a)
  | .loadGlobal, [a] => some (loadGlobal a)
  | .storeGlobal, [a] => some (storeGlobal a)
  | .pushInt, [a] => some (pushInt a)
  | .pushDefault, [a] => some (pushDefault a)
  | .pop, [] => some pop
  | .dup, [] => some dup
  | .add, [] => some (arith .add)
  | .sub, [] => some (arith .sub)
  | .mul, [] => some (arith .mul)
  | .div, [] => some (arith .div)
  | .mod, [] => some (arith .mod)
  | .lt, [] => some (compare .lt)
  | .gt, [] => some (compare .gt)
  | .le, [] => some (compare .le)
  | .ge, [] => some (compare .ge)
  | .eq, [] => some eq
  | .and, [] => some (logic .and)
  | .or, [] => some (logic .or)
  | .toInt, [] => some toInt
  | .intMul, [] => some intMul
  | .intAdd, [] => some intAdd
  | .newArray, [a, b] => some (newArray a b)
  | .length, [] => some length
  | .getField, [a, b] => some (getField a b)
  | .setField, [a, b] => some (setField a b)
  | .jump, [a] => some (jump .always a)
  | .jumpIfFalse, [a] => some (jump .ifFalse a)
  | .jumpIfTrue, [a] => some (jump .ifTrue a)
  | .call, [a, b] => some (call a b)
  | .callNative, [a, b] => some (callNative a b)
  | .ret, [a] => some (ret a)
  | .halt, [] => some halt
  | _, _ => none

theorem ofParts?_parts (i : Instr) : ofParts? i.opcode i.operands = some i := by
  cases i with
  | arith op => cases op <;> rfl
  | compare op => cases op <;> rfl
  | logic op => cases op <;> rfl
  | jump kind _ => cases kind <;> rfl
  | _ => rfl

/-- Aims a jump anew; other instructions stay as they are. -/
def withDelta (delta : Int32) : Instr → Instr
  | jump kind _ => jump kind delta
  | i => i

/-- Bytes in the binary form: one for the operation, four for each operand. -/
def encodedLength (i : Instr) : Nat := 1 + 4 * i.opcode.arity

def text (i : Instr) : String :=
  " ".intercalate (i.opcode.name :: i.operands.map fun a => toString a.toInt)

end Instr

end TurtleScript
