import TurtleScript.Machine.State

/-!
# Single steps

`Machine.step` fetches the next instruction of the innermost frame and executes it.
Every operand of every instruction is checked when it is used, so any code may be
run.
-/
namespace TurtleScript

/-- Everything about a run that does not change. -/
structure Machine (σ : Type) where
  module : Module
  natives : Array (Native σ)

/-- An operand as an index, if it is not negative. -/
def Int32.index? (a : Int32) : Option Nat := if 0 ≤ a.toInt then some a.toInt.toNat else none

namespace Machine

variable {σ : Type}

/-- The function that a call of number `id` enters: the last one with that number. -/
def callee? (m : Machine σ) (id : Int32) : Option FunctionDef := do
  let id ← Int32.index? id
  m.module.functions.findRev? (·.id.toNat = id)

def type? (m : Machine σ) (id : Int32) : Option TypeDef := do
  m.module.type? (UInt32.ofNat (← Int32.index? id))

open Exec

def loadConst (m : Machine σ) (a : Int32) : Exec σ Unit := do
  let c ← orFault (.unknownEntry .constant a.toInt)
    ((Int32.index? a).bind (m.module.constants[·]?))
  push (.ofConstant c)

def loadLocal (a : Int32) : Exec σ Unit := fun s =>
  match (Int32.index? a).bind (s.frame.locals[·]?) with
  | some v => push v s
  | none => fault (.unknownEntry .local a.toInt) s

def storeLocal (a : Int32) : Exec σ Unit := do
  let v ← pop .storeLocal
  fun s =>
    match Int32.index? a with
    | some slot =>
      if slot < s.frame.locals.size then
        .ok () { s with
          frame := { s.frame with locals := s.frame.locals.setIfInBounds slot v } }
      else fault (.unknownEntry .local a.toInt) s
    | none => fault (.unknownEntry .local a.toInt) s

def loadGlobal (a : Int32) : Exec σ Unit := fun s =>
  match (Int32.index? a).bind (s.globals[·]?) with
  | some v => push v s
  | none => fault (.unknownEntry .global a.toInt) s

def storeGlobal (a : Int32) : Exec σ Unit := do
  let v ← pop .storeGlobal
  fun s =>
    match Int32.index? a with
    | some index =>
      if index < s.globals.size then
        .ok () { s with globals := s.globals.setIfInBounds index v }
      else fault (.unknownEntry .global a.toInt) s
    | none => fault (.unknownEntry .global a.toInt) s

def arith (op : Arith) : Exec σ Unit := do
  let right ← popDouble op.opcode
  let left ← popDouble op.opcode
  push (.double (match op with
    | .add => left.add right
    | .sub => left.sub right
    | .mul => left.mul right
    | .div => left.div right
    | .mod => left.rem right))

def compare (op : Comparison) : Exec σ Unit := do
  let right ← popDouble op.opcode
  let left ← popDouble op.opcode
  push (.boolean (match op with
    | .lt => left.less right
    | .gt => right.less left
    | .le => left.lessEqual right
    | .ge => right.lessEqual left))

def requireScalar (v : Value) : Exec σ Unit :=
  match v with
  | .array _ | .address _ _ => fault (.typeMismatch .eq .scalar v.classOf)
  | _ => pure ()

/-- Equality of scalars; doubles compare as numbers, values of different classes
differ. -/
def scalarEqual : Value → Value → Bool
  | .double a, .double b => a.equal b
  | a, b => a = b

def eq : Exec σ Unit := do
  let right ← pop .eq
  let left ← pop .eq
  requireScalar left
  requireScalar right
  push (.boolean (scalarEqual left right))

def logic (op : Connective) : Exec σ Unit := do
  let right ← popBool op.opcode
  let left ← popBool op.opcode
  push (.boolean (match op with
    | .and => left && right
    | .or => left || right))

def toInt : Exec σ Unit := do
  push (.int (← popDouble .toInt).truncate)

def intMul : Exec σ Unit := do
  let right ← popInt .intMul
  let left ← popInt .intMul
  push (.int (left * right))

/-- An address that leaves the 64-bit range cannot be held. -/
def intAdd : Exec σ Unit := do
  let right ← popInt .intAdd
  match ← pop .intAdd with
  | .int left => push (.int (left + right))
  | .array ref => push (.address ref right)
  | .address ref offset =>
    let sum := offset + right
    if sum.toInt = offset.toInt + right.toInt then push (.address ref sum) else crash
  | v => fault (.typeMismatch .intAdd .integerOrArray v.classOf)

def newArray (m : Machine σ) (count type : Int32) : Exec σ Unit := do
  let n ← orFault (.unknownEntry .arrayLength count.toInt) (Int32.index? count)
  let elements ← popMany n .newArray
  let t ← orFault (.unknownEntry .type type.toInt) (m.type? type)
  push (← alloc { elementType := type.toUInt32, stride := t.size, elements })

def length : Exec σ Unit := do
  match ← pop .length with
  | .array ref => fun s => push (.double (.ofNat (s.heap.cell ref).elements.size)) s
  | v => fault (.typeMismatch .length .array v.classOf)

/-- The array and the element that an address operand stands for. -/
def element (op : Opcode) (v : Value) (field stride : Int32) : Exec σ (Nat × Nat) := do
  if field ≠ TypeDef.payloadField then fault (.unknownEntry .field field.toInt)
  let (ref, offset) ← match v with
    | .address ref offset => pure (ref, offset)
    | .array ref => pure (ref, 0)
    | v => fault (.typeMismatch op .address v.classOf)
  if stride.toInt ≤ 0 ∨ offset.toInt % stride.toInt ≠ 0 then fault (.misaligned offset stride)
  let index := offset.toInt / stride.toInt
  fun s =>
    let size := (s.heap.cell ref).elements.size
    if 0 ≤ index ∧ index < size then .ok (ref, index.toNat) s
    else fault (.indexOutOfBounds index size) s

def getField (field stride : Int32) : Exec σ Unit := do
  let v ← pop .getField
  let (ref, index) ← element .getField v field stride
  fun s => push (((s.heap.cell ref).elements[index]?).getD .empty) s

def setField (field stride : Int32) : Exec σ Unit := do
  let v ← pop .setField
  let place ← pop .setField
  let (ref, index) ← element .setField place field stride
  modify fun s => { s with heap := s.heap.write ref index v }
  push v

/-- Goes to `delta` from the instruction with index `here`. -/
def goTo (here : Nat) (delta : Int32) : Exec σ Unit :=
  let target : Int := here + delta.toInt
  if 0 ≤ target then
    modify fun s => { s with frame := { s.frame with next := target.toNat } }
  else fault (.unknownEntry .jumpTarget target)

def jump (here : Nat) (kind : JumpKind) (delta : Int32) : Exec σ Unit := do
  match kind with
  | .always => goTo here delta
  | .ifFalse => if ← popBool .jumpIfFalse then pure () else goTo here delta
  | .ifTrue => if ← popBool .jumpIfTrue then goTo here delta else pure ()

/-- The starting values of the slots that are not parameters, after `locals`. -/
def fillSlots (m : Machine σ) (locals : Array Value) : List VariableDef → Exec σ (Array Value)
  | [] => pure locals
  | v :: vs => do
    let t ← orFault (.unknownEntry .type v.typeId.toNat) (m.module.type? v.typeId)
    m.fillSlots (locals.push (← defaultOf t.kind)) vs

/-- The number of arguments a call announces; a negative one counts as the largest
64-bit number. -/
def announced (argc : Int32) : Nat := (Int32.index? argc).getD (UInt64.size - 1)

def call (m : Machine σ) (id argc : Int32) : Exec σ Unit := do
  let f ← orFault (.unknownEntry .function id.toInt) (m.callee? id)
  let count := announced argc
  if count ≠ f.paramCount.toNat then
    fault (.arityMismatch f.name f.paramCount.toNat count)
  let args ← popMany count .call
  let locals ← m.fillSlots args (f.slots.drop count)
  modify fun s =>
    { s with
      frame := { function := some f, locals, base := s.stack.size }
      callers := s.frame :: s.callers }

/-- The number of arguments is not compared with anything. -/
def callNative (m : Machine σ) (native argc : Int32) : Exec σ Unit := do
  let args ← popMany (announced argc) .callNative
  let f ← orFault (.unknownEntry .native native.toInt)
    ((Int32.index? native).bind (m.natives[·]?))
  let result ← fun s =>
    let (result, heap, host) := f args.toList s.heap s.host
    match result with
    | .ok v => .ok v { s with heap, host }
    | .error stop => .error stop { s with heap, host }
  match result with
  | some v => push v
  | none => pure ()

def ret (count : Int32) : Exec σ Unit := do
  let value ← if count = 1 then some <$> pop .ret else pure none
  fun s =>
    match s.frame.function, s.callers with
    | some f, caller :: callers =>
      if value = none ∧ f.returnType ≠ Kind.empty.id then
        fault (.missingReturnValue f.name) s
      else
        let stack := s.stack.shrink s.frame.base
        let stack := match value with
          | some v => stack.push v
          | none => stack
        .ok () { s with stack, frame := caller, callers }
    | _, _ => fault (.stackUnderflow .ret) s

/-- Executes an instruction that was fetched from index `here`. -/
def execute (m : Machine σ) (here : Nat) : Instr → Exec σ Unit
  | .nop | .halt => pure ()
  | .loadConst a => m.loadConst a
  | .loadLocal a => loadLocal a
  | .storeLocal a => storeLocal a
  | .loadGlobal a => loadGlobal a
  | .storeGlobal a => storeGlobal a
  | .pushInt a => push (.int a.toInt64)
  | .pushDefault a => do
    let t ← orFault (.unknownEntry .type a.toInt) (m.type? a)
    push (← defaultOf t.kind)
  | .pop => discard (pop .pop)
  | .dup => do
    let v ← pop .dup
    push v
    push v
  | .arith op => arith op
  | .compare op => compare op
  | .eq => eq
  | .logic op => logic op
  | .toInt => toInt
  | .intMul => intMul
  | .intAdd => intAdd
  | .newArray count type => m.newArray count type
  | .length => length
  | .getField field stride => getField field stride
  | .setField field stride => setField field stride
  | .jump kind delta => jump here kind delta
  | .call id argc => m.call id argc
  | .callNative native argc => m.callNative native argc
  | .ret count => ret count

/-- The code of a frame. -/
def code (m : Machine σ) (f : Frame) : Array Instr :=
  match f.function with
  | some f => f.code
  | none => Module.boot m.module.entryPoint

/-- The next instruction and its index. -/
def fetch (m : Machine σ) : Exec σ (Instr × Nat) := fun s =>
  let here := s.frame.next
  match (m.code s.frame)[here]? with
  | some i => .ok (i, here) { s with frame := { s.frame with next := here + 1 } }
  | none => fault (.fellOffEnd (s.frame.function.map (·.name))) s

/-- What a step comes to. -/
inductive Progress where
  | running
  /-- The program has ended; the value is what stood above the exit slot. -/
  | halted (value : Option Value)
deriving DecidableEq, Repr

/-- One step. The end of the program takes the top of the whole stack if there is
more on it than the exit slot. -/
def step (m : Machine σ) : Exec σ Progress := do
  let (i, here) ← m.fetch
  if i = .halt then
    fun s => .ok (.halted (if 1 < s.stack.size then s.stack.back? else none)) s
  else
    m.execute here i
    return .running

end Machine

end TurtleScript
