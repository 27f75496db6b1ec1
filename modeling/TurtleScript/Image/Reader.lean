import TurtleScript.Diagnostic
import TurtleScript.Image.Layout
import TurtleScript.Image.Word

/-!
# Bytes to modules

Reading goes through the bytes once, from front to back. Whatever a writer could
have chosen differently is checked, so a module in a given form has one image. A
problem is reported at the byte where reading stopped.
-/
namespace TurtleScript.Image

/-- What is left to read, and the number of its first byte. -/
structure Cursor where
  position : Nat
  rest : List UInt8
deriving DecidableEq, Repr

abbrev Read := StateT Cursor (Except Diagnostic)

namespace Read

def fail {α : Type} (p : ImageProblem) : Read α := fun c =>
  .error ⟨.image p, ⟨c.position, c.position⟩⟩

def position : Read Nat := return (← get).position

/-- The next `n` bytes. -/
def take (n : Nat) : Read (List UInt8) := do
  let c ← get
  let (bytes, rest) := c.rest.splitAt n
  if bytes.length = n then
    set { position := c.position + n, rest : Cursor }
    return bytes
  else fail .endOfInput

/-- A number in `width` bytes. -/
def number (width : Nat) : Read Nat := return ofWord (← take width)

def byte : Read UInt8 := return UInt8.ofNat (← number 1)

def word16 : Read UInt16 := return UInt16.ofNat (← number 2)

def word32 : Read UInt32 := return UInt32.ofNat (← number 4)

def operand : Read Int32 := return (← word32).toInt32

/-- `n` things, one after another. -/
def many {α : Type} (item : Read α) : Nat → Read (List α)
  | 0 => pure []
  | n + 1 => do
    let first ← item
    return first :: (← many item n)

def flag : Read Bool := do
  match ← byte with
  | 0 => return false
  | 1 => return true
  | other => fail (.invalidBoolean other)

def text : Read String := do
  let bytes ← take (← number 4)
  match Text.Utf8.decode bytes with
  | .ok s => return s
  | .error fault => fail (.invalidText fault)

def kind (role : TagRole) : Read Kind := do
  let tag ← byte
  match Kind.ofTag? tag with
  | some k => return k
  | none => fail (.unknownTag role tag)

def constant : Read Constant := do
  match ← kind .constant with
  | .boolean => return .boolean (← flag)
  | .double => return .double ⟨UInt64.ofNat (← number 8)⟩
  | .string => return .string (← text)
  | other => fail (.unknownTag .constant other.tag)

def fieldDef : Read FieldDef := return { typeId := ← word32, name := ← text }

def variableDef : Read VariableDef := return { typeId := ← word32, name := ← text }

def typeDef : Read TypeDef := do
  let id ← word32
  let name ← text
  let isPrimitive ← flag
  let kind ← kind .typeKind
  let size ← word32
  let fields ← many fieldDef (← number 4)
  return { id, name, isPrimitive, kind, size, fields }

/-- A function without its code, and the byte at which its code starts. -/
def functionDef : Read (FunctionDef × Nat) := do
  let id ← word32
  let name ← text
  let returnType ← word32
  let offset ← number 4
  let paramCount ← word32
  let slots ← many variableDef (← number 4)
  if slots.length < paramCount.toNat then
    fail (.tooFewSlots id.toNat paramCount.toNat slots.length)
  return ({ id, name, returnType, paramCount, slots, code := #[] }, offset)

def instr : Read Instr := do
  let b ← byte
  match Opcode.ofByte? b with
  | none => fail (.unknownOpcode b)
  | some opcode =>
    match Instr.ofParts? opcode (← many operand opcode.arity) with
    | some i => return i
    | none => fail (.unknownOpcode b)

/-- Instructions until byte `stop`. An instruction has at least one byte, so a limit
of as many instructions as there are bytes is never felt. -/
def code (stop : Nat) : Nat → Read (List Instr)
  | 0 => pure []
  | limit + 1 => do
    if (← position) < stop then
      let first ← instr
      return first :: (← code stop limit)
    else return []

def sectionStart (name : String) (pointer : Nat) : Read Unit := do
  let here ← position
  if here ≠ pointer then fail (.sectionPointer name pointer here)

def reserved (name : String) (count : Nat) : Read Unit :=
  if count = 0 then pure () else fail (.reservedSection name)

def boot : List Instr → Read Unit
  | [] => pure ()
  | expected :: rest => do
    let found ← instr
    if found ≠ expected then fail (.bootMismatch expected found)
    boot rest

/-- The relative form of instruction number `index` of a function whose code starts at
byte `base`. -/
def relativeInstr (a : Addressing) (name : String) (base : Nat) (code : List Instr) (index : Nat) :
    Instr → Except ImageProblem Instr
  | .jump kind operand =>
    match a with
    | .relative =>
      match target? code.length index operand with
      | some _ => .ok (.jump kind operand)
      | none => .error (.jumpLeaves name index operand.toInt)
    | .fixed =>
      match (if base ≤ operand.toInt then indexAt? code (operand.toInt.toNat - base)
          else none) with
      | some target => .ok (.jump kind (Int32.ofInt (target - index : Int)))
      | none => .error (.jumpTarget name index operand.toInt)
  | i => .ok i

/-- The relative form of the instructions `is`, which follow the first `index` of
`code`. -/
def relativeCode (a : Addressing) (name : String) (base : Nat) (code : List Instr)
    (index : Nat) : List Instr → Except ImageProblem (List Instr)
  | [] => .ok []
  | i :: is => do
    let first ← relativeInstr a name base code index i
    return first :: (← relativeCode a name base code (index + 1) is)

/-- The code of one function, which has to fill the bytes from its offset to `stop`. -/
def body (a : Addressing) (start : Nat) (f : FunctionDef) (offset stop : Nat) :
    Read FunctionDef := do
  let here := (← position) - start
  if here ≠ offset ∨ stop < offset then fail (.codeMisplaced f.id.toNat offset)
  let raw ← code (start + stop) (stop - here)
  if (← position) - start ≠ stop then fail (.codeOverrun f.id.toNat)
  match relativeCode a f.name offset raw 0 raw with
  | .ok relative => return { f with code := relative.toArray }
  | .error p => fail p

/-- The code of the functions; each ends where the next starts, the last at `length`. -/
def bodies (a : Addressing) (start length : Nat) : List (FunctionDef × Nat) → Read (List FunctionDef)
  | [] => pure []
  | (f, offset) :: rest => do
    let stop := rest.head?.elim length (·.2)
    let first ← body a start f offset stop
    return first :: (← bodies a start length rest)

/-- The signature is reported as a whole. -/
def signature : Read Unit := do
  if (← take magic.length) ≠ magic then throw ⟨.image .badMagic, ⟨0, magic.length⟩⟩

def addressing : Read Addressing := do
  match ← byte with
  | 0 => return .relative
  | 1 => return .fixed
  | other => fail (.flags other)

def version : Read Version :=
  return { major := ← word16, minor := ← word16, build := ← word16, revision := ← word16 }

/-- The six counts, or the six starts, of the sections. -/
structure SectionTable where
  constants : Nat
  types : Nat
  typeRefs : Nat
  functions : Nat
  functionRefs : Nat
  code : Nat
deriving DecidableEq, Repr

def sectionTable : Read SectionTable :=
  return {
    constants := ← number 4
    types := ← number 4
    typeRefs := ← number 4
    functions := ← number 4
    functionRefs := ← number 4
    code := ← number 4 }

def module : Read Module := do
  signature
  let format ← word16
  if format.toNat ≠ formatVersion then fail (.formatVersion format)
  let a ← addressing
  let name ← text
  let vendor ← text
  let version ← version
  let entryPoint ← word32
  let counts ← sectionTable
  let starts ← sectionTable
  reserved "type-refs" counts.typeRefs
  reserved "function-refs" counts.functionRefs
  sectionStart "constants" starts.constants
  let constants ← many constant counts.constants
  sectionStart "types" starts.types
  let types ← many typeDef counts.types
  sectionStart "type-refs" starts.typeRefs
  sectionStart "functions" starts.functions
  let defs ← many functionDef counts.functions
  sectionStart "function-refs" starts.functionRefs
  sectionStart "code" starts.code
  let placed := sortByKey (·.1.id) defs
  if placed.all (·.1.id ≠ entryPoint) then fail (.noEntryFunction entryPoint.toNat)
  let start ← position
  boot (Module.boot entryPoint).toList
  let functions ← bodies a start counts.code placed
  let left := (← get).rest.length
  if left ≠ 0 then fail (.trailingBytes left)
  return {
    name, vendor, version, entryPoint, types
    constants := constants.toArray
    functions := functions.toArray }

end Read

end TurtleScript.Image

namespace TurtleScript

/-- Reads a module in either form; its jumps come back relative. -/
def Module.ofBytes (bytes : List UInt8) : Except Diagnostic Module :=
  match Image.Read.module { position := 0, rest := bytes } with
  | .ok (m, _) => .ok m
  | .error d => .error d

end TurtleScript
