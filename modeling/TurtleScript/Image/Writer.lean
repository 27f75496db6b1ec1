import TurtleScript.Diagnostic
import TurtleScript.Image.Layout
import TurtleScript.Image.Word

/-!
# Modules to bytes
-/
namespace TurtleScript.Image

/-- A length, count or position in four bytes. -/
def sized (n : Nat) : Except ImageProblem (List UInt8) :=
  if n < UInt32.size then .ok (word 4 n) else .error (.tooLarge n)

def word32 (n : UInt32) : List UInt8 := word 4 n.toNat

def flagByte (b : Bool) : List UInt8 := [if b then 1 else 0]

def text (s : String) : Except ImageProblem (List UInt8) := do
  let bytes := Text.Utf8.encode s
  return (← sized bytes.length) ++ bytes

/-- The bytes of several things, one after another. -/
def concat {α : Type} (bytes : α → Except ImageProblem (List UInt8)) :
    List α → Except ImageProblem (List UInt8)
  | [] => .ok []
  | a :: as => do
    let first ← bytes a
    return first ++ (← concat bytes as)

def instr (i : Instr) : List UInt8 :=
  i.opcode.byte :: i.operands.flatMap fun a => word32 a.toUInt32

def constant (c : Constant) : Except ImageProblem (List UInt8) := do
  let payload ← match c with
    | .boolean b => .ok (flagByte b)
    | .double d => .ok (word 8 d.bits.toNat)
    | .string s => text s
  return c.kind.tag :: payload

/-- A number and a name: a field of a type, a slot of a function. -/
def named (typeId : UInt32) (name : String) : Except ImageProblem (List UInt8) := do
  return word32 typeId ++ (← text name)

def typeDef (t : TypeDef) : Except ImageProblem (List UInt8) := do
  let name ← text t.name
  let count ← sized t.fields.length
  let fields ← concat (fun f => named f.typeId f.name) t.fields
  return word32 t.id ++ name ++ flagByte t.isPrimitive ++ [t.kind.tag] ++ word32 t.size ++
    count ++ fields

def functionDef (f : FunctionDef) (offset : Nat) : Except ImageProblem (List UInt8) := do
  let name ← text f.name
  let offset ← sized offset
  let count ← sized f.slots.length
  let slots ← concat (fun v => named v.typeId v.name) f.slots
  return word32 f.id ++ name ++ word32 f.returnType ++ offset ++ word32 f.paramCount ++
    count ++ slots

/-- The form in which a function at byte `base` has its instruction number `index`
written when jumps name bytes. -/
def fixInstr (f : FunctionDef) (base index : Nat) : Instr → Except ImageProblem Instr
  | .jump kind delta =>
    match target? f.code.size index delta with
    | none => .error (.jumpLeaves f.name index delta.toInt)
    | some target =>
      let byte := base + byteAt f.code.toList target
      if byte < 0x80000000 then .ok (.jump kind (Int32.ofNat byte)) else .error .codeTooLong
  | i => .ok i

/-- The instructions from number `index` on. -/
def fixCode (f : FunctionDef) (base index : Nat) : List Instr → Except ImageProblem (List Instr)
  | [] => .ok []
  | i :: is => do
    let first ← fixInstr f base index i
    return first :: (← fixCode f base (index + 1) is)

/-- The code of a function at byte `base`. -/
def body (a : Addressing) (f : FunctionDef) (base : Nat) : Except ImageProblem (List UInt8) := do
  let code ← match a with
    | .relative => .ok f.code.toList
    | .fixed => fixCode f base 0 f.code.toList
  return code.flatMap instr

/-- The code of the functions from byte `base` on, with the byte each starts at. -/
def bodies (a : Addressing) (base : Nat) :
    List FunctionDef → Except ImageProblem (List (FunctionDef × Nat) × List UInt8)
  | [] => .ok ([], [])
  | f :: fs => do
    discard (sized base)
    let first ← body a f base
    let (placed, rest) ← bodies a (base + first.length) fs
    return ((f, base) :: placed, first ++ rest)

/-- The bytes at which sections of these lengths start. -/
def pointers (start : Nat) : List (List UInt8) → List Nat
  | [] => []
  | s :: rest => start :: pointers (start + s.length) rest

def bytes (m : Module) (a : Addressing) : Except ImageProblem (List UInt8) := do
  let functions := sortByKey (·.id) m.functions.toList
  if functions.all (·.id ≠ m.entryPoint) then .error (.noEntryFunction m.entryPoint.toNat)
  let boot := (Module.boot m.entryPoint).toList.flatMap instr
  let (placed, code) ← bodies a boot.length functions
  let constants ← concat constant m.constants.toList
  let types ← concat typeDef m.types
  let defs ← concat (fun (f, offset) => functionDef f offset) placed
  let name ← text m.name
  let vendor ← text m.vendor
  let head := magic ++ word 2 formatVersion ++ [flag a] ++ name ++ vendor ++
    m.version.toList.flatMap (fun part => word 2 part.toNat) ++ word32 m.entryPoint
  let sections := [constants, types, [], defs, [], boot ++ code]
  let counts ← concat sized
    [m.constants.size, m.types.length, 0, functions.length, 0, (boot ++ code).length]
  let starts ← concat sized (pointers (head.length + counts.length + 4 * sections.length) sections)
  return head ++ counts ++ starts ++ sections.flatten

end TurtleScript.Image

namespace TurtleScript

/-- The binary form of a module. -/
def Module.toBytes (m : Module) (a : Addressing) : Except Diagnostic (List UInt8) :=
  match Image.bytes m a with
  | .ok bytes => .ok bytes
  | .error p => .error ⟨.image p, {}⟩

end TurtleScript
