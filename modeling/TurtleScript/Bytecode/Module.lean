import TurtleScript.Bytecode.Constant
import TurtleScript.Bytecode.Instr
import TurtleScript.Types.Catalogue

/-!
# Linked modules

A module is what a compilation leaves: constants, the type catalogue and one
function record for each function, jumps in relative form.
-/
namespace TurtleScript

structure Version where
  major : UInt16 := 0
  minor : UInt16 := 0
  build : UInt16 := 0
  revision : UInt16 := 0
deriving DecidableEq, Repr

def Version.toList (v : Version) : List UInt16 := [v.major, v.minor, v.build, v.revision]

/-- How jumps are written in the binary form: as they are held, or as the byte of
the target in the code section. -/
inductive Addressing where
  | relative | fixed
deriving DecidableEq, Repr

def Addressing.name : Addressing → String
  | .relative => "relative"
  | .fixed => "fixed"

def Addressing.ofName? (name : String) : Option Addressing :=
  [relative, fixed].find? (·.name = name)

structure VariableDef where
  typeId : UInt32
  name : String
deriving DecidableEq, Repr

structure FunctionDef where
  id : UInt32
  name : String
  returnType : UInt32
  /-- The parameters are the first slots. -/
  paramCount : UInt32
  slots : List VariableDef
  code : Array Instr
deriving DecidableEq, Repr

structure Module where
  name : String
  vendor : String
  version : Version
  /-- The function a run starts with. -/
  entryPoint : UInt32
  constants : Array Constant
  types : List TypeDef
  functions : Array FunctionDef
deriving DecidableEq, Repr

namespace Module

def function? (m : Module) (id : UInt32) : Option FunctionDef := m.functions.find? (·.id = id)

/-- The first descriptor with this number. -/
def type? (m : Module) (id : UInt32) : Option TypeDef := m.types.find? (·.id = id)

def instructionCount (m : Module) : Nat :=
  m.functions.foldl (fun n f => n + f.code.size) 0

/-- Equality up to constants that agree as numbers; a NaN agrees with nothing. -/
def agrees (a b : Module) : Bool :=
  { a with constants := #[] } = { b with constants := #[] } &&
    a.constants.size = b.constants.size &&
    (a.constants.zip b.constants).all fun (x, y) => x.agrees y

/-- The code every run starts with: reserve the exit slot, call the entry function,
stop. -/
def boot (entryPoint : UInt32) : Array Instr :=
  #[.pushInt 0, .call entryPoint.toInt32 0, .halt]

end Module

/-- Bytes of a code sequence in the binary form. -/
def encodedLength : List Instr → Nat
  | [] => 0
  | i :: is => i.encodedLength + encodedLength is

end TurtleScript
