import TurtleScript.Bytecode.Module

/-!
# Listings

A module in readable form: constants, then each function with its slots and its
code. Jumps show where they lead and loads of constants what they load.
-/
namespace TurtleScript

namespace Listing

def padRight (width : Nat) (s : String) : String :=
  s ++ String.ofList (List.replicate (width - s.length) ' ')

/-- A number of at least four characters, filled with zeros after the sign. -/
def padZero (n : Int) : String :=
  let digits := toString n.natAbs
  let sign := if n < 0 then "-" else ""
  sign ++ String.ofList (List.replicate (4 - sign.length - digits.length) '0') ++ digits

def typeName (m : Module) (id : UInt32) : String :=
  match m.type? id with
  | some t => t.name
  | none => s!"type#{id.toNat}"

def slotText (m : Module) (v : VariableDef) : String := typeName m v.typeId ++ " " ++ v.name

/-- The remark after an instruction, if it has one. -/
def remark? (m : Module) (index : Nat) : Instr → Option String
  | .jump _ delta => some ("-> " ++ padZero (index + delta.toInt))
  | .loadConst a =>
    if a.toInt < 0 then none else (m.constants[a.toInt.toNat]?).map Constant.text
  | _ => none

def instrLine (m : Module) (index : Nat) (i : Instr) : String :=
  let start := "  " ++ padZero index ++ "  "
  match remark? m index i with
  | some remark => start ++ padRight 24 i.text ++ " ; " ++ remark
  | none => start ++ i.text

def constantLine (index : Nat) (c : Constant) : String :=
  "  #" ++ padRight 4 (toString index) ++ " " ++ padRight 8 c.kind.name ++ " " ++ c.text

def functionLines (m : Module) (f : FunctionDef) : List String :=
  let params := f.slots.take f.paramCount.toNat
  let locals := f.slots.zipIdx.drop f.paramCount.toNat
  ["", s!"function #{f.id.toNat} " ++ f.name ++ "(" ++
      ", ".intercalate (params.map (slotText m)) ++ ") -> " ++ typeName m f.returnType] ++
    locals.map (fun (v, slot) => s!"  local {slot} " ++ slotText m v) ++
    f.code.toList.zipIdx.map fun (i, index) => instrLine m index i

def lines (m : Module) : List String :=
  let version := ".".intercalate (m.version.toList.map fun part => toString part.toNat)
  ["module " ++ m.name ++ " (" ++ m.vendor ++ " " ++ version ++ s!"), entry #{m.entryPoint.toNat}",
      "", "constants:"] ++
    m.constants.toList.zipIdx.map (fun (c, index) => constantLine index c) ++
    m.functions.toList.flatMap (functionLines m)

end Listing

/-- The listing of a module; every line ends with a line feed. -/
def Module.listing (m : Module) : String := String.join ((Listing.lines m).map (· ++ "\n"))

end TurtleScript
