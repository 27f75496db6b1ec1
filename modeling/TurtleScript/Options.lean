import TurtleScript.Bytecode.Module
import TurtleScript.Json.Value

/-!
# Options of a compilation

What is written into the head of a module and how its jumps are written. As a JSON
value the options are an object with any of the four members, or an array of the
first few of them; what is missing has its default.
-/
namespace TurtleScript

structure Options where
  moduleName : String := "main"
  vendor : String := "terrapin 0.1.0"
  version : Version := { major := 1 }
  addressing : Addressing := .fixed
deriving DecidableEq, Repr

namespace Options

def part? (j : Json) : Option UInt16 := do
  let n ← j.natural?
  if n < UInt16.size then some (UInt16.ofNat n) else none

def version? : Json → Option Version
  | .array [a, b, c, d] => do return ⟨← part? a, ← part? b, ← part? c, ← part? d⟩
  | _ => none

def addressing? : Json → Option Addressing
  | .string name | .object [(name, .null)] => Addressing.ofName? name
  | _ => none

/-- Options from the members in their order, each of which may be missing. -/
def ofMembers? (moduleName vendor version addressing : Option Json) : Option Options := do
  let d : Options := {}
  return {
    moduleName := ← moduleName.elim (some d.moduleName) Json.string?
    vendor := ← vendor.elim (some d.vendor) Json.string?
    version := ← version.elim (some d.version) version?
    addressing := ← addressing.elim (some d.addressing) addressing? }

def ofJson? : Json → Option Options
  | .object ms => do
    ofMembers? (← Json.member? "module_name" ms) (← Json.member? "vendor" ms)
      (← Json.member? "version" ms) (← Json.member? "addressing" ms)
  | .array items =>
    if items.length ≤ 4 then ofMembers? items[0]? items[1]? items[2]? items[3]? else none
  | _ => none

end Options

end TurtleScript
