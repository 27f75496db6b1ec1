import TurtleScript.Code.Generate
import TurtleScript.Options

/-!
# From a program to a module

Scopes, types, code, in this order; the first problem of the first pass that has one
is reported. A slot or a function whose type nobody fixed is recorded as `Empty`.
-/
namespace TurtleScript

structure Compiled where
  module : Module
  /-- The type of the program's last expression. -/
  programType : Ty
deriving DecidableEq, Repr

namespace ScopeTree

/-- The slots of a function with the types they have now. -/
def slotDefs (t : ScopeTree) (f : FunctionRecord) : List VariableDef :=
  f.slots.map fun slot =>
    { typeId := (((t.vars[slot.var]?).bind (·.type)).getD .empty).id, name := slot.name }

def functionDef (t : ScopeTree) (f : FunctionRecord) (code : Array Instr) : FunctionDef where
  id := UInt32.ofNat f.id
  name := f.name
  returnType := (f.returnType.getD .empty).id
  paramCount := UInt32.ofNat f.paramCount
  slots := t.slotDefs f
  code := code

/-- The module of a program whose code was laid out. -/
def link (t : ScopeTree) (g : Generated) (o : Options) : Module where
  name := o.moduleName
  vendor := o.vendor
  version := o.version
  entryPoint := UInt32.ofNat main
  constants := g.pool.values.toArray
  types := TypeDef.catalogue
  functions := Array.zipWith t.functionDef t.functions g.functions

end ScopeTree

/-- The scope tree of a program, or the first problem. -/
def Program.scopes (p : Program) (host : Host) : Except Diagnostic ScopeTree :=
  let built := ScopeTree.build p host
  match built.problems with
  | [] => .ok built.tree
  | d :: _ => .error d

def Program.compile (p : Program) (host : Host) (o : Options) (cancelled : Cancellation) :
    Except Diagnostic Compiled := do
  let scopes ← p.scopes host
  let (resolution, tree) := scopes.resolve p host cancelled
  let resolution ← resolution
  let generated ← tree.generate p resolution
  return { module := tree.link generated o, programType := resolution.programType }

end TurtleScript
