import TurtleScript.Diagnostic
import TurtleScript.Host

/-!
# The scope tree

Lexical scopes, variables and functions are three tables that refer to each other
by number. A scope names the function that owns the locals declared in it, a
function lists its slots. Scope 0 is the host's; the program is its only child and
belongs to function 0. A scope always has a larger number than its parent.

Names are looked up without regard to the case of ASCII letters, innermost scope
first.
-/
namespace TurtleScript

/-- Where a variable lives while the program runs. -/
inductive Storage where
  | slot (function slot : Nat)
  | global (index : Nat)
deriving DecidableEq, Repr

structure Variable where
  name : String
  /-- Unset until the first use fixes it. -/
  type : Option Ty
  storage : Storage
  span : Span
deriving DecidableEq, Repr

/-- Who runs a call. -/
inductive Callee where
  | script (function : Nat)
  | native (index : Nat)
deriving DecidableEq, Repr

structure Overload where
  name : String
  params : List Ty
  callee : Callee
deriving DecidableEq, Repr

structure Scope where
  /-- Unset only for the host's scope. -/
  parent : Option Nat := none
  children : List Nat := []
  function : Option Nat := none
  /-- Folded names with the variables they stand for. -/
  vars : List (String × Nat) := []
  overloads : List Overload := []
deriving DecidableEq, Repr

structure Slot where
  name : String
  var : Nat
deriving DecidableEq, Repr

structure FunctionRecord where
  id : Nat
  name : String
  paramCount : Nat := 0
  /-- Parameters first, then locals. -/
  slots : List Slot := []
  /-- Unset until a `return` or the end of the body fixes it. -/
  returnType : Option Ty := none
  span : Span
deriving DecidableEq, Repr

/-- The hidden variables of a loop over an array. -/
structure LoopSlots where
  array : Nat
  index : Nat
deriving DecidableEq, Repr

theorem FunctionRecord.none_issued : 0 = (#[] : Array FunctionRecord).size := rfl

@[ext]
structure ScopeTree where
  scopes : Array Scope := #[{}]
  vars : Array Variable := #[]
  functions : Array FunctionRecord := #[]
  /-- How many numbers functions have been given; the next one gets this. -/
  issued : Nat := 0
  issued_eq : issued = functions.size := by exact FunctionRecord.none_issued
  /-- The scopes that nodes open, the latest first. -/
  nodeScopes : List (Nat × Nat) := []
  nodeFunctions : List (Nat × Nat) := []
  loopSlots : List (Nat × LoopSlots) := []
  /-- The scope of the program's body. -/
  program : Nat := 0
deriving DecidableEq, Repr

namespace ScopeTree

def root : Nat := 0

/-- The function of the program's own statements. -/
def main : Nat := 0

def scopeOf? (t : ScopeTree) (node : Nat) : Option Nat := t.nodeScopes.lookup node

def functionOf? (t : ScopeTree) (node : Nat) : Option Nat := t.nodeFunctions.lookup node

def loopSlotsOf? (t : ScopeTree) (node : Nat) : Option LoopSlots := t.loopSlots.lookup node

/-- At most `fuel` scopes from `scope` outward. -/
def ancestorsFrom (t : ScopeTree) : Nat → Nat → List Nat
  | 0, _ => []
  | fuel + 1, scope =>
    match t.scopes[scope]? with
    | none => []
    | some s =>
      match s.parent with
      | none => [scope]
      | some parent => scope :: t.ancestorsFrom fuel parent

/-- The scope and all around it, innermost first. A parent has a smaller number, so
`scope + 1` steps reach the host. -/
def ancestors (t : ScopeTree) (scope : Nat) : List Nat := t.ancestorsFrom (scope + 1) scope

def variableIn? (t : ScopeTree) (name : String) (scope : Nat) : Option Nat := do
  (← t.scopes[scope]?).vars.lookup (foldName name)

def lookupVariable? (t : ScopeTree) (scope : Nat) (name : String) : Option Nat :=
  (t.ancestors scope).findSome? (t.variableIn? name)

/-- The overloads of a name in one scope, if it declares the name at all. -/
def overloadsIn? (t : ScopeTree) (name : String) (scope : Nat) : Option (List Overload) := do
  match (← t.scopes[scope]?).overloads.filter (foldName ·.name = foldName name) with
  | [] => none
  | overloads => some overloads

/-- The overloads of the innermost scope that declares the name. Scopes further out
are not asked, even if none of these fits a call. -/
def lookupOverloads? (t : ScopeTree) (scope : Nat) (name : String) : Option (List Overload) :=
  (t.ancestors scope).findSome? (t.overloadsIn? name)

/-- The overload with exactly these parameters. -/
def resolveCall? (t : ScopeTree) (scope : Nat) (name : String) (args : List Ty) :
    Option Overload := do
  (← t.lookupOverloads? scope name).find? (·.params = args)

def setVariableType (t : ScopeTree) (id : Nat) (type : Ty) : ScopeTree :=
  { t with vars := t.vars.modify id ({ · with type := some type }) }

def setReturnType (t : ScopeTree) (id : Nat) (type : Ty) : ScopeTree :=
  { t with
    functions := t.functions.modify id ({ · with returnType := some type })
    issued_eq := by rw [Array.size_modify, t.issued_eq] }

/-- Makes the first `count` slots of a function its parameters. -/
def setParams (t : ScopeTree) (id count : Nat) : ScopeTree :=
  { t with
    functions := t.functions.modify id ({ · with paramCount := count })
    issued_eq := by rw [Array.size_modify, t.issued_eq] }

/-- Opens a scope inside `parent`. -/
def pushScope (t : ScopeTree) (parent function : Nat) : Nat × ScopeTree :=
  let id := t.scopes.size
  let scopes := t.scopes.push { parent := some parent, function := some function }
  (id, { t with scopes := scopes.modify parent fun s => { s with children := s.children ++ [id] } })

def bindNode (t : ScopeTree) (node scope : Nat) : ScopeTree :=
  { t with nodeScopes := (node, scope) :: t.nodeScopes }

/-- The tree in which a node stands for a function. -/
def addFunctionNode (t : ScopeTree) (node id : Nat) : ScopeTree :=
  { t with nodeFunctions := (node, id) :: t.nodeFunctions }

/-- The tree in which a loop has these variables. -/
def addLoop (t : ScopeTree) (node : Nat) (slots : LoopSlots) : ScopeTree :=
  { t with loopSlots := (node, slots) :: t.loopSlots }

/-- Adds a function under the next number and gives this number. -/
def pushFunction (t : ScopeTree) (name : String) (span : Span) : Nat × ScopeTree :=
  let id := t.issued
  (id,
    { t with
      functions := t.functions.push { id, name, span }
      issued := t.issued + 1
      issued_eq := by rw [Array.size_push, t.issued_eq] })

/-- The next number is the place of the function in the table. -/
theorem pushFunction_fst (t : ScopeTree) (name : String) (span : Span) :
    (t.pushFunction name span).1 = t.functions.size := t.issued_eq

theorem pushFunction_eq (t : ScopeTree) (name : String) (span : Span) :
    t.pushFunction name span =
      (t.functions.size,
        { t with
          functions := t.functions.push { id := t.functions.size, name, span }
          issued := t.functions.size + 1
          issued_eq := by rw [Array.size_push] }) := by
  obtain ⟨_, _, _, _, rfl⟩ := t
  rfl

/-- Declares a variable unless the scope has one of that name. -/
def declareVariable (t : ScopeTree) (scope : Nat) (v : Variable) :
    Except ScopeProblem (Nat × ScopeTree) :=
  if (t.variableIn? v.name scope).isSome then .error (.variableRedeclared v.name)
  else
    let id := t.vars.size
    .ok (id,
      { t with
        vars := t.vars.push v
        scopes := t.scopes.modify scope fun s =>
          { s with vars := (foldName v.name, id) :: s.vars } })

/-- Declares a local in the next slot of `function`. -/
def declareLocal (t : ScopeTree) (scope function : Nat) (name : String) (type : Option Ty)
    (span : Span) : Except ScopeProblem (Nat × ScopeTree) := do
  let slots := (t.functions[function]?).elim [] (·.slots)
  let (id, t) ← t.declareVariable scope
    { name, type, storage := .slot function slots.length, span }
  return (id,
    { t with
      functions := t.functions.modify function fun f =>
        { f with slots := f.slots ++ [{ name, var := id }] }
      issued_eq := by rw [Array.size_modify, t.issued_eq] })

/-- Declares an overload unless the scope has one with the same parameters. -/
def declareOverload (t : ScopeTree) (scope : Nat) (o : Overload) :
    Except ScopeProblem ScopeTree :=
  if ((t.overloadsIn? o.name scope).getD []).any (·.params = o.params) then
    .error (.functionRedeclared o.name o.params)
  else
    .ok { t with scopes := t.scopes.modify scope fun s =>
        { s with overloads := s.overloads ++ [o] } }

end ScopeTree

end TurtleScript
