import TurtleScript.Scope.Build

/-!
# Types of a program

The resolver walks the tree through the scopes that were built for it and gives
every node a type. It changes the scope tree in two ways only: it fixes the type of
a loop variable that was left open and the return type of a function. The walk
stops at the first problem; what was fixed before stays fixed.
-/
namespace TurtleScript

/-- A request to stop, which may come at any time: the answer to each question whether there is
one. -/
structure Cancellation where
  asked : Nat → Bool

/-- A request that stands from the start, or that never comes. -/
instance : Coe Bool Cancellation := ⟨fun b => ⟨fun _ => b⟩⟩

/-- The scope tree, and the types of the nodes visited, the latest first. -/
structure Typing where
  tree : ScopeTree
  types : List (Nat × Ty) := []
  /-- How often the walk has asked whether it is to stop. -/
  visits : Nat := 0
deriving DecidableEq, Repr

/-- A step of the walk. A failed step keeps what it changed. -/
abbrev Resolve := EStateM Diagnostic Typing

namespace Resolve

/-- Where the walk is. -/
structure Context where
  host : Host
  cancelled : Cancellation
  scope : Nat
  function : Nat

def fail {α : Type} (p : TypeProblem) (span : Span) : Resolve α := throw ⟨.typing p, span⟩

def tree : Resolve ScopeTree := do return (← get).tree

def orFail {α : Type} (p : TypeProblem) (span : Span) : Option α → Resolve α
  | some a => pure a
  | none => fail p span

/-- Asks, before a node is visited, whether the walk is to stop. -/
def poll (c : Context) (span : Span) : Resolve Unit := do
  let visits ← modifyGet fun s => (s.visits, { s with visits := s.visits + 1 })
  if c.cancelled.asked visits then fail .cancelled span

def record (node : Nat) (type : Ty) : Resolve Unit :=
  modify fun s => { s with types := (node, type) :: s.types }

/-- The walk inside the scope of a node. -/
def within (c : Context) (e : Expr) : Resolve Context := do
  let scope ← orFail (.noScope e.kindName) e.span ((← tree).scopeOf? e.id)
  return { c with scope }

/-- The type of a variable, which must be a global or a local of this function. -/
def variableType (c : Context) (name : String) (span : Span) : Resolve Ty := do
  let t ← tree
  let some v := (t.lookupVariable? c.scope name).bind (t.vars[·]?)
    | fail (.undeclaredVariable name) span
  match v.storage with
  | .slot function _ =>
    if function ≠ c.function then
      fail (.foreignVariable name ((t.functions[function]?).elim "" (·.name))) span
  | .global _ => pure ()
  orFail (.variableTypeUnknown name) span v.type

/-- Fixes the type of a loop variable, or checks that it has the expected one. -/
def loopVariable (c : Context) (e : Expr) (expected : Ty) : Resolve Unit := do
  let .var l name _ := e | fail .loopVariableKind e.span
  let t ← tree
  let id ← orFail (.undeclaredVariable name) l.span (t.lookupVariable? c.scope name)
  match (t.vars[id]?).bind (·.type) with
  | none => modify fun s => { s with tree := s.tree.setVariableType id expected }
  | some actual =>
    if actual ≠ expected then fail (.loopVariableType name actual expected) l.span
  -- the variable is visited; a local of another function is refused here
  poll c l.span
  record l.id (← variableType c name l.span)

/-- The type of `left op right` for an operator other than assignment. -/
def operatorType (c : Context) (op : BinaryOp) (left right : Ty) (span : Span) : Resolve Ty := do
  let mismatch (expected : OperandClass) : Resolve Ty := fail (.operands op expected left right) span
  match op with
  | .sub | .mul | .div | .mod =>
    if left = .double ∧ right = .double then return .double else mismatch .number
  | .add =>
    if left = .boolean ∨ right = .boolean then mismatch .numberOrString
    else if left = .string ∨ right = .string then
      if (left = .string ∨ left = .double) ∧ (right = .string ∨ right = .double) then
        match (← tree).resolveCall? c.scope Host.concatName [left, right] with
        | some _ => return .string
        | none => fail (.noConcatenation [left, right]) span
      else mismatch .numberOrString
    else if left = .double ∧ right = .double then return .double
    else mismatch .numberOrString
  | .less | .greater | .lessEqual | .greaterEqual =>
    if left = .double ∧ right = .double then return .boolean else mismatch .number
  | .and | .or =>
    if left = .boolean ∧ right = .boolean then return .boolean else mismatch .boolean
  | .equal | .assign => return .boolean

/-- What an expression that may be assigned to is called. -/
def assignmentTarget (e : Expr) : Resolve AssignmentTarget :=
  match e with
  | .var _ name _ => pure (.named name)
  | .element _ _ (some _) => pure .element
  | e => fail (.assignmentKind e.kindName) e.span

def assignmentType (dest source : Ty) (target : AssignmentTarget) (span : Span) : Resolve Ty :=
  if dest.accepts source then pure dest else fail (.assignmentType source target dest) span

def requireBoolean (type : Ty) (span : Span) : Resolve Unit :=
  if type = .boolean then pure () else fail (.conditionType type) span

def requireNumberBound (type : Ty) (span : Span) : Resolve Unit :=
  if type = .double then pure () else fail (.boundType type) span

/-- The elements a loop goes over. -/
def iterableElement (type : Ty) (span : Span) : Resolve Ty :=
  match type with
  | .array .empty => fail .iterableEmpty span
  | .array element => pure element
  | type => fail (.iterableType type) span

def indexedElement (type : Ty) (span : Span) : Resolve Ty :=
  match type with
  | .array element => pure element
  | type => fail (.indexedType type) span

/-- The element type after one more element of a literal. -/
def joinElement (known : Option Ty) (type : Ty) (span : Span) : Resolve Ty :=
  match known with
  | none => if type.isEmpty then fail .elementWithoutValue span else pure type
  | some expected => if expected = type then pure type else fail (.elementTypes expected type) span

def callType (c : Context) (name : String) (args : List Ty) (span : Span) : Resolve Ty := do
  let t ← tree
  let overload ← orFail (.undeclaredFunction name args) span (t.resolveCall? c.scope name args)
  match overload.callee with
  | .native index =>
    orFail (.nativeMissing index) span ((c.host.natives[index]?).map (·.returnType))
  | .script id =>
    orFail (.returnTypeUnknown name args) span ((t.functions[id]?).bind (·.returnType))

/-- Fixes the return type of a function that has none yet. One that it has must not clash with
the type that was found. -/
def settleReturn (clashes : Ty → Bool) (function : Nat) (type : Ty) (span : Span) :
    Resolve Unit := do
  let f := (← tree).functions[function]?
  match f.bind (·.returnType) with
  | none => modify fun s => { s with tree := s.tree.setReturnType function type }
  | some known =>
    if clashes known then fail (.returnTypes (f.elim "" (·.name)) known type) span

/-- All `return`s of a function have one type. -/
def returnType (function : Nat) (type : Ty) (span : Span) : Resolve Unit :=
  settleReturn (· ≠ type) function type span

/-- A body without a value agrees with any `return`, and a bare `return` with any body. -/
def bodyType (function : Nat) (type : Ty) (span : Span) : Resolve Unit :=
  settleReturn (fun known => !known.isEmpty && !type.isEmpty && known ≠ type) function type span

/-- The type of a block: that of its last member, in written order. -/
def lastType (body : List Expr) : Resolve Ty := do
  let types := (← get).types
  return (body.getLast?.bind fun last => types.lookup last.id).getD .empty

mutual

/-- Types a node and everything below it. -/
def visit (c : Context) (e : Expr) : Resolve Ty := do
  poll c e.span
  let type ← match e with
    | .constant _ (.boolean _) => pure .boolean
    | .constant _ (.number _) => pure .double
    | .constant _ (.string _) => pure .string
    | .var l name _ => variableType c name l.span
    | .binary l op left right =>
      if op = .assign then do
        let target ← assignmentTarget left
        let dest ← visit c left
        let source ← visit c right
        assignmentType dest source target l.span
      else do
        let leftType ← visit c left
        let rightType ← visit c right
        operatorType c op leftType rightType l.span
    | .function l name params body => do
      let id ← orFail (.noRecord name) l.span ((← tree).functionOf? l.id)
      let inner := { ← within c e with function := id }
      let types ← visitAll inner params
      match (← tree).resolveCall? c.scope name types with
      | some { callee := .script found, .. } =>
        if found ≠ id then fail (.recordMismatch name types) l.span
      | _ => fail (.recordMismatch name types) l.span
      bodyType id (← visit inner body) body.span
      pure .empty
    | .block _ body => do
      let inner ← within c e
      visitMembers inner true body
      visitMembers inner false body
      lastType body
    | .cond l condition thenBranch elseBranch => do
      requireBoolean (← visit c condition) condition.span
      let thenType ← visit c thenBranch
      match elseBranch with
      | none => pure thenType
      | some elseBranch =>
        let elseType ← visit c elseBranch
        if thenType = elseType then pure thenType
        else fail (.branchTypes thenType elseType) l.span
    | .forLoop _ init condition step body => do
      let inner ← within c e
      visitOption inner init
      match condition with
      | none => pure ()
      | some condition => requireBoolean (← visit inner condition) condition.span
      visitOption inner step
      discard (visit inner body)
      pure .empty
    | .forTo _ counter start bound _ body => do
      let inner ← within c e
      loopVariable inner counter .double
      requireNumberBound (← visit inner start) start.span
      requireNumberBound (← visit inner bound) bound.span
      discard (visit inner body)
      pure .empty
    | .forIn l item iterable body => do
      let inner ← within c e
      let iterableType ← visit inner iterable
      loopVariable inner item (← iterableElement iterableType iterable.span)
      let slots ← orFail .noLoopSlots l.span ((← tree).loopSlotsOf? l.id)
      modify fun s => { s with tree := s.tree.setVariableType slots.array iterableType }
      discard (visit inner body)
      pure .empty
    | .whileLoop _ condition body => do
      requireBoolean (← visit c condition) condition.span
      discard (visit c body)
      pure .empty
    | .repeatUntil _ body condition => do
      discard (visit c body)
      requireBoolean (← visit c condition) condition.span
      pure .empty
    | .call l name args => do
      callType c name (← visitAll c args) l.span
    | .ret l value => do
      if c.function = ScopeTree.main then fail .returnOutsideFunction l.span
      match value with
      | none => returnType c.function .empty l.span
      | some value => returnType c.function (← visit c value) l.span
      pure .empty
    | .paren _ inner => visit c inner
    | .element l _ none => fail .arrayTypeAsValue l.span
    | .element _ target (some index) => do
      let element ← indexedElement (← visit c target) target.span
      let indexType ← visit c index
      if indexType ≠ .double then fail (.indexType indexType) index.span
      if element.isEmpty then fail .indexedEmpty target.span
      pure element
    | .array _ elements => do
      pure (.array ((← visitElements c none elements).getD .empty))
  record e.id type
  return type
termination_by structural e

/-- The members of a block that are function declarations, or those that are not. -/
def visitMembers (c : Context) (functions : Bool) : List Expr → Resolve Unit
  | [] => pure ()
  | e :: es => do
    if e.isFunction = functions then discard (visit c e)
    visitMembers c functions es
termination_by structural es => es

def visitAll (c : Context) : List Expr → Resolve (List Ty)
  | [] => pure []
  | e :: es => do
    let type ← visit c e
    return type :: (← visitAll c es)
termination_by structural es => es

/-- The elements of an array literal, which share one type. -/
def visitElements (c : Context) (known : Option Ty) : List Expr → Resolve (Option Ty)
  | [] => pure known
  | e :: es => do
    let type ← joinElement known (← visit c e) e.span
    visitElements c (some type) es
termination_by structural es => es

def visitOption (c : Context) : Option Expr → Resolve Unit
  | none => pure ()
  | some e => discard (visit c e)
termination_by structural e => e

end

end Resolve

/-- What the resolver learned. -/
structure Resolution where
  programType : Ty
  /-- The types of the nodes, the latest first. -/
  types : List (Nat × Ty)
deriving DecidableEq, Repr

def Resolution.typeOf? (r : Resolution) (node : Nat) : Option Ty := r.types.lookup node

/-- Types `p` against the tree. The tree that comes back has the types that were
fixed, also when a problem was found. -/
def ScopeTree.resolve (t : ScopeTree) (p : Program) (host : Host)
    (cancelled : Cancellation) : Except Diagnostic Resolution × ScopeTree :=
  let c : Resolve.Context := { host, cancelled, scope := t.program, function := main }
  match Resolve.visit c p.body { tree := t } with
  | .ok programType s => (.ok { programType, types := s.types }, s.tree)
  | .error d s => (.error d, s.tree)

end TurtleScript
