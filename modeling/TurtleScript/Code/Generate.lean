import TurtleScript.Bytecode.Constant
import TurtleScript.Code.Builder
import TurtleScript.Types.Catalogue
import TurtleScript.Typing.Resolve

/-!
# Code of a typed program

An expression leaves one value on the stack, or nothing if its type is `Empty`. A
block drops every value but the last. Loops test at the bottom:

```text
        Jump test
body:   ...
test:   condition
        JumpIfTrue body
```
-/
namespace TurtleScript

/-- The pool, the code of the function at hand, and the code that is finished, by
function. -/
structure Generation where
  pool : Pool := {}
  builder : CodeBuilder
  finished : Array (Option (Array Instr))
deriving DecidableEq, Repr

abbrev Generate := EStateM Diagnostic Generation

namespace Generate

/-- What the walk reads, and the scope it is in. -/
structure Context where
  tree : ScopeTree
  resolution : Resolution
  scope : Nat

def fail {α : Type} (p : CodeProblem) (span : Span) : Generate α := throw ⟨.code p, span⟩

def orFail {α : Type} (p : CodeProblem) (span : Span) : Option α → Generate α
  | some a => pure a
  | none => fail p span

/-- A step on the code of the function at hand. -/
def onCode {α : Type} (step : CodeBuilder.Build α) : Generate α := fun s =>
  match step s.builder with
  | .ok a builder => .ok a { s with builder }
  | .error d builder => .error d { s with builder }

def emit (i : Instr) : Generate Unit := discard (onCode (CodeBuilder.emit i))

def emitAll : List Instr → Generate Unit
  | [] => pure ()
  | i :: is => do
    emit i
    emitAll is

def acquire : Generate Marker := onCode CodeBuilder.acquire

def releaseAll : List Marker → Generate Unit
  | [] => pure ()
  | m :: ms => do
    onCode (CodeBuilder.release m)
    releaseAll ms

def placeJump (m : Marker) (kind : JumpKind) (target : Marker) : Generate Unit :=
  onCode (CodeBuilder.placeJump m kind target)

def emitJump (kind : JumpKind) (target : Marker) : Generate Unit :=
  discard (onCode (CodeBuilder.emitJump kind target))

/-- A number that goes into an operand. -/
def operand (n : Nat) : Int32 := Int32.ofNat n

def typeOf (c : Context) (e : Expr) : Generate Ty :=
  orFail (.untyped e.kindName) e.span (c.resolution.typeOf? e.id)

def within (c : Context) (e : Expr) : Generate Context := do
  let scope ← orFail (.noScope e.kindName) e.span (c.tree.scopeOf? e.id)
  return { c with scope }

/-- Where a variable that is in scope is kept. -/
def storage (c : Context) (name : String) (span : Span) : Generate Storage :=
  orFail (.unknownVariable name) span
    (((c.tree.lookupVariable? c.scope name).bind (c.tree.vars[·]?)).map (·.storage))

def loopVariable (c : Context) : Expr → Generate Storage
  | .var l name _ => storage c name l.span
  | e => fail (.loopVariable e.kindName) e.span

/-- Where a hidden variable of a loop is kept. -/
def hidden (c : Context) (id : Nat) (span : Span) : Generate Storage :=
  orFail .noLoopSlots span ((c.tree.vars[id]?).map (·.storage))

def load : Storage → Instr
  | .slot _ slot => .loadLocal (operand slot)
  | .global index => .loadGlobal (operand index)

def store : Storage → Instr
  | .slot _ slot => .storeLocal (operand slot)
  | .global index => .storeGlobal (operand index)

def constant (value : Constant) : Generate Unit := do
  let id ← modifyGet fun s =>
    let (id, pool) := s.pool.intern value
    (id, { s with pool })
  emit (.loadConst (operand id))

def call (argc : Nat) : Callee → Instr
  | .script id => .call (operand id) (operand argc)
  | .native index => .callNative (operand index) (operand argc)

/-- Drops the value that `e` left. -/
def dropValue (c : Context) (e : Expr) : Generate Unit := do
  if !(← typeOf c e).isEmpty then emit .pop

/-- From an array and an index on the stack to the address of the element. -/
def elementAddress (stride : Int32) : List Instr :=
  [.toInt, .pushInt stride, .intMul, .intAdd]

/-- The instruction of an operator on two values. -/
def operator : BinaryOp → Instr
  | .add => .arith .add
  | .sub => .arith .sub
  | .mul => .arith .mul
  | .div => .arith .div
  | .mod => .arith .mod
  | .less => .compare .lt
  | .greater => .compare .gt
  | .lessEqual => .compare .le
  | .greaterEqual => .compare .ge
  | .equal | .assign => .eq
  | .and => .logic .and
  | .or => .logic .or

/-- The operator after both operands. -/
def operate (c : Context) (op : BinaryOp) (left right : Ty) (span : Span) : Generate Unit := do
  if op = .add ∧ (left = .string ∨ right = .string) then
    let overload ← orFail (.noConcatenation left right) span
      (c.tree.resolveCall? c.scope Host.concatName [left, right])
    emit (call 2 overload.callee)
  else if op = .equal ∧ (left.isArray ∨ right.isArray) then
    fail (.arrayEquality left right) span
  else
    emit (operator op)

/-- Returns the value of the body if it is the result, and drops it otherwise. -/
def epilogue (c : Context) (body : Expr) (returnType : Ty) : Generate Unit := do
  let type ← typeOf c body
  if !returnType.isEmpty && type = returnType then
    emit (.ret 1)
  else
    if !type.isEmpty then emit .pop
    emit (.ret 0)

/-- Starts the code of a function and gives what was at hand before. -/
def enter (function : Nat) : Generate CodeBuilder :=
  modifyGet fun s => (s.builder, { s with builder := { function } })

/-- Finishes the code at hand and goes back to `outer`. -/
def leave (outer : CodeBuilder) : Generate Unit := do
  let s ← get
  match s.builder.finish with
  | .error d => throw d
  | .ok code =>
    set { s with
      builder := outer
      finished := s.finished.setIfInBounds s.builder.function (some code) }

def literal : Literal → Constant
  | .boolean b => .boolean b
  | .number d => .double d
  | .string s => .string s

mutual

/-- The code of an expression. -/
def expr (c : Context) (e : Expr) : Generate Unit :=
  match e with
  | .constant _ value => constant (literal value)
  | .var l name _ => do
    emit (load (← storage c name l.span))
  | .binary l op left right =>
    if op = .assign then
      match left with
      | .var target name _ => do
        let place ← storage c name target.span
        expr c right
        emitAll [.dup, store place]
      | .element target array (some index) => do
        let type ← orFail (.untyped left.kindName) target.span (c.resolution.typeOf? target.id)
        let stride := type.size.toInt32
        expr c array
        expr c index
        emitAll (elementAddress stride)
        expr c right
        emit (.setField TypeDef.payloadField stride)
      | other => fail (.assignmentKind other.kindName) l.span
    else do
      expr c left
      expr c right
      let leftType ← typeOf c left
      let rightType ← typeOf c right
      operate c op leftType rightType l.span
  | .function l _ _ body => do
    let id ← orFail .noRecord l.span (c.tree.functionOf? l.id)
    let name := (c.tree.functions[id]?).elim "" (·.name)
    let returnType ← orFail (.noReturnType name) l.span
      ((c.tree.functions[id]?).bind (·.returnType))
    let inner ← within c e
    let outer ← enter id
    expr inner body
    epilogue inner body returnType
    leave outer
  | .block _ body => do
    let inner ← within c e
    members inner body
  | .cond _ condition thenBranch elseBranch => do
    let type ← typeOf c e
    expr c condition
    let branch ← acquire
    expr c thenBranch
    match elseBranch with
    | some elseBranch => do
      let skip ← acquire
      let elseStart ← acquire
      expr c elseBranch
      let stop ← acquire
      placeJump branch .ifFalse elseStart
      placeJump skip .always stop
      releaseAll [branch, skip, elseStart, stop]
    | none =>
      if type.isEmpty then do
        let stop ← acquire
        placeJump branch .ifFalse stop
        releaseAll [branch, stop]
      else do
        -- there is a value on the other path too
        let skip ← acquire
        let elseStart ← acquire
        emit (.pushDefault type.id.toInt32)
        let stop ← acquire
        placeJump branch .ifFalse elseStart
        placeJump skip .always stop
        releaseAll [branch, skip, elseStart, stop]
  | .forLoop _ init condition step body => do
    let inner ← within c e
    optional inner init
    let entry ← acquire
    let bodyStart ← acquire
    expr inner body
    dropValue inner body
    optional inner step
    let test ← acquire
    placeJump entry .always test
    match condition with
    | some condition => do
      expr inner condition
      emitJump .ifTrue bodyStart
    | none => emitJump .always bodyStart
    releaseAll [entry, bodyStart, test]
  | .forTo _ counter start bound direction body => do
    let inner ← within c e
    let place ← loopVariable inner counter
    expr inner start
    emit (store place)
    let entry ← acquire
    let bodyStart ← acquire
    expr inner body
    dropValue inner body
    emit (load place)
    constant (.double .one)
    emit (.arith (if direction = .up then .add else .sub))
    emit (store place)
    let test ← acquire
    placeJump entry .always test
    -- the bound is included: go on until the counter has passed it
    emit (load place)
    expr inner bound
    emit (.compare (if direction = .up then .gt else .lt))
    emitJump .ifFalse bodyStart
    releaseAll [entry, bodyStart, test]
  | .forIn l item iterable body => do
    let inner ← within c e
    let slots ← orFail .noLoopSlots l.span (inner.tree.loopSlotsOf? l.id)
    let place ← loopVariable inner item
    let stride := (← typeOf inner item).size.toInt32
    let array ← hidden inner slots.array l.span
    let index ← hidden inner slots.index l.span
    expr inner iterable
    emit (store array)
    constant (.double .zero)
    emit (store index)
    let entry ← acquire
    let bodyStart ← acquire
    emitAll [load array, load index]
    emitAll (elementAddress stride)
    emitAll [.getField TypeDef.payloadField stride, store place]
    expr inner body
    dropValue inner body
    emit (load index)
    constant (.double .one)
    emitAll [.arith .add, store index]
    let test ← acquire
    placeJump entry .always test
    emitAll [load index, load array, .length, .compare .lt]
    emitJump .ifTrue bodyStart
    releaseAll [entry, bodyStart, test]
  | .whileLoop _ condition body => do
    let entry ← acquire
    let bodyStart ← acquire
    expr c body
    dropValue c body
    let test ← acquire
    placeJump entry .always test
    expr c condition
    emitJump .ifTrue bodyStart
    releaseAll [entry, bodyStart, test]
  | .repeatUntil _ body condition => do
    let bodyStart ← acquire
    expr c body
    dropValue c body
    expr c condition
    emitJump .ifFalse bodyStart
    releaseAll [bodyStart]
  | .call l name args => do
    let types ← arguments c args
    let overload ← orFail (.unresolvedCall name) l.span (c.tree.resolveCall? c.scope name types)
    emit (call args.length overload.callee)
  | .ret _ none => emit (.ret 0)
  | .ret _ (some value) => do
    expr c value
    emit (.ret (if (← typeOf c value).isEmpty then 0 else 1))
  | .paren _ inner => expr c inner
  | .element l _ none => fail .arrayTypeAsValue l.span
  | .element _ array (some index) => do
    let stride := (← typeOf c e).size.toInt32
    expr c array
    expr c index
    emitAll (elementAddress stride)
    emit (.getField TypeDef.payloadField stride)
  | .array l elements => do
    operands c elements
    match ← typeOf c e with
    | .array element => emit (.newArray (operand elements.length) element.id.toInt32)
    | other => fail (.arrayLiteralType other) l.span
termination_by structural e

/-- The members of a block; only the last keeps its value. -/
def members (c : Context) : List Expr → Generate Unit
  | [] => pure ()
  | e :: es => do
    expr c e
    if es.isEmpty then pure () else dropValue c e
    members c es
termination_by structural es => es

/-- The arguments of a call, with their types. -/
def arguments (c : Context) : List Expr → Generate (List Ty)
  | [] => pure []
  | e :: es => do
    expr c e
    let type ← typeOf c e
    return type :: (← arguments c es)
termination_by structural es => es

def operands (c : Context) : List Expr → Generate Unit
  | [] => pure ()
  | e :: es => do
    expr c e
    operands c es
termination_by structural es => es

def optional (c : Context) : Option Expr → Generate Unit
  | none => pure ()
  | some e => do
    expr c e
    dropValue c e
termination_by structural e => e

end

end Generate

/-- The code of every function, by number, and the pool they share. -/
structure Generated where
  functions : Array (Array Instr)
  pool : Pool
deriving DecidableEq, Repr

namespace Generate

def program (c : Context) (p : Program) : Generate Unit := do
  expr c p.body
  epilogue c p.body .empty
  leave { function := ScopeTree.main }

/-- The finished code from function number `id` on. -/
def collect (span : Span) (id : Nat) :
    List (Option (Array Instr)) → Except Diagnostic (List (Array Instr))
  | [] => .ok []
  | none :: _ => .error ⟨.code (.noCode id), span⟩
  | some code :: rest => do return code :: (← collect span (id + 1) rest)

end Generate

/-- Lays out the code of `p`, by the scopes of `t` and the types of `r`. -/
def ScopeTree.generate (t : ScopeTree) (p : Program) (r : Resolution) :
    Except Diagnostic Generated :=
  let c : Generate.Context := { tree := t, resolution := r, scope := t.program }
  let start : Generation :=
    { builder := { function := main }, finished := Array.replicate t.functions.size none }
  match Generate.program c p start with
  | .error d _ => .error d
  | .ok _ s => do
    let functions ← Generate.collect p.body.span 0 s.finished.toList
    return { functions := functions.toArray, pool := s.pool }

end TurtleScript
