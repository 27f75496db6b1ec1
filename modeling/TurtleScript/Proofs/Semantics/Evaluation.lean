import TurtleScript.Machine.Step
import TurtleScript.Proofs.Tree.Numbering
import TurtleScript.Typing.Resolve

/-!
# Direct evaluation

What a typed program means, without code: an evaluator that goes down the tree. Its store
is the host's globals, the locals of the activation at hand, the arrays and the state of
the host. A computation ends with a value or by an exit, and three exits are not faults of
the program: a `return` that has not reached its activation, fuel that ran out, and being
stuck where the types promise more than is there.

Fuel bounds the rounds of every loop and the depth of calls; nothing else is bounded by it.
-/
namespace TurtleScript

/-- The cell that a value stands for, if it is an array. -/
def Value.ref? : Value → Option Nat
  | .array ref => some ref
  | _ => none

/-- A value that can be compared with others. -/
def Value.isScalar : Value → Bool
  | .array _ | .address _ _ => false
  | _ => true

namespace Semantics

structure Store (σ : Type) where
  globals : Array Value
  locals : Array Value
  heap : Heap
  host : σ

namespace Store

variable {σ : Type}

/-- What a place holds; a local of another activation is out of reach. -/
def get? (s : Store σ) (function : Nat) : Storage → Option Value
  | .slot owner n => if owner = function then s.locals[n]? else none
  | .global n => s.globals[n]?

def set? (s : Store σ) (function : Nat) (place : Storage) (v : Value) : Option (Store σ) :=
  match place with
  | .slot owner n =>
    if owner = function ∧ n < s.locals.size then
      some { s with locals := s.locals.setIfInBounds n v }
    else none
  | .global n =>
    if n < s.globals.size then some { s with globals := s.globals.setIfInBounds n v } else none

end Store

/-- Why an evaluation did not come to a value. -/
inductive Exit where
  | returned (value : Option Value)
  | stopped (why : Stop)
  | exhausted
  | stuck
deriving DecidableEq, Repr

abbrev Eval (σ : Type) := EStateM Exit (Store σ)

/-- The arrays with another value at one position of one of them. -/
def withElement (h : Heap) (cell position : Nat) (v : Value) : Heap :=
  ⟨h.cells.mapIdx fun ref c =>
    if ref = cell then
      { c with elements := c.elements.mapIdx fun n old => if n = position then v else old }
    else c⟩

/-- The machine writes elements as the evaluator does. -/
theorem write_eq_withElement (h : Heap) (cell position : Nat) (v : Value) :
    h.write cell position v = withElement h cell position v := by
  have helements (xs : Array Value) : xs.setIfInBounds position v =
      xs.mapIdx fun n old => if n = position then v else old := by
    refine Array.ext_getElem? fun n => ?_
    rw [Array.getElem?_setIfInBounds, Array.getElem?_mapIdx]
    by_cases hn : position = n
    · subst hn
      by_cases hlt : position < xs.size <;> simp [hlt]
    · simp [hn, Ne.symm hn]
  refine congrArg Heap.mk (Array.ext_getElem? fun ref => ?_)
  rw [Array.getElem?_modify, Array.getElem?_mapIdx]
  by_cases href : cell = ref
  · simp only [href, if_true, helements]
  · simp [href, Ne.symm href]

namespace Eval

variable {σ α : Type}

def stuck : Eval σ α := throw .stuck

def fault (f : Fault) : Eval σ α := throw (.stopped (.fault f))

def need : Option α → Eval σ α
  | some a => pure a
  | none => stuck

def number (v : Option Value) : Eval σ Double := need (v.bind Value.double?)

def truth (v : Option Value) : Eval σ Bool := need (v.bind Value.bool?)

def ref (v : Option Value) : Eval σ Nat := need (v.bind Value.ref?)

def read (function : Nat) (place : Storage) : Eval σ Value := do
  need ((← get).get? function place)

def write (function : Nat) (place : Storage) (v : Value) : Eval σ Unit := do
  set (← need ((← get).set? function place v))

def length (cell : Nat) : Eval σ Nat := do return ((← get).heap.cell cell).elements.size

/-- The bytes before the element at an index, as far as an address can hold them. -/
def offset (index : Double) (type : Ty) : Int64 := index.truncate * type.size.toInt32.toInt64

/-- The element that starts after these bytes. -/
def position (index : Double) (type : Ty) : Int :=
  (offset index type).toInt / type.size.toInt32.toInt

def locate (cell : Nat) (index : Double) (type : Ty) : Eval σ Nat := do
  if type.isEmpty then stuck
  else
    let size ← length cell
    if 0 ≤ position index type ∧ position index type < size then
      return (position index type).toNat
    else fault (.indexOutOfBounds (position index type) size)

def readElement (cell : Nat) (index : Double) (type : Ty) : Eval σ Value := do
  let position ← locate cell index type
  need ((← get).heap.cell cell).elements[position]?

def writeElement (cell : Nat) (index : Double) (type : Ty) (v : Value) : Eval σ Unit := do
  let position ← locate cell index type
  modify fun s => { s with heap := withElement s.heap cell position v }

def defaultOf (type : Ty) : Eval σ Value :=
  modifyGet fun s =>
    let (v, heap) := s.heap.defaultOf type.kind
    (v, { s with heap })

/-- A new array of elements of a type. -/
def newArray (type : Ty) (elements : List Value) : Eval σ Value :=
  modifyGet fun s =>
    let (cell, heap) := s.heap.alloc
      { elementType := type.id, stride := type.size, elements := elements.toArray }
    (.array cell, { s with heap })

def native (f : Native σ) (args : List Value) : Eval σ (Option Value) := fun s =>
  match f args s.heap s.host with
  | (.ok v, heap, host) => .ok v { s with heap, host }
  | (.error why, heap, host) => .error (.stopped why) { s with heap, host }

/-- Rounds until one says that it was the last. -/
def iterate (round : α → Eval σ (Option α)) : Nat → α → Eval σ Unit
  | 0, _ => throw .exhausted
  | fuel + 1, a => do
    match ← round a with
    | none => pure ()
    | some a => iterate round fuel a

end Eval

/-- Equality of values that are no arrays. Numbers compare as numbers, so zeros of both signs are
equal and a NaN equals nothing. Values of different classes differ. -/
def same : Value → Value → Bool
  | .empty, .empty => true
  | .boolean a, .boolean b => a = b
  | .double a, .double b => a.equal b
  | .int a, .int b => a = b
  | .string a, .string b => a = b
  | _, _ => false

/-- The machine compares scalars as the evaluator does. -/
theorem scalarEqual_eq_same {a b : Value} (ha : a.isScalar) (hb : b.isScalar) :
    Machine.scalarEqual a b = same a b := by
  cases a <;> cases b <;> simp_all [Machine.scalarEqual, same, Value.isScalar]

/-- An operator other than assignment on two values. -/
def operate : BinaryOp → Value → Value → Option Value
  | .add, .double a, .double b => some (.double (a.add b))
  | .sub, .double a, .double b => some (.double (a.sub b))
  | .mul, .double a, .double b => some (.double (a.mul b))
  | .div, .double a, .double b => some (.double (a.div b))
  | .mod, .double a, .double b => some (.double (a.rem b))
  | .less, .double a, .double b => some (.boolean (a.less b))
  | .greater, .double a, .double b => some (.boolean (b.less a))
  | .lessEqual, .double a, .double b => some (.boolean (a.lessEqual b))
  | .greaterEqual, .double a, .double b => some (.boolean (b.lessEqual a))
  | .equal, a, b =>
    if a.isScalar ∧ b.isScalar then some (.boolean (same a b)) else none
  | .and, .boolean a, .boolean b => some (.boolean (a && b))
  | .or, .boolean a, .boolean b => some (.boolean (a || b))
  | _, _, _ => none

def literal : Literal → Value
  | .boolean b => .boolean b
  | .number d => .double d
  | .string s => .string s

/-- What an evaluation goes by: the program with its scopes and types, and the host. -/
structure World (σ : Type) where
  body : Expr
  tree : ScopeTree
  resolution : Resolution
  natives : Array (Native σ)

/-- Where a node stands: in a scope, and in the body of a function. -/
structure Position where
  scope : Nat
  function : Nat

/-- How a function of the program is run. -/
abbrev Invoke (σ : Type) := Nat → List Value → Eval σ (Option Value)

namespace World

variable {σ : Type}

/-- Where the variable that a name stands for is kept. -/
def place? (w : World σ) (here : Position) (name : String) : Option Storage :=
  ((w.tree.lookupVariable? here.scope name).bind (w.tree.vars[·]?)).map (·.storage)

def counter? (w : World σ) (here : Position) : Expr → Option Storage
  | .var _ name _ => w.place? here name
  | _ => none

def typeOf? (w : World σ) (e : Expr) : Option Ty := w.resolution.typeOf? e.id

/-- The position inside the scope of a node. -/
def within? (w : World σ) (here : Position) (e : Expr) : Option Position :=
  (w.tree.scopeOf? e.id).map fun scope => { here with scope }

open Eval

/-- The value that a node came to is there exactly if its type has values. -/
def settle (w : World σ) (e : Expr) (v : Option Value) : Eval σ Unit := do
  let type ← need (w.typeOf? e)
  if v.isSome = !type.isEmpty then pure () else stuck

def apply (w : World σ) (invoke : Invoke σ) (callee : Callee) (args : List Value) :
    Eval σ (Option Value) :=
  match callee with
  | .script id => invoke id args
  | .native index => do native (← need w.natives[index]?) args

/-- Sums with a string are calls of the host. -/
def operator (w : World σ) (invoke : Invoke σ) (here : Position) (op : BinaryOp)
    (left right : Ty) (a b : Value) : Eval σ (Option Value) :=
  if op = .add ∧ (left = .string ∨ right = .string) then do
    let overload ← need (w.tree.resolveCall? here.scope Host.concatName [left, right])
    w.apply invoke overload.callee [a, b]
  else if op = .equal ∧ (left.isArray ∨ right.isArray) then stuck
  else some <$> need (operate op a b)

mutual

/-- The value of an expression, if it has one. -/
def eval (w : World σ) (fuel : Nat) (invoke : Invoke σ) (here : Position) (e : Expr) :
    Eval σ (Option Value) :=
  match e with
  | .constant _ value => pure (some (literal value))
  | .var _ name _ => do some <$> read here.function (← need (w.place? here name))
  | .binary _ op left right =>
    if op = .assign then
      match left with
      | .var _ name _ => do
        let place ← need (w.place? here name)
        let v ← need (← w.eval fuel invoke here right)
        write here.function place v
        return some v
      | .element target array (some index) => do
        let type ← need (w.resolution.typeOf? target.id)
        let cell ← ref (← w.eval fuel invoke here array)
        let position ← number (← w.eval fuel invoke here index)
        let v ← need (← w.eval fuel invoke here right)
        writeElement cell position type v
        return some v
      | _ => stuck
    else do
      let a ← need (← w.eval fuel invoke here left)
      let b ← need (← w.eval fuel invoke here right)
      w.operator invoke here op (← need (w.typeOf? left)) (← need (w.typeOf? right)) a b
  | .function .. => pure none
  | .block _ body => do w.evalMembers fuel invoke (← need (w.within? here e)) body
  | .cond _ condition thenBranch elseBranch => do
    let type ← need (w.typeOf? e)
    if ← truth (← w.eval fuel invoke here condition) then
      w.eval fuel invoke here thenBranch
    else
      match elseBranch with
      | some elseBranch => w.eval fuel invoke here elseBranch
      | none => if type.isEmpty then pure none else some <$> defaultOf type
  | .forLoop _ init condition step body => do
    let inner ← need (w.within? here e)
    w.evalOptional fuel invoke inner init
    iterate (fun _ => do
      let more ← match condition with
        | some condition => truth (← w.eval fuel invoke inner condition)
        | none => pure true
      if more then
        w.settle body (← w.eval fuel invoke inner body)
        w.evalOptional fuel invoke inner step
        return some ()
      else return none) fuel ()
    return none
  | .forTo _ counter start bound direction body => do
    let inner ← need (w.within? here e)
    let place ← need (w.counter? inner counter)
    write here.function place (← need (← w.eval fuel invoke inner start))
    iterate (fun _ => do
      let now ← number (some (← read here.function place))
      let last ← number (← w.eval fuel invoke inner bound)
      -- the bound is included: a round is left out only when the counter has passed it
      if (if direction = .up then last.less now else now.less last) then return none
      else
        w.settle body (← w.eval fuel invoke inner body)
        let now ← number (some (← read here.function place))
        write here.function place
          (.double (if direction = .up then now.add .one else now.sub .one))
        return some ()) fuel ()
    return none
  | .forIn _ item iterable body => do
    let inner ← need (w.within? here e)
    let place ← need (w.counter? inner item)
    let type ← need (w.typeOf? item)
    let cell ← ref (← w.eval fuel invoke inner iterable)
    iterate (fun position => do
      if position.less (.ofNat (← length cell)) then
        write here.function place (← readElement cell position type)
        w.settle body (← w.eval fuel invoke inner body)
        return some (position.add .one)
      else return none) fuel Double.zero
    return none
  | .whileLoop _ condition body => do
    iterate (fun _ => do
      if ← truth (← w.eval fuel invoke here condition) then
        w.settle body (← w.eval fuel invoke here body)
        return some ()
      else return none) fuel ()
    return none
  | .repeatUntil _ body condition => do
    iterate (fun _ => do
      w.settle body (← w.eval fuel invoke here body)
      if ← truth (← w.eval fuel invoke here condition) then return none
      else return some ()) fuel ()
    return none
  | .call _ name args => do
    let values ← w.evalAll fuel invoke here args
    let types ← need (args.mapM w.typeOf?)
    let overload ← need (w.tree.resolveCall? here.scope name types)
    w.apply invoke overload.callee values
  | .ret _ none => throw (.returned none)
  | .ret _ (some value) => do
    let v ← w.eval fuel invoke here value
    w.settle value v
    throw (.returned v)
  | .paren _ inner => w.eval fuel invoke here inner
  | .element _ _ none => stuck
  | .element _ array (some index) => do
    let type ← need (w.typeOf? e)
    let cell ← ref (← w.eval fuel invoke here array)
    let position ← number (← w.eval fuel invoke here index)
    some <$> readElement cell position type
  | .array _ elements => do
    let values ← w.evalAll fuel invoke here elements
    match ← need (w.typeOf? e) with
    | .array element => some <$> newArray element values
    | _ => stuck
termination_by structural e

/-- The members of a block; the last gives the value. -/
def evalMembers (w : World σ) (fuel : Nat) (invoke : Invoke σ) (here : Position) :
    List Expr → Eval σ (Option Value)
  | [] => pure none
  | e :: es => do
    let v ← w.eval fuel invoke here e
    if es.isEmpty then return v
    else
      w.settle e v
      w.evalMembers fuel invoke here es
termination_by structural es => es

/-- The values of arguments or elements, from left to right. -/
def evalAll (w : World σ) (fuel : Nat) (invoke : Invoke σ) (here : Position) :
    List Expr → Eval σ (List Value)
  | [] => pure []
  | e :: es => do
    let v ← need (← w.eval fuel invoke here e)
    return v :: (← w.evalAll fuel invoke here es)
termination_by structural es => es

def evalOptional (w : World σ) (fuel : Nat) (invoke : Invoke σ) (here : Position) :
    Option Expr → Eval σ Unit
  | none => pure ()
  | some e => do w.settle e (← w.eval fuel invoke here e)
termination_by structural e => e

end

theorem eval_operator {w : World σ} {fuel : Nat} {invoke : Invoke σ} {here : Position} {l : Label}
    {op : BinaryOp} {left right : Expr} (hop : op ≠ .assign) :
    w.eval fuel invoke here (.binary l op left right) = (do
      let a ← need (← w.eval fuel invoke here left)
      let b ← need (← w.eval fuel invoke here right)
      w.operator invoke here op (← need (w.typeOf? left)) (← need (w.typeOf? right)) a b) := by
  cases left with
  | element _ _ i => cases i <;> exact if_neg hop
  | _ => exact if_neg hop

/-- The value of the body, if it is the result. -/
def evalBody (w : World σ) (fuel : Nat) (invoke : Invoke σ) (here : Position) (result : Ty)
    (body : Expr) : Eval σ (Option Value) := do
  let v ← w.eval fuel invoke here body
  w.settle body v
  return if !result.isEmpty && w.typeOf? body = some result then v else none

/-- The types of a function's slots; a slot whose type nobody fixed is empty. -/
def slotTypes (w : World σ) (f : FunctionRecord) : List Ty :=
  f.slots.map fun slot => ((w.tree.vars[slot.var]?).bind (·.type)).getD .empty

/-- Adds the starting values of slots to the locals. -/
def fill (heap : Heap) (locals : Array Value) : List Ty → Array Value × Heap
  | [] => (locals, heap)
  | type :: types =>
    let (v, heap) := heap.defaultOf type.kind
    fill heap (locals.push v) types

/-- Runs a body on fresh locals: the arguments, and every other slot as it starts. -/
def activate (w : World σ) (f : FunctionRecord) (result : Ty) (args : List Value)
    (body : Eval σ (Option Value)) : Eval σ (Option Value) := fun s =>
  let conclude (v : Option Value) (s' : Store σ) : EStateM.Result Exit (Store σ) (Option Value) :=
    if v = none ∧ result ≠ .empty then
      .error (.stopped (.fault (.missingReturnValue f.name))) s'
    else .ok v { s' with locals := s.locals }
  if args.length ≠ f.paramCount then .error .stuck s
  else
    let (locals, heap) := fill s.heap args.toArray ((w.slotTypes f).drop args.length)
    match body { s with locals, heap } with
    | .ok v s' => conclude v s'
    | .error (.returned v) s' => conclude v s'
    | .error exit s' => .error exit s'

/-- The declaration of a function of the program. -/
def declaration? (w : World σ) (id : Nat) : Option (Label × Expr) :=
  w.body.nodes.findSome? fun
    | .function l _ _ body => if w.tree.functionOf? l.id = some id then some (l, body) else none
    | _ => none

theorem declaration?_eq_some {w : World σ} {id : Nat} {l : Label} {body : Expr}
    (h : w.declaration? id = some (l, body)) :
    ∃ name params, .function l name params body ∈ w.body.nodes ∧
      w.tree.functionOf? l.id = some id := by
  obtain ⟨e, he, hk⟩ := List.exists_of_findSome?_eq_some h
  cases e with
  | function l' name params body' =>
    obtain ⟨hid, hk⟩ : w.tree.functionOf? l'.id = some id ∧ (l', body') = (l, body) := by
      simpa using hk
    cases hk
    exact ⟨name, params, he, hid⟩
  | _ => cases hk

/-- A call of a function of the program. -/
def invoke (w : World σ) : Nat → Invoke σ
  | 0, _, _ => throw .exhausted
  | fuel + 1, id, args => do
    let (l, body) ← need (w.declaration? id)
    let scope ← need (w.tree.scopeOf? l.id)
    let f ← need w.tree.functions[id]?
    let result ← need f.returnType
    w.activate f result args (w.evalBody fuel (w.invoke fuel) ⟨scope, id⟩ result body)

/-- The whole program, which is the body of a function without a result. -/
def evaluate (w : World σ) (fuel : Nat) : Eval σ (Option Value) := do
  let f ← need w.tree.functions[ScopeTree.main]?
  w.activate f .empty []
    (w.evalBody fuel (w.invoke fuel) ⟨w.tree.program, ScopeTree.main⟩ .empty w.body)

end World

end Semantics

end TurtleScript
