import TurtleScript.Code.Generate
import TurtleScript.Proofs.Code.Segments

/-!
# Code by composition

The code of an expression as a function of the codes of its parts, with every jump as a
distance and every constant by its number in the finished pool. No markers and no state
are left.
-/
namespace TurtleScript.Code

open Generate (operand load store elementAddress operator call literal)

abbrev Context := Generate.Context

def typeOf? (c : Context) (e : Expr) : Option Ty := c.resolution.typeOf? e.id

/-- The context inside the scope of a node. -/
def within? (c : Context) (e : Expr) : Option Context :=
  (c.tree.scopeOf? e.id).map fun scope => { c with scope }

theorem within_eq_some {c inner : Context} {e : Expr} {scope : Nat} (h : within? c e = some inner)
    (hscope : c.tree.scopeOf? e.id = some scope) : inner = { c with scope } := by
  rw [within?, hscope] at h
  exact (Option.some.inj h).symm

def storage? (c : Context) (name : String) : Option Storage :=
  ((c.tree.lookupVariable? c.scope name).bind (c.tree.vars[·]?)).map (·.storage)

def hidden? (c : Context) (id : Nat) : Option Storage := (c.tree.vars[id]?).map (·.storage)

def loopVariable? (c : Context) : Expr → Option Storage
  | .var _ name _ => storage? c name
  | _ => none

def constant? (pool : Pool) (value : Constant) : Option (List Instr) :=
  (pool.values.idxOf? value).map fun n => [.loadConst (operand n)]

/-- Drops the value of `e`, if it leaves one. -/
def drop? (c : Context) (e : Expr) : Option (List Instr) :=
  (typeOf? c e).map fun type => if type.isEmpty then [] else [.pop]

/-- Drops the value of a member of a block, unless nothing follows it. -/
def dropBefore? (c : Context) (e : Expr) (rest : List Expr) : Option (List Instr) :=
  if rest.isEmpty then some [] else drop? c e

def operator? (c : Context) (op : BinaryOp) (left right : Ty) : Option Instr :=
  if op = .add ∧ (left = .string ∨ right = .string) then
    (c.tree.resolveCall? c.scope Host.concatName [left, right]).map fun o => call 2 o.callee
  else if op = .equal ∧ (left.isArray ∨ right.isArray) then none
  else some (operator op)

/-- The end of a body of this type in a function that returns `result`. -/
def epilogue (result type : Ty) : List Instr :=
  if !result.isEmpty && type = result then [.ret 1]
  else (if type.isEmpty then [] else [.pop]) ++ [.ret 0]

/-- A body ends with a return, before which code may end. -/
theorem epilogue_eq (result type : Ty) :
    ∃ front, epilogue result type =
        front ++ [.ret (if type = result ∧ result ≠ .empty then 1 else 0)] ∧
      (front = [] ∨ front = [.pop]) := by
  rw [epilogue]
  by_cases hvalue : type = result ∧ result ≠ .empty
  · rw [if_pos (by simp [Ty.isEmpty, hvalue]), if_pos hvalue]
    exact ⟨[], rfl, .inl rfl⟩
  · rw [if_neg (by simpa [Ty.isEmpty, and_comm] using hvalue), if_neg hvalue]
    split
    · exact ⟨[], rfl, .inl rfl⟩
    · exact ⟨[.pop], rfl, .inr rfl⟩

/-- A test and the code for true; where that leaves a value, the other path has one too. -/
def orDefault (type : Ty) (test yes : List Instr) : List Instr :=
  if type.isEmpty then skip test yes else branch test yes [.pushDefault type.id.toInt32]

mutual

/-- The code of an expression. -/
@[simp] def lower (pool : Pool) (c : Context) (e : Expr) : Option (List Instr) :=
  match e with
  | .constant _ value => constant? pool (literal value)
  | .var _ name _ => do return [load (← storage? c name)]
  | .binary _ op left right =>
    if op = .assign then
      match left with
      | .var _ name _ => do
        let place ← storage? c name
        let value ← lower pool c right
        return value ++ [.dup, store place]
      | .element target array (some index) => do
        let type ← c.resolution.typeOf? target.id
        let array ← lower pool c array
        let index ← lower pool c index
        let value ← lower pool c right
        return array ++ index ++ elementAddress type.size.toInt32 ++ value ++
          [.setField TypeDef.payloadField type.size.toInt32]
      | _ => none
    else do
      let leftCode ← lower pool c left
      let rightCode ← lower pool c right
      let i ← operator? c op (← typeOf? c left) (← typeOf? c right)
      return leftCode ++ rightCode ++ [i]
  | .function .. => some []
  | .block _ body => do lowerMembers pool (← within? c e) body
  | .cond _ condition thenBranch elseBranch => do
    let type ← typeOf? c e
    let test ← lower pool c condition
    let yes ← lower pool c thenBranch
    match elseBranch with
    | some elseBranch => return branch test yes (← lower pool c elseBranch)
    | none => return orDefault type test yes
  | .forLoop _ init condition step body => do
    let inner ← within? c e
    let init ← lowerOptional pool inner init
    let bodyCode ← lower pool inner body
    let dropped ← drop? inner body
    let step ← lowerOptional pool inner step
    match condition with
    | some condition =>
      return init ++ loop .ifTrue (bodyCode ++ dropped ++ step) (← lower pool inner condition)
    | none => return init ++ loop .always (bodyCode ++ dropped ++ step) []
  | .forTo _ counter start bound direction body => do
    let inner ← within? c e
    let place ← loopVariable? inner counter
    let start ← lower pool inner start
    let bodyCode ← lower pool inner body
    let dropped ← drop? inner body
    let one ← constant? pool (.double .one)
    let bound ← lower pool inner bound
    return start ++ [store place] ++
      loop .ifFalse
        (bodyCode ++ dropped ++ [load place] ++ one ++
          [.arith (if direction = .up then .add else .sub), store place])
        ([load place] ++ bound ++ [.compare (if direction = .up then .gt else .lt)])
  | .forIn l item iterable body => do
    let inner ← within? c e
    let slots ← inner.tree.loopSlotsOf? l.id
    let place ← loopVariable? inner item
    let stride := (← typeOf? inner item).size.toInt32
    let array ← hidden? inner slots.array
    let index ← hidden? inner slots.index
    let iterable ← lower pool inner iterable
    let zero ← constant? pool (.double .zero)
    let bodyCode ← lower pool inner body
    let dropped ← drop? inner body
    let one ← constant? pool (.double .one)
    return iterable ++ [store array] ++ zero ++ [store index] ++
      loop .ifTrue
        ([load array, load index] ++ elementAddress stride ++
          [.getField TypeDef.payloadField stride, store place] ++ bodyCode ++ dropped ++
          [load index] ++ one ++ [.arith .add, store index])
        [load index, load array, .length, .compare .lt]
  | .whileLoop _ condition body => do
    let bodyCode ← lower pool c body
    let dropped ← drop? c body
    return loop .ifTrue (bodyCode ++ dropped) (← lower pool c condition)
  | .repeatUntil _ body condition => do
    let bodyCode ← lower pool c body
    let dropped ← drop? c body
    return again (bodyCode ++ dropped ++ (← lower pool c condition))
  | .call _ name args => do
    let code ← lowerAll pool c args
    let types ← args.mapM (typeOf? c)
    let overload ← c.tree.resolveCall? c.scope name types
    return code ++ [call args.length overload.callee]
  | .ret _ none => some [.ret 0]
  | .ret _ (some value) => do
    let code ← lower pool c value
    return code ++ [.ret (if (← typeOf? c value).isEmpty then 0 else 1)]
  | .paren _ inner => lower pool c inner
  | .element _ _ none => none
  | .element _ array (some index) => do
    let type ← typeOf? c e
    let array ← lower pool c array
    let index ← lower pool c index
    return array ++ index ++ elementAddress type.size.toInt32 ++
      [.getField TypeDef.payloadField type.size.toInt32]
  | .array _ elements => do
    let code ← lowerAll pool c elements
    match ← typeOf? c e with
    | .array element => return code ++ [.newArray (operand elements.length) element.id.toInt32]
    | _ => none
termination_by structural e

def lowerMembers (pool : Pool) (c : Context) : List Expr → Option (List Instr)
  | [] => some []
  | e :: es => do
    let first ← lower pool c e
    let dropped ← dropBefore? c e es
    return first ++ dropped ++ (← lowerMembers pool c es)
termination_by structural es => es

def lowerAll (pool : Pool) (c : Context) : List Expr → Option (List Instr)
  | [] => some []
  | e :: es => do
    let first ← lower pool c e
    return first ++ (← lowerAll pool c es)
termination_by structural es => es

def lowerOptional (pool : Pool) (c : Context) : Option Expr → Option (List Instr)
  | none => some []
  | some e => do
    let code ← lower pool c e
    return code ++ (← drop? c e)
termination_by structural e => e

end

theorem lower_operator {pool : Pool} {c : Context} {l : Label} {op : BinaryOp} {left right : Expr}
    (hop : op ≠ .assign) :
    lower pool c (.binary l op left right) = (do
      let leftCode ← lower pool c left
      let rightCode ← lower pool c right
      let i ← operator? c op (← typeOf? c left) (← typeOf? c right)
      return leftCode ++ rightCode ++ [i]) := by
  cases left with
  | element _ _ i => cases i <;> exact if_neg hop
  | _ => exact if_neg hop

/-- The test of a loop and the jump that ends it. -/
inductive TestCode (pool : Pool) (c : Context) : Option Expr → JumpKind → List Instr → Prop
  | none : TestCode pool c none .always []
  | some {x : Expr} {code : List Instr} (h : lower pool c x = some code) :
      TestCode pool c (some x) .ifTrue code

section Inversion

variable {pool : Pool} {c : Context} {l : Label} {code : List Instr}

theorem lower_operator_eq_some {op : BinaryOp} {left right : Expr} (hop : op ≠ .assign)
    (h : lower pool c (.binary l op left right) = some code) :
    ∃ leftCode, lower pool c left = some leftCode ∧
      ∃ rightCode, lower pool c right = some rightCode ∧ ∃ a, typeOf? c left = some a ∧
      ∃ b, typeOf? c right = some b ∧ ∃ i, operator? c op a b = some i ∧
      leftCode ++ rightCode ++ [i] = code := by
  simpa only [lower_operator hop, Option.bind_eq_bind, Option.bind_eq_some_iff, pure,
    Option.some.injEq] using h

theorem lower_assignElement_eq_some {target : Label} {array index right : Expr}
    (h : lower pool c (.binary l .assign (.element target array (some index)) right) = some code) :
    ∃ type, c.resolution.typeOf? target.id = some type ∧
      ∃ arrayCode, lower pool c array = some arrayCode ∧
      ∃ indexCode, lower pool c index = some indexCode ∧ ∃ value, lower pool c right = some value ∧
      arrayCode ++ indexCode ++ elementAddress type.size.toInt32 ++ value ++
        [.setField TypeDef.payloadField type.size.toInt32] = code := by
  simpa [Option.bind_eq_some_iff] using h

theorem lower_element_eq_some {array index : Expr}
    (h : lower pool c (.element l array (some index)) = some code) :
    ∃ type, typeOf? c (.element l array (some index)) = some type ∧
      ∃ arrayCode, lower pool c array = some arrayCode ∧
      ∃ indexCode, lower pool c index = some indexCode ∧
      arrayCode ++ indexCode ++ elementAddress type.size.toInt32 ++
        [.getField TypeDef.payloadField type.size.toInt32] = code := by
  simpa [Option.bind_eq_some_iff] using h

theorem lower_call_eq_some {name : String} {args : List Expr}
    (h : lower pool c (.call l name args) = some code) :
    ∃ argsCode, lowerAll pool c args = some argsCode ∧
      ∃ types, args.mapM (typeOf? c) = some types ∧
      ∃ o, c.tree.resolveCall? c.scope name types = some o ∧
      argsCode ++ [call args.length o.callee] = code := by
  simpa [Option.bind_eq_some_iff] using h

theorem lowerMembers_cons_eq_some {e : Expr} {es : List Expr}
    (h : lowerMembers pool c (e :: es) = some code) :
    ∃ first, lower pool c e = some first ∧ ∃ dropped, dropBefore? c e es = some dropped ∧
      ∃ rest, lowerMembers pool c es = some rest ∧ first ++ dropped ++ rest = code := by
  simpa [lowerMembers, Option.bind_eq_some_iff] using h

theorem lower_whileLoop_eq_some {condition body : Expr}
    (h : lower pool c (.whileLoop l condition body) = some code) :
    ∃ bodyCode, lower pool c body = some bodyCode ∧ ∃ dropped, drop? c body = some dropped ∧
      ∃ test, lower pool c condition = some test ∧
      loop .ifTrue (bodyCode ++ dropped) test = code := by
  simpa [Option.bind_eq_some_iff] using h

theorem lower_repeatUntil_eq_some {body condition : Expr}
    (h : lower pool c (.repeatUntil l body condition) = some code) :
    ∃ bodyCode, lower pool c body = some bodyCode ∧ ∃ dropped, drop? c body = some dropped ∧
      ∃ test, lower pool c condition = some test ∧ again (bodyCode ++ dropped ++ test) = code := by
  simpa [Option.bind_eq_some_iff] using h

theorem lower_forLoop_eq_some {init condition step : Option Expr} {body : Expr}
    (h : lower pool c (.forLoop l init condition step body) = some code) :
    ∃ inner, within? c (.forLoop l init condition step body) = some inner ∧
      ∃ initCode, lowerOptional pool inner init = some initCode ∧
      ∃ bodyCode, lower pool inner body = some bodyCode ∧ ∃ dropped, drop? inner body = some dropped ∧
      ∃ stepCode, lowerOptional pool inner step = some stepCode ∧
      ∃ kind test, TestCode pool inner condition kind test ∧
        initCode ++ loop kind (bodyCode ++ dropped ++ stepCode) test = code := by
  simp only [lower, Option.bind_eq_bind, Option.bind_eq_some_iff] at h
  obtain ⟨inner, hinner, initCode, hinit, bodyCode, hbody, dropped, hdropped, stepCode, hstep, h⟩ := h
  refine ⟨inner, hinner, _, hinit, _, hbody, _, hdropped, _, hstep, ?_⟩
  cases condition with
  | none => exact ⟨_, _, .none, Option.some.inj h⟩
  | some condition =>
    obtain ⟨test, htest, h⟩ := Option.bind_eq_some_iff.mp h
    exact ⟨_, _, .some htest, Option.some.inj h⟩

theorem lower_forTo_eq_some {counter start bound body : Expr} {direction : Direction}
    (h : lower pool c (.forTo l counter start bound direction body) = some code) :
    ∃ inner, within? c (.forTo l counter start bound direction body) = some inner ∧
      ∃ place, loopVariable? inner counter = some place ∧
      ∃ startCode, lower pool inner start = some startCode ∧
      ∃ bodyCode, lower pool inner body = some bodyCode ∧ ∃ dropped, drop? inner body = some dropped ∧
      ∃ one, constant? pool (.double .one) = some one ∧
      ∃ boundCode, lower pool inner bound = some boundCode ∧
      startCode ++ [store place] ++ loop .ifFalse
        (bodyCode ++ dropped ++ [load place] ++ one ++
          [.arith (if direction = .up then .add else .sub), store place])
        ([load place] ++ boundCode ++ [.compare (if direction = .up then .gt else .lt)]) = code := by
  simpa only [lower, Option.bind_eq_bind, Option.bind_eq_some_iff, pure, Option.some.injEq] using h

theorem lower_forIn_eq_some {item iterable body : Expr}
    (h : lower pool c (.forIn l item iterable body) = some code) :
    ∃ inner, within? c (.forIn l item iterable body) = some inner ∧
      ∃ slots, inner.tree.loopSlotsOf? l.id = some slots ∧
      ∃ place, loopVariable? inner item = some place ∧ ∃ type, typeOf? inner item = some type ∧
      ∃ array, hidden? inner slots.array = some array ∧
      ∃ index, hidden? inner slots.index = some index ∧
      ∃ iterableCode, lower pool inner iterable = some iterableCode ∧
      ∃ zero, constant? pool (.double .zero) = some zero ∧
      ∃ bodyCode, lower pool inner body = some bodyCode ∧ ∃ dropped, drop? inner body = some dropped ∧
      ∃ one, constant? pool (.double .one) = some one ∧
      iterableCode ++ [store array] ++ zero ++ [store index] ++ loop .ifTrue
        ([load array, load index] ++ elementAddress type.size.toInt32 ++
          [.getField TypeDef.payloadField type.size.toInt32, store place] ++ bodyCode ++ dropped ++
          [load index] ++ one ++ [.arith .add, store index])
        [load index, load array, .length, .compare .lt] = code := by
  simpa only [lower, Option.bind_eq_bind, Option.bind_eq_some_iff, pure, Option.some.injEq] using h

end Inversion

/-- The code of a function with this body. -/
def lowerBody (pool : Pool) (c : Context) (result : Ty) (body : Expr) : Option (List Instr) := do
  let code ← lower pool c body
  return code ++ epilogue result (← typeOf? c body)

end TurtleScript.Code
