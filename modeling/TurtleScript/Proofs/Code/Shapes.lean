import TurtleScript.Code.Generate

/-!
# Jumps in the walk

The walk over a program puts jumps into code in four ways: around two branches, around one,
around a loop that is entered at its test, and after a body that is run again. Every construct
with jumps is one of these shapes with the walk over its parts inside.
-/
namespace TurtleScript.Generate

/-- A test, the walk for true and the walk for false. -/
def branching (test yes no : Generate Unit) : Generate Unit := do
  test
  let away ← acquire
  yes
  let past ← acquire
  let other ← acquire
  no
  let stop ← acquire
  placeJump away .ifFalse other
  placeJump past .always stop
  releaseAll [away, past, other, stop]

/-- A test and the walk for true. -/
def skipping (test yes : Generate Unit) : Generate Unit := do
  test
  let away ← acquire
  yes
  let stop ← acquire
  placeJump away .ifFalse stop
  releaseAll [away, stop]

/-- A body and the test after which it is run again; the test is made first. -/
def looping (kind : JumpKind) (body test : Generate Unit) : Generate Unit := do
  let entry ← acquire
  let first ← acquire
  body
  let next ← acquire
  placeJump entry .always next
  test
  emitJump kind first
  releaseAll [entry, first, next]

/-- A body that ends with a test, run again if the test fails. -/
def repeating (body : Generate Unit) : Generate Unit := do
  let first ← acquire
  body
  emitJump .ifFalse first
  releaseAll [first]

section Constructs

variable (c : Context) (l : Label)

theorem expr_operator {op : BinaryOp} (hop : op ≠ .assign) (left right : Expr) :
    expr c (.binary l op left right) = (do
      expr c left
      expr c right
      let leftType ← typeOf c left
      let rightType ← typeOf c right
      operate c op leftType rightType l.span) := by
  cases left with
  | element _ _ i => cases i <;> exact if_neg hop
  | _ => exact if_neg hop

theorem expr_ifElse (condition branch other : Expr) :
    expr c (.cond l condition branch (some other)) = (do
      let _ ← typeOf c (.cond l condition branch (some other))
      branching (expr c condition) (expr c branch) (expr c other)) := rfl

theorem expr_ifThen (condition branch : Expr) :
    expr c (.cond l condition branch none) = (do
      let type ← typeOf c (.cond l condition branch none)
      if type.isEmpty then skipping (expr c condition) (expr c branch)
      else branching (expr c condition) (expr c branch) (emit (.pushDefault type.id.toInt32))) := by
  refine congrArg (typeOf c (.cond l condition branch none) >>= ·) (funext fun type => ?_)
  by_cases h : type.isEmpty = true
  · simp only [if_pos h]
    rfl
  · simp only [if_neg h]
    rfl

/-- The test of a loop; without one the loop goes on forever. -/
def loopTest (inner : Context) : Option Expr → JumpKind × Generate Unit
  | none => (.always, pure ())
  | some condition => (.ifTrue, expr inner condition)

theorem expr_forLoop (init condition step : Option Expr) (body : Expr) :
    expr c (.forLoop l init condition step body) = (do
      let inner ← within c (.forLoop l init condition step body)
      optional inner init
      looping (loopTest inner condition).1
        (do expr inner body; dropValue inner body; optional inner step)
        (loopTest inner condition).2) := by
  cases condition <;> simp only [looping, loopTest, bind_assoc, pure_bind] <;> rfl

theorem expr_forTo (counter start bound : Expr) (direction : Direction) (body : Expr) :
    expr c (.forTo l counter start bound direction body) = (do
      let inner ← within c (.forTo l counter start bound direction body)
      let place ← loopVariable inner counter
      expr inner start
      emit (store place)
      looping .ifFalse
        (do
          expr inner body
          dropValue inner body
          emit (load place)
          constant (.double .one)
          emit (.arith (if direction = .up then .add else .sub))
          emit (store place))
        (do
          emit (load place)
          expr inner bound
          emit (.compare (if direction = .up then .gt else .lt)))) := by
  simp only [looping, bind_assoc]
  rfl

theorem expr_forIn (item iterable body : Expr) :
    expr c (.forIn l item iterable body) = (do
      let inner ← within c (.forIn l item iterable body)
      let slots ← orFail .noLoopSlots l.span (inner.tree.loopSlotsOf? l.id)
      let place ← loopVariable inner item
      let type ← typeOf inner item
      let array ← hidden inner slots.array l.span
      let index ← hidden inner slots.index l.span
      expr inner iterable
      emit (store array)
      constant (.double .zero)
      emit (store index)
      looping .ifTrue
        (do
          emitAll [load array, load index]
          emitAll (elementAddress type.size.toInt32)
          emitAll [.getField TypeDef.payloadField type.size.toInt32, store place]
          expr inner body
          dropValue inner body
          emit (load index)
          constant (.double .one)
          emitAll [.arith .add, store index])
        (emitAll [load index, load array, .length, .compare .lt])) := by
  simp only [looping, bind_assoc]
  rfl

theorem expr_whileLoop (condition body : Expr) :
    expr c (.whileLoop l condition body) =
      looping .ifTrue (do expr c body; dropValue c body) (expr c condition) := by
  simp only [looping, bind_assoc]
  rfl

theorem expr_repeatUntil (body condition : Expr) :
    expr c (.repeatUntil l body condition) =
      repeating (do expr c body; dropValue c body; expr c condition) := by
  simp only [repeating, bind_assoc]
  rfl

end Constructs

end TurtleScript.Generate
