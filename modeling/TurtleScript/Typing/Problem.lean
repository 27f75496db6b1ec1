import TurtleScript.Tree.Expr
import TurtleScript.Types.Ty

/-!
# What can be wrong with the types of a program
-/
namespace TurtleScript

/-- Where an assignment stores. -/
inductive AssignmentTarget where
  | named (name : String)
  | element
deriving DecidableEq, Repr

/-- The operands an operator asks for. -/
inductive OperandClass where
  | number | numberOrString | boolean
deriving DecidableEq, Repr

inductive TypeProblem where
  | cancelled
  | noScope (kind : String)
  | undeclaredVariable (name : String)
  | foreignVariable (name function : String)
  | variableTypeUnknown (name : String)
  | loopVariableKind
  | loopVariableType (name : String) (actual expected : Ty)
  | conditionType (found : Ty)
  | branchTypes (thenType elseType : Ty)
  | boundType (found : Ty)
  | iterableType (found : Ty)
  | iterableEmpty
  | noLoopSlots
  | operands (op : BinaryOp) (expected : OperandClass) (left right : Ty)
  | noConcatenation (params : List Ty)
  | assignmentKind (kind : String)
  | assignmentType (source : Ty) (target : AssignmentTarget) (expected : Ty)
  | arrayTypeAsValue
  | indexedType (found : Ty)
  | indexType (found : Ty)
  | indexedEmpty
  | elementWithoutValue
  | elementTypes (expected found : Ty)
  | undeclaredFunction (name : String) (args : List Ty)
  | nativeMissing (index : Nat)
  | returnTypeUnknown (name : String) (args : List Ty)
  | returnOutsideFunction
  | returnTypes (function : String) (known found : Ty)
  | noRecord (name : String)
  | recordMismatch (name : String) (params : List Ty)
deriving DecidableEq, Repr

def AssignmentTarget.text : AssignmentTarget → String
  | .named name => "variable '" ++ name ++ "'"
  | .element => "array element"

def OperandClass.text : OperandClass → String
  | .number => "number"
  | .numberOrString => "number or string"
  | .boolean => "Boolean"

def TypeProblem.message : TypeProblem → String
  | .cancelled => "compilation cancelled"
  | .noScope kind => kind ++ " has no scope; was the tree built?"
  | .undeclaredVariable name => "undeclared variable '" ++ name ++ "'"
  | .foreignVariable name function =>
    "variable '" ++ name ++ "' belongs to function '" ++ function ++ "' and is not visible here"
  | .variableTypeUnknown name => "type of variable '" ++ name ++ "' is not known here"
  | .loopVariableKind => "loop variable must be a variable"
  | .loopVariableType name actual expected =>
    "loop variable '" ++ name ++ "' has type " ++ actual.text ++ " but the loop produces " ++
      expected.text
  | .conditionType found => "condition must be Boolean, found " ++ found.text
  | .branchTypes thenType elseType =>
    "if branches have different types: " ++ thenType.text ++ " and " ++ elseType.text
  | .boundType found => "for-to bounds must be numbers, found " ++ found.text
  | .iterableType found => "for-in expects an array, found " ++ found.text
  | .iterableEmpty => "cannot iterate over an empty array literal"
  | .noLoopSlots => "for-in loop has no hidden slots"
  | .operands op expected left right =>
    "operator '" ++ op.symbol ++ "' expects " ++ expected.text ++ " operands, found " ++
      left.text ++ " and " ++ right.text
  | .noConcatenation params =>
    "no string concatenation available for " ++ signatureText "$concat" params
  | .assignmentKind kind => "cannot assign to " ++ kind
  | .assignmentType source target expected =>
    "cannot assign " ++ source.text ++ " to " ++ target.text ++ " of type " ++ expected.text
  | .arrayTypeAsValue => "array type syntax used as a value"
  | .indexedType found => "cannot index a value of type " ++ found.text
  | .indexType found => "array index must be a number, found " ++ found.text
  | .indexedEmpty => "cannot index an empty array literal"
  | .elementWithoutValue => "array elements must have a value"
  | .elementTypes expected found =>
    "array elements must share one type, found " ++ expected.text ++ " and " ++ found.text
  | .undeclaredFunction name args => "undeclared function '" ++ signatureText name args ++ "'"
  | .nativeMissing index => s!"native #{index} is not provided"
  | .returnTypeUnknown name args =>
    "return type of '" ++ signatureText name args ++ "' is not known yet"
  | .returnOutsideFunction => "'return' used outside of a function body"
  | .returnTypes function known found =>
    "conflicting return types in function '" ++ function ++ "': " ++ known.text ++ " and " ++
      found.text
  | .noRecord name => "function '" ++ name ++ "' has no function record; was the tree built?"
  | .recordMismatch name params =>
    "declaration of '" ++ signatureText name params ++ "' does not match its function record"

end TurtleScript
