import TurtleScript.Code.Problem
import TurtleScript.Image.Problem
import TurtleScript.Scope.Problem
import TurtleScript.Span
import TurtleScript.Typing.Problem

/-!
# Diagnostics

Every failure of the compiler and of the module reader is a problem at a source
range. Scope building reports all its problems; the other passes stop at the first.
-/
namespace TurtleScript

/-- The broad classes of problems. -/
inductive Category where
  | declaration | resolution | type | structural | format | generator
deriving DecidableEq, Repr

def Category.label : Category → String
  | .declaration => "DeclarationError"
  | .resolution => "ResolutionError"
  | .type => "TypeError"
  | .structural => "StructuralError"
  | .format => "FormatError"
  | .generator => "GeneratorError"

inductive Problem where
  | scope (p : ScopeProblem)
  | typing (p : TypeProblem)
  | code (p : CodeProblem)
  | image (p : ImageProblem)
deriving DecidableEq, Repr

def ScopeProblem.category : ScopeProblem → Category
  | .variableRedeclared _ | .functionRedeclared _ _ => .declaration
  | _ => .structural

def TypeProblem.category : TypeProblem → Category
  | .undeclaredVariable _ | .foreignVariable _ _ | .noConcatenation _ | .undeclaredFunction _ _
  | .nativeMissing _ | .recordMismatch _ _ => .resolution
  | .cancelled | .noScope _ | .loopVariableKind | .noLoopSlots | .assignmentKind _
  | .arrayTypeAsValue | .returnOutsideFunction | .noRecord _ => .structural
  | _ => .type

namespace Problem

def category : Problem → Category
  | .scope p => p.category
  | .typing p => p.category
  | .code _ => .generator
  | .image _ => .format

def message : Problem → String
  | .scope p => p.message
  | .typing p => p.message
  | .code p => p.message
  | .image p => p.message

end Problem

structure Diagnostic where
  problem : Problem
  /-- For a binary module the positions are those of its bytes. -/
  span : Span
deriving DecidableEq, Repr

def Diagnostic.text (d : Diagnostic) : String :=
  d.problem.category.label ++ ": " ++ d.problem.message ++ " at " ++ d.span.text

end TurtleScript
