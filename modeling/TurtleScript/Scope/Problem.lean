import TurtleScript.Types.Ty

/-!
# What can be wrong with declarations
-/
namespace TurtleScript

/-- What a name was given to. -/
inductive NameRole where
  | ofVariable | ofFunction | ofParameter
deriving DecidableEq, Repr

inductive ScopeProblem where
  | variableRedeclared (name : String)
  | functionRedeclared (name : String) (params : List Ty)
  | invalidName (role : NameRole) (name : String)
  | malformedDeclaration (name : String)
  | malformedParameter (name : String)
  | untypedParameter (position : Nat) (function : String)
  | loopVariable (found : String)
deriving DecidableEq, Repr

def NameRole.text : NameRole → String
  | .ofVariable => "variable"
  | .ofFunction => "function"
  | .ofParameter => "parameter"

def ScopeProblem.message : ScopeProblem → String
  | .variableRedeclared name => "variable '" ++ name ++ "' is already declared in this scope"
  | .functionRedeclared name params =>
    "function '" ++ signatureText name params ++ "' is already declared in this scope"
  | .invalidName role name => "'" ++ name ++ "' is not a valid " ++ role.text ++ " name"
  | .malformedDeclaration name => "malformed declaration of '" ++ name ++ "'"
  | .malformedParameter name => "malformed declaration of parameter '" ++ name ++ "'"
  | .untypedParameter position function =>
    s!"parameter {position} of '" ++ function ++ "' must declare a type"
  | .loopVariable found => "loop variable must be a variable, found " ++ found

end TurtleScript
