import TurtleScript.Types.Ty

/-!
# What can go wrong while code is laid out

Most of these cannot arise from a tree that was scoped and typed before.
-/
namespace TurtleScript

inductive CodeProblem where
  | untyped (kind : String)
  | noScope (kind : String)
  | unknownVariable (name : String)
  | unresolvedCall (name : String)
  | noConcatenation (left right : Ty)
  | arrayEquality (left right : Ty)
  | assignmentKind (kind : String)
  | arrayTypeAsValue
  | arrayLiteralType (found : Ty)
  | noLoopSlots
  | loopVariable (found : String)
  | noRecord
  | noReturnType (function : String)
  | noCode (function : Nat)
  | liveMarkers (function count : Nat)
  | foreignMarker (marker function : Nat)
  | deadMarker (marker : Nat)
deriving DecidableEq, Repr

def CodeProblem.message : CodeProblem → String
  | .untyped kind => kind ++ " node was never typed"
  | .noScope kind => kind ++ " has no scope"
  | .unknownVariable name => "unknown variable '" ++ name ++ "'"
  | .unresolvedCall name => "unresolved call to '" ++ name ++ "'"
  | .noConcatenation left right => "no concatenation for " ++ left.text ++ " + " ++ right.text
  | .arrayEquality left right =>
    "'==' is not supported between " ++ left.text ++ " and " ++ right.text
  | .assignmentKind kind => "cannot assign to " ++ kind
  | .arrayTypeAsValue => "array type syntax used as a value"
  | .arrayLiteralType found => "array literal typed as " ++ found.text
  | .noLoopSlots => "for-in loop has no hidden slots"
  | .loopVariable found => "loop variable must be a variable, found " ++ found
  | .noRecord => "function declaration has no function record"
  | .noReturnType function => "function '" ++ function ++ "' has no return type"
  | .noCode function => s!"no code was generated for function #{function}"
  | .liveMarkers function count => s!"function #{function} finished with {count} live marker(s)"
  | .foreignMarker marker function =>
    s!"marker of function #{marker} used in function #{function}"
  | .deadMarker marker => s!"marker {marker} is no longer live"

end TurtleScript
