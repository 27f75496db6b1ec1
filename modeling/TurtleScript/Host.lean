import TurtleScript.Types.Ty

/-!
# Hosts

What a program finds already declared: global variables and native functions. Both
are called by their place in the host's lists, so whoever runs the program supplies
values and implementations in the same order.
-/
namespace TurtleScript

/-- Folds the ASCII letters of a name, by which names are compared. -/
def foldName (name : String) : String := name.map Char.toLower

structure HostVariable where
  name : String
  type : Ty
deriving DecidableEq, Repr

structure NativeSignature where
  name : String
  params : List Ty
  returnType : Ty
deriving DecidableEq, Repr

structure Host where
  globals : List HostVariable := []
  natives : List NativeSignature := []
deriving DecidableEq, Repr

namespace Host

/-- The native behind `+` on strings. -/
def concatName : String := "$concat"

def empty : Host := {}

/-- Concatenation for every mix of strings and numbers. -/
def standard : Host where
  natives :=
    [⟨concatName, [.string, .string], .string⟩, ⟨concatName, [.string, .double], .string⟩,
      ⟨concatName, [.double, .string], .string⟩]

/-- The standard host with a turtle. -/
def turtle : Host where
  globals := [⟨"pi", .double⟩]
  natives := standard.natives ++
    [⟨"forward", [.double], .empty⟩, ⟨"turn", [.double], .empty⟩, ⟨"pen_up", [], .empty⟩,
      ⟨"pen_down", [], .empty⟩, ⟨"print", [.string], .empty⟩, ⟨"print", [.double], .empty⟩]

/-- The place of the native with exactly these parameters. -/
def nativeIndex? (h : Host) (name : String) (params : List Ty) : Option Nat :=
  h.natives.findIdx? fun n => foldName n.name = foldName name && n.params = params

def variableIndex? (h : Host) (name : String) : Option Nat :=
  h.globals.findIdx? fun v => foldName v.name = foldName name

end Host

end TurtleScript
