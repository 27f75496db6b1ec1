import TurtleScript.Types.Kind

/-!
# Types of expressions

Scalars compare by identity, arrays by their element type. The empty array
literal has the type `array empty`, which any array variable accepts.
-/
namespace TurtleScript

inductive Ty where
  | empty | boolean | byte | int16 | int32 | int64 | single | double | string
  | array (element : Ty)
deriving DecidableEq, Repr, Inhabited

namespace Ty

/-- The scalar a declaration keyword names. -/
def ofKeyword? (keyword : String) : Option Ty :=
  if keyword = "number" then some .double
  else if keyword = "string" then some .string
  else if keyword = "bool" then some .boolean
  else none

def kind : Ty → Kind
  | .empty => .empty
  | .boolean => .boolean
  | .byte => .byte
  | .int16 => .int16
  | .int32 => .int32
  | .int64 => .int64
  | .single => .single
  | .double => .double
  | .string => .string
  | .array _ => .array

/-- The scalar of a kind, if the kind is one. -/
def ofKind? : Kind → Option Ty
  | .boolean => some .boolean
  | .byte => some .byte
  | .int16 => some .int16
  | .int32 => some .int32
  | .int64 => some .int64
  | .single => some .single
  | .double => some .double
  | .string => some .string
  | .empty => some .empty
  | .array | .struct => none

/-- The number of the type's descriptor in the catalogue. -/
def id (t : Ty) : UInt32 := t.kind.id

/-- Bytes of storage, and the stride of an array of such elements. -/
def size (t : Ty) : UInt32 := t.kind.size

def isEmpty (t : Ty) : Bool := t = .empty

def isArray : Ty → Bool
  | .array _ => true
  | _ => false

def element? : Ty → Option Ty
  | .array element => some element
  | _ => none

/-- Whether a value of type `source` may be stored where `target` is expected. -/
def accepts (target source : Ty) : Bool :=
  target = source || (target.isArray && source = .array .empty)

def text : Ty → String
  | .array element => "Array<" ++ element.text ++ ">"
  | t => t.kind.name

end Ty

/-- `name(T1, T2)`, as messages and tables write an overload. -/
def signatureText (name : String) (params : List Ty) : String :=
  name ++ "(" ++ ", ".intercalate (params.map Ty.text) ++ ")"

end TurtleScript
