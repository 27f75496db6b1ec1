import TurtleScript.Types.Kind

/-!
# The type catalogue

A module carries one descriptor for each kind it uses; the standard catalogue has
one for every kind, in the order of the tags.
-/
namespace TurtleScript

structure FieldDef where
  typeId : UInt32
  name : String
deriving DecidableEq, Repr

structure TypeDef where
  id : UInt32
  name : String
  /-- Neither an array nor a structure. -/
  isPrimitive : Bool
  kind : Kind
  size : UInt32
  fields : List FieldDef
deriving DecidableEq, Repr

namespace TypeDef

/-- The field of an array descriptor through which elements are reached. -/
def payloadField : Int32 := 2

def standard (k : Kind) : TypeDef where
  id := k.id
  name := k.name
  isPrimitive := k ≠ .array && k ≠ .struct
  kind := k
  size := k.size
  fields :=
    if k = .array then
      [⟨Kind.int32.id, "length"⟩, ⟨Kind.int32.id, "stride"⟩, ⟨Kind.int64.id, "payload"⟩]
    else []

def catalogue : List TypeDef := Kind.all.map standard

end TypeDef

end TurtleScript
