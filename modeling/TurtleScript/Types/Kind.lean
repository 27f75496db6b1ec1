/-!
# Primitive kinds

The eleven storage kinds. A kind's tag is also the number of its descriptor in the
catalogue of a module.
-/
namespace TurtleScript

inductive Kind where
  | boolean | byte | int16 | int32 | int64 | single | double | string | array | struct | empty
deriving DecidableEq, Repr

namespace Kind

/-- Every kind, in the order of the tags. -/
def all : List Kind :=
  [.boolean, .byte, .int16, .int32, .int64, .single, .double, .string, .array, .struct, .empty]

def tag : Kind → UInt8
  | .boolean => 0
  | .byte => 1
  | .int16 => 2
  | .int32 => 3
  | .int64 => 4
  | .single => 5
  | .double => 6
  | .string => 7
  | .array => 8
  | .struct => 9
  | .empty => 10

def ofTag? (tag : UInt8) : Option Kind := all[tag.toNat]?

def id (k : Kind) : UInt32 := k.tag.toUInt32

def name : Kind → String
  | .boolean => "Boolean"
  | .byte => "Byte"
  | .int16 => "Int16"
  | .int32 => "Int32"
  | .int64 => "Int64"
  | .single => "Single"
  | .double => "Double"
  | .string => "String"
  | .array => "Array"
  | .struct => "Struct"
  | .empty => "Empty"

/-- Bytes of storage. An array holds its length, its stride and its payload. -/
def size : Kind → UInt32
  | .boolean | .byte => 1
  | .int16 => 2
  | .int32 | .single => 4
  | .int64 | .double | .string => 8
  | .array => 16
  | .struct | .empty => 0

theorem ofTag?_tag (k : Kind) : ofTag? k.tag = some k := by cases k <;> rfl

end Kind

end TurtleScript
