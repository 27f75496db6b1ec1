import TurtleScript.Numeral.Double

/-!
# JSON values

Numbers keep apart what a reader may tell apart: a natural below `2 ^ 64`, a
negative integer from `-2 ^ 63` on, and everything else as a double. A value that
is well formed but stands for nothing (a number beyond the doubles, a text with
half of a surrogate pair, an object with such a key) is `unreadable`: it may be
skipped and not used.
-/
namespace TurtleScript

namespace Json

inductive Number where
  | natural (n : UInt64)
  | negative (n : Int64)
  | double (d : Double)
deriving DecidableEq, Repr

def Number.toDouble : Number → Double
  | .natural n => Double.ofNat n.toNat
  | .negative n => Double.ofRatio true n.toInt.natAbs 1
  | .double d => d

end Json

inductive Json where
  | null
  | bool (b : Bool)
  | number (n : Json.Number)
  | string (s : String)
  | array (items : List Json)
  | object (members : List (String × Json))
  | unreadable
deriving Repr, Inhabited

namespace Json

def natural? : Json → Option Nat
  | .number (.natural n) => some n.toNat
  | _ => none

def string? : Json → Option String
  | .string s => some s
  | _ => none

/-- The value of a key: `some none` if it is missing, `none` if it is repeated. -/
def member? (key : String) (members : List (String × Json)) : Option (Option Json) :=
  match members.filter (·.1 = key) with
  | [] => some none
  | [(_, value)] => some (some value)
  | _ => none

mutual

/-- Whether nothing in the value is unreadable and it nests at most `limit` deep. -/
def isReadable (limit : Nat) : Json → Bool
  | .null | .bool _ | .number _ | .string _ => true
  | .unreadable => false
  | .array items => 0 < limit && itemsReadable (limit - 1) items
  | .object members => 0 < limit && membersReadable (limit - 1) members
termination_by structural j => j

def itemsReadable (limit : Nat) : List Json → Bool
  | [] => true
  | j :: js => isReadable limit j && itemsReadable limit js
termination_by structural js => js

def membersReadable (limit : Nat) : List (String × Json) → Bool
  | [] => true
  | (_, j) :: ms => isReadable limit j && membersReadable limit ms
termination_by structural ms => ms

end

end Json

end TurtleScript
