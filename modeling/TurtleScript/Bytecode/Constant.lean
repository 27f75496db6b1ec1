import TurtleScript.Numeral.Decimal
import TurtleScript.Text.Quoted
import TurtleScript.Types.Kind

/-!
# Constants and the pool

The literals of a program, each once, numbered by first use. Doubles are told apart
by their bits, so the two zeros have two entries and equal NaN patterns one.
-/
namespace TurtleScript

inductive Constant where
  | boolean (b : Bool)
  | double (d : Double)
  | string (s : String)
deriving DecidableEq, Repr

namespace Constant

def kind : Constant → Kind
  | .boolean _ => .boolean
  | .double _ => .double
  | .string _ => .string

def text : Constant → String
  | .boolean b => if b then "true" else "false"
  | .double d => d.text
  | .string s => Text.quote s

/-- Equality of what the constants stand for: doubles compare as numbers. -/
def agrees : Constant → Constant → Bool
  | .double a, .double b => a.equal b
  | a, b => a = b

end Constant

/-- The constants of a program in the order of their numbers. -/
structure Pool where
  values : List Constant := []
deriving DecidableEq, Repr

namespace Pool

/-- The number of `c`, which is added if it is new. -/
def intern (p : Pool) (c : Constant) : Nat × Pool :=
  match p.values.idxOf? c with
  | some n => (n, p)
  | none => (p.values.length, ⟨p.values ++ [c]⟩)

def get? (p : Pool) (n : Nat) : Option Constant := p.values[n]?

def size (p : Pool) : Nat := p.values.length

end Pool

end TurtleScript
