/-!
# Classes of characters

A class is a list of closed ranges of code points in increasing order. Long lists are written
down as the gaps between the ranges and their lengths.
-/
namespace TurtleScript.Text

/-- Whether one of the ranges, which are in increasing order, holds `c`. -/
def inRanges (c : Nat) : List (Nat × Nat) → Bool
  | [] => false
  | (low, high) :: rest => if c < low then false else c ≤ high || inRanges c rest

/-- The ranges from `start` on, of which each comes after a gap and has a length, the two in turn. -/
def ranges (start : Nat) : List Nat → List (Nat × Nat)
  | gap :: length :: rest =>
    (start + gap, start + gap + length - 1) :: ranges (start + gap + length) rest
  | _ => []

end TurtleScript.Text
