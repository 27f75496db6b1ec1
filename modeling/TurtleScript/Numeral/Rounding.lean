/-!
# Division rounded to a neighbour

Every number that leaves the program in a shorter form than it is held goes
through one of two divisions of naturals: the quotient nearest to the exact one,
where a half goes to the even neighbour, and the integer square root.
-/
namespace TurtleScript.Numeral

/-- The natural nearest to `num / den`; a half goes to the even neighbour. -/
def roundDiv (num den : Nat) : Nat :=
  let q := num / den
  let r := num % den
  if 2 * r < den then q
  else if den < 2 * r then q + 1
  else if q % 2 = 0 then q
  else q + 1

/-- Adds to `root` every power of two below `2 ^ bits`, largest first, that keeps
the square at most `n`. -/
def sqrtFrom (n : Nat) : Nat → Nat → Nat
  | 0, root => root
  | bits + 1, root =>
    let next := root + Nat.pow 2 bits
    sqrtFrom n bits (if next * next ≤ n then next else root)

/-- The largest natural whose square is at most `n`. -/
def sqrtFloor (n : Nat) : Nat := sqrtFrom n (n.log2 / 2 + 1) 0

end TurtleScript.Numeral
