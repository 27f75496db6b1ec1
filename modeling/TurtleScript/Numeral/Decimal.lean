import TurtleScript.Numeral.Double

/-!
# Doubles in decimal

Two texts of a double. `Double.text` has the fewest digits that read back as the
same double, of those the ones nearest to it, and an exact tie goes up; it is
always positional. `Double.fixedText` has a given number of places and rounds the
exact binary value, a half to the even digit.
-/
namespace TurtleScript

/-- The number `digits * 10 ^ exponent`. -/
structure Decimal where
  digits : Nat
  exponent : Int
deriving DecidableEq, Repr

namespace Decimal

/-- Writes the number without an exponent and without a trailing point. -/
def positional (d : Decimal) : String :=
  let ds := Nat.toDigits 10 d.digits
  match d.exponent with
  | .ofNat zeros => String.ofList (ds ++ List.replicate zeros '0')
  | .negSucc n =>
    let places := n + 1
    let padded := List.replicate (places + 1 - ds.length) '0' ++ ds
    let whole := padded.length - places
    String.ofList (padded.take whole ++ '.' :: padded.drop whole)

end Decimal

namespace Double

/-- The reals that round to a positive finite double, in units of a quarter of
its last bit: from `low` to `high` around `4 * significand`, the ends included
when the significand is even. Below a power of two the gap is half as wide. -/
structure Neighbourhood where
  low : Nat
  value : Nat
  high : Nat
  closed : Bool

def neighbourhood (d : Double) : Neighbourhood :=
  let m := d.significand
  let narrow := d.fraction = 0 && 1 < d.field
  { low := if narrow then 4 * m - 1 else 4 * m - 2
    value := 4 * m
    high := 4 * m + 2
    closed := m % 2 = 0 }

/-- The multiple of `10 ^ k` nearest to the value, if one of its two neighbours
on that grid lies in the neighbourhood. The unit is `2 ^ (scale - 1076)`. -/
def onGrid? (n : Neighbourhood) (scale : Nat) (k : Int) : Option Nat :=
  let a := Nat.pow 2 scale * Nat.pow 10 (-k).toNat
  let unit := Nat.pow 2 1076 * Nat.pow 10 k.toNat
  let inside (c : Nat) : Bool :=
    if n.closed then n.low * a ≤ c * unit && c * unit ≤ n.high * a
    else n.low * a < c * unit && c * unit < n.high * a
  let c := n.value * a / unit
  match inside c, inside (c + 1) with
  | true, true =>
    some (if n.value * a - c * unit < (c + 1) * unit - n.value * a then c else c + 1)
  | true, false => some c
  | false, true => some (c + 1)
  | false, false => none

/-- Tries ever finer grids, the coarsest first. -/
def firstGrid (n : Neighbourhood) (scale : Nat) : Nat → Int → Decimal
  | 0, k => ⟨0, k⟩
  | fuel + 1, k =>
    match onGrid? n scale k with
    | some c => ⟨c, k⟩
    | none => firstGrid n scale fuel (k - 1)

/-- The decimal with the fewest digits that rounds to the magnitude of `d`. -/
def shortest (d : Double) : Decimal :=
  if d.significand = 0 then ⟨0, 0⟩
  else
    -- `3 / 10` is just below `log10 2`, so this grid is at most some digits too coarse
    let magnitude : Int := (d.significand.log2 + d.scale : Nat) - 1074
    let start := magnitude * 30103 / 100000 + 1
    firstGrid d.neighbourhood d.scale 20 start

def signText (d : Double) : String := if d.isNegative then "-" else ""

/-- The shortest text that reads back as `d`. -/
def text (d : Double) : String :=
  if d.isNaN then "NaN"
  else if d.isInfinite then d.signText ++ "inf"
  else d.signText ++ d.shortest.positional

/-- The text of `d` with exactly `places` digits after the point. -/
def fixedText (d : Double) (places : Nat) : String :=
  if d.isNaN then "NaN"
  else if d.isInfinite then d.signText ++ "inf"
  else
    let scaled := d.significand * Nat.pow 2 d.scale * Nat.pow 10 places
    let units := Numeral.roundDiv scaled (Nat.pow 2 1074)
    d.signText ++ (Decimal.mk units (-places)).positional

end Double

end TurtleScript
