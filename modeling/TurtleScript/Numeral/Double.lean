import TurtleScript.Numeral.Rounding

/-!
# Doubles

A double is its 64-bit pattern, so that a literal, a constant and a byte string
agree on every bit, the payload of a NaN included. Finite doubles are read as
`significand * 2 ^ exponent`. Sums, products, quotients and comparisons are those
of the machine's floating-point unit; the remainder, the truncation to an integer
and the rounding of a fraction are exact and stated on naturals.
-/
namespace TurtleScript

/-- A number of the language, held as its bit pattern. -/
structure Double where
  bits : UInt64
deriving DecidableEq, Repr, Inhabited

namespace Double

/-- The weight of the sign bit, `2 ^ 63`. -/
def signWeight : Nat := 0x8000000000000000

/-- The weight of the lowest exponent bit, `2 ^ 52`. -/
def fieldWeight : Nat := 0x10000000000000

def isNegative (d : Double) : Bool := d.bits.toNat / signWeight = 1

/-- The eleven exponent bits. -/
def field (d : Double) : Nat := d.bits.toNat / fieldWeight % 2048

/-- The fifty-two fraction bits. -/
def fraction (d : Double) : Nat := d.bits.toNat % fieldWeight

def isFinite (d : Double) : Bool := d.field ≠ 2047

def isNaN (d : Double) : Bool := d.field = 2047 && d.fraction ≠ 0

def isInfinite (d : Double) : Bool := d.field = 2047 && d.fraction = 0

/-- The integral significand, the hidden bit included. -/
def significand (d : Double) : Nat :=
  if d.field = 0 then d.fraction else fieldWeight + d.fraction

/-- The weight of the significand's last bit, counted from `2 ^ -1074`. -/
def scale (d : Double) : Nat := d.field - 1

def nan : Double := ⟨0x7ff8000000000000⟩

def zero : Double := ⟨0⟩

def one : Double := ⟨0x3ff0000000000000⟩

def ofSign (negative : Bool) (magnitude : Nat) : Double :=
  ⟨UInt64.ofNat (if negative then signWeight + magnitude else magnitude)⟩

def infinity (negative : Bool) : Double := ofSign negative (2047 * fieldWeight)

/-- The double `m * 2 ^ (s - 1074)` for `m ≤ 2 ^ 53`, where `2 ^ 52 ≤ m` unless
`s = 0`. A significand of `2 ^ 53` carries into the exponent; from the largest
finite double on the result is infinite. -/
def ofScaled (negative : Bool) (m s : Nat) : Double :=
  let word := s * fieldWeight + m
  if word < 2047 * fieldWeight then ofSign negative word else infinity negative

/-- The double nearest to `num / den`; a half goes to the even significand. -/
def ofRatio (negative : Bool) (num den : Nat) : Double :=
  if num = 0 then ofSign negative 0
  else
    -- the quotient lies in `[2 ^ e, 2 ^ (e + 1))`
    let guess : Int := num.log2 - den.log2
    let below := num * Nat.pow 2 (-guess).toNat < den * Nat.pow 2 guess.toNat
    let e : Int := if below then guess - 1 else guess
    let s := (e - 52 + 1074).toNat
    let q : Int := s - 1074
    ofScaled negative
      (Numeral.roundDiv (num * Nat.pow 2 (-q).toNat) (den * Nat.pow 2 q.toNat)) s

def ofNat (n : Nat) : Double := ofRatio false n 1

def toFloat (d : Double) : Float := Float.ofBits d.bits

def ofFloat (x : Float) : Double := ⟨x.toBits⟩

def add (a b : Double) : Double := ofFloat (a.toFloat + b.toFloat)

def sub (a b : Double) : Double := ofFloat (a.toFloat - b.toFloat)

def mul (a b : Double) : Double := ofFloat (a.toFloat * b.toFloat)

def div (a b : Double) : Double := ofFloat (a.toFloat / b.toFloat)

def less (a b : Double) : Bool := a.toFloat < b.toFloat

def lessEqual (a b : Double) : Bool := a.toFloat ≤ b.toFloat

/-- Equality of numbers: a NaN differs from itself and the two zeros agree. -/
def equal (a b : Double) : Bool := a.toFloat == b.toFloat

/-- The remainder of the division truncated toward zero, with the dividend's sign. -/
def rem (a b : Double) : Double :=
  if a.isNaN || b.isNaN || a.isInfinite || b.significand = 0 then nan
  else if b.isInfinite then a
  else
    let s := min a.scale b.scale
    let x := a.significand * Nat.pow 2 (a.scale - s)
    let y := b.significand * Nat.pow 2 (b.scale - s)
    ofRatio a.isNegative (x % y * Nat.pow 2 s) (Nat.pow 2 1074)

/-- The remainder brought into `[0, b)` for a positive `b`. -/
def remEuclid (a b : Double) : Double :=
  let r := rem a b
  if less r zero then add r b else r

/-- Rounds toward zero; what no 64-bit integer holds goes to the nearest end of
their range, and a NaN to zero. -/
def truncate (d : Double) : Int64 :=
  if d.isNaN then 0
  else
    let magnitude : Int :=
      if d.isInfinite then 0x8000000000000000
      else d.significand * Nat.pow 2 d.scale / Nat.pow 2 1074
    let n := if d.isNegative then -magnitude else magnitude
    Int64.ofInt (max (-0x8000000000000000) (min n 0x7fffffffffffffff))

def abs (d : Double) : Double := ⟨UInt64.ofNat (d.bits.toNat % signWeight)⟩

/-- The length of the hypotenuse, rounded once. -/
def hypot (a b : Double) : Double :=
  if a.isInfinite || b.isInfinite then infinity false
  else if a.isNaN || b.isNaN then nan
  else if a.significand = 0 then b.abs
  else if b.significand = 0 then a.abs
  else
    let s := min a.scale b.scale
    let x := a.significand * Nat.pow 2 (a.scale - s)
    let y := b.significand * Nat.pow 2 (b.scale - s)
    -- sixty-four more bits of the root, and whether anything is left of it
    let n := (x * x + y * y) * Nat.pow 2 128
    let root := Numeral.sqrtFloor n
    let sticky := if root * root = n then 0 else 1
    ofRatio false ((2 * root + sticky) * Nat.pow 2 s) (Nat.pow 2 (1074 + 65))

def sin (d : Double) : Double := ofFloat d.toFloat.sin

def cos (d : Double) : Double := ofFloat d.toFloat.cos

end Double

end TurtleScript
